import DgxPlatform.Lib.Text

/-! # The arguments of a launch

`validateArgs` accepts the engine arguments that an administrator writes: a flag
of the engine's first table, or one of its second table with a value behind it.
`startProcess` then takes the pseudo-flags out of the flat list of tokens; each
sets a variable of the environment or chooses another binary.

* `reading_unique`, `reading_strip`: there is one reading, and taking out the
  pseudo-flags takes out items, never a value.
-/

namespace Runner.Args

open Text

/-! ## The tables -/

def BOOL_FLAGS : List (List Char) :=
  ["--cute-dsl-arch-sm121a", "--disable-log-requests", "--disable-log-stats",
    "--enable-auto-tool-choice", "--enable-mamba-cache-stochastic-rounding",
    "--enable-mamba-shared-prefix-checkpoint", "--enforce-eager", "--force-fp8-marlin",
    "--language-model-only", "--skip-mm-profiling", "--vllm-032"].map String.toList

def VALUE_FLAGS : List (List Char) :=
  ["--attention-backend", "--block-size", "--default-chat-template-kwargs", "--dtype",
    "--gpu-memory-utilization", "--kv-cache-dtype", "--limit-mm-per-prompt", "--mamba-backend",
    "--mamba-cache-philox-rounds", "--mamba-ssm-cache-dtype", "--max-model-len",
    "--max-num-batched-tokens", "--max-num-seqs", "--pipeline-parallel-size",
    "--prefix-match-unit", "--quantization", "--reasoning-parser", "--speculative-config",
    "--speculative_config.method", "--speculative_config.model",
    "--speculative_config.num_speculative_tokens", "--swap-space", "--tensor-parallel-size",
    "--tokenizer-mode", "--tool-call-parser", "--uvicorn-log-level",
    "--video-pruning-rate"].map String.toList

def LLAMA_BOOL_FLAGS : List (List Char) :=
  ["--cont-batching", "--context-shift", "--jinja", "--kv-unified", "--llama-v080", "--metrics",
    "--mlock", "--no-context-shift", "--no-kv-offload", "--no-kv-unified", "--no-mmap",
    "--no-warmup"].map String.toList

def LLAMA_VALUE_FLAGS : List (List Char) :=
  ["--batch-size", "--cache-type-k", "--cache-type-v", "--chat-template-file",
    "--chat-template-kwargs", "--ctx-size", "--defrag-thold", "--flash-attn",
    "--kv-unified-per-slot", "--lazy-mode", "--load-mode", "--log-verbosity", "--main-gpu",
    "--mmproj", "--n-gpu-layers", "--n-predict", "--override-tensor", "--parallel",
    "--reasoning-format", "--rope-freq-base", "--rope-freq-scale", "--rope-scaling", "--seed",
    "--split-mode", "--threads", "--threads-batch", "--ubatch-size"].map String.toList

def DS4_BOOL_FLAGS : List (List Char) :=
  ["--cpu", "--cuda", "--disable-exact-dsml-tool-replay",
    "--kv-cache-reject-different-quant"].map String.toList

def DS4_VALUE_FLAGS : List (List Char) :=
  ["--backend", "--ctx", "--kv-cache-boundary-align-tokens", "--kv-cache-boundary-trim-tokens",
    "--kv-cache-cold-max-tokens", "--kv-cache-continued-interval-tokens",
    "--kv-cache-min-tokens", "--kv-disk-space-mb"].map String.toList

def OCR_BOOL_FLAGS : List (List Char) :=
  ["--cute-dsl-arch-sm121a", "--disable-log-requests", "--disable-log-stats",
    "--enable-auto-tool-choice", "--enforce-eager", "--force-fp8-marlin",
    "--language-model-only", "--no-enable-prefix-caching", "--skip-mm-profiling",
    "--trust-remote-code", "--vllm-032"].map String.toList

def OCR_VALUE_FLAGS : List (List Char) :=
  ["--attention-backend", "--block-size", "--default-chat-template-kwargs", "--dtype",
    "--gpu-memory-utilization", "--kv-cache-dtype", "--limit-mm-per-prompt",
    "--logits_processors", "--max-model-len", "--max-num-batched-tokens", "--max-num-seqs",
    "--mm-processor-cache-gb", "--pipeline-parallel-size", "--quantization",
    "--reasoning-parser", "--speculative-config", "--swap-space", "--tensor-parallel-size",
    "--tokenizer-mode", "--tool-call-parser", "--uvicorn-log-level"].map String.toList

def EXL3_BOOL_FLAGS : List (List Char) := []

def EXL3_VALUE_FLAGS : List (List Char) :=
  ["--cache-mode", "--cache-size", "--chunk-size", "--draft-cache-mode", "--draft-mode",
    "--draft-model-name", "--draft-num-tokens", "--gpu-split-auto", "--max-batch-size",
    "--max-seq-len", "--model-name", "--reasoning", "--vision"].map String.toList

def TRUST_RC_MODELS : List (List Char) :=
  ["nvidia/NVIDIA-Nemotron-3.5-Super-VL-120B-A12B-NVFP4".toList]

/-- Flag, variable, value. -/
def ENV_FLAG_VARS : List (List Char × List Char × List Char) :=
  [("--cute-dsl-arch-sm121a".toList, "CUTE_DSL_ARCH".toList, "sm_121a".toList),
    ("--force-fp8-marlin".toList, "VLLM_TEST_FORCE_FP8_MARLIN".toList, "1".toList)]

/-- Flag, variable, default binary relative to the runner's home. -/
def BIN_FLAG_PATHS : List (List Char × List Char × List Char) :=
  [("--llama-v080".toList, "LLAMA_BIN_V080".toList,
      "llama-cpp-v080/build/bin/llama-server".toList),
    ("--vllm-032".toList, "VLLM_BIN_032".toList, "venvs/vllm-032/bin/vllm".toList)]

/-! ## The validation -/

/-- The flags without a value, and those with one. -/
structure Flags where
  bools : List (List Char)
  values : List (List Char)

/-- `flags_for`. -/
def flagsFor (engine : List Char) : Flags :=
  if engine = "exllamav3".toList then ⟨EXL3_BOOL_FLAGS, EXL3_VALUE_FLAGS⟩
  else if engine = "llamacpp".toList then ⟨LLAMA_BOOL_FLAGS, LLAMA_VALUE_FLAGS⟩
  else if engine = "ds4".toList then ⟨DS4_BOOL_FLAGS, DS4_VALUE_FLAGS⟩
  else if engine = "ocr".toList then ⟨OCR_BOOL_FLAGS, OCR_VALUE_FLAGS⟩
  else ⟨BOOL_FLAGS, VALUE_FLAGS⟩

/-- The shortest non-empty start of `t` of characters that `p` allows with `sep` behind it and,
behind that, something that `next` reads. -/
def shortest {α : Type} (p : Char → Bool) (sep : List Char) (next : List Char → Option α)
    (t : List Char) : Option (List Char × α) :=
  (List.range t.length).findSome? fun n =>
    let part := t.take (n + 1)
    if part.all p ∧ sep <+: t.drop (n + 1) then
      (next ((t.drop (n + 1)).drop sep.length)).map fun a => (part, a)
    else none

/-- The first match of `models--([^/]+?)--(.+?)/snapshots/`. -/
def snapshotRepo (t : List Char) : Option (List Char × List Char) :=
  t.tails.findSome? fun u =>
    if "models--".toList <+: u then
      (shortest (· ≠ '/') "--".toList
        (shortest (· ≠ '\n') "/snapshots/".toList fun _ => some ()) (u.drop 8)).map
          fun r => (r.1, r.2.1)
    else none

/-- `repo_id_of`. -/
def repoIdOf (hfId : List Char) : List Char :=
  match snapshotRepo hfId with
  | some (owner, name) => owner ++ '/' :: name
  | none => hfId

def trustRemoteCode : List Char := "--trust-remote-code".toList

/-- A flag that consumes nothing. -/
def Flags.standsAlone (f : Flags) (hfId tok : List Char) : Bool :=
  decide (tok ∈ f.bools) ||
    (decide (tok = trustRemoteCode) && decide (repoIdOf hfId ∈ TRUST_RC_MODELS))

def startsDashes (tok : List Char) : Bool := decide (['-', '-'] <+: tok)

/-- The loop of `validate_args`. -/
def scan (f : Flags) (hfId : List Char) : List (List Char) → Except (List Char) Unit
  | [] => .ok ()
  | tok :: rest =>
      if f.standsAlone hfId tok then scan f hfId rest
      else if tok ∈ f.values then
        match rest with
        | [] => .error ("flag ".toList ++ tok ++ " requires a value".toList)
        | v :: rest =>
            if startsDashes v then .error ("flag ".toList ++ tok ++ " requires a value".toList)
            else scan f hfId rest
      else .error ("flag not allowed: ".toList ++ tok)

/-- `validate_args`. -/
def validateArgs (extra engine hfId : List Char) : Except (List Char) (List (List Char)) :=
  (scan (flagsFor engine) hfId (splitWhitespace extra)).map fun _ => splitWhitespace extra

/-! ## The pseudo-flags -/

/-- What `start_process` makes of the tokens: what is left of them, the variables, and the
binary. -/
structure Stripped where
  tokens : List (List Char)
  modelEnv : List (List Char × List Char)
  binOverride : Option (List Char)
deriving DecidableEq, Repr

/-- `bin_flag_path`. -/
def binFlagPath (getenv : List Char → Option (List Char)) (flag : List Char) :
    Option (List Char) :=
  let home := ((getenv "HOME".toList).filter (· ≠ [])).getD "/var/lib/vllm-runner".toList
  (BIN_FLAG_PATHS.find? fun e => e.1 = flag).map fun e =>
    ((getenv e.2.1).filter (· ≠ [])).getD (home ++ '/' :: e.2.2)

def stripEnv (s : Stripped) (e : List Char × List Char × List Char) : Stripped :=
  if s.tokens.any fun t => decide (t = e.1) then
    { s with
      tokens := s.tokens.filter fun t => decide (t ≠ e.1)
      modelEnv := s.modelEnv ++ [(e.2.1, e.2.2)] }
  else s

def stripBin (getenv : List Char → Option (List Char)) (s : Stripped)
    (e : List Char × List Char × List Char) : Stripped :=
  if s.tokens.any fun t => decide (t = e.1) then
    { s with
      tokens := s.tokens.filter fun t => decide (t ≠ e.1)
      binOverride := binFlagPath getenv e.1 }
  else s

/-- The pseudo-flags of `start_process`. -/
def stripPseudo (getenv : List Char → Option (List Char)) (extra : List (List Char)) : Stripped :=
  BIN_FLAG_PATHS.foldl (stripBin getenv) (ENV_FLAG_VARS.foldl stripEnv ⟨extra, [], none⟩)

/-! ## The grammar -/

/-- A flag that stands alone, or a flag with its value. -/
inductive Item where
  | flag (f : List Char)
  | value (f v : List Char)
deriving DecidableEq, Repr

def Item.tokens : Item → List (List Char)
  | .flag f => [f]
  | .value f v => [f, v]

def Item.pair? : Item → Option (List Char × List Char)
  | .flag _ => none
  | .value f v => some (f, v)

/-- The items that an engine allows. -/
def Item.Allowed (f : Flags) (hfId : List Char) : Item → Prop
  | .flag t => f.standsAlone hfId t = true
  | .value t v => t ∈ f.values ∧ startsDashes v = false

/-- A reading of the tokens as allowed items. -/
structure Reading (f : Flags) (hfId : List Char) (tokens : List (List Char))
    (items : List Item) : Prop where
  allowed : ∀ i ∈ items, i.Allowed f hfId
  tokens : tokens = items.flatMap Item.tokens

/-! ## The scanner and the grammar -/

variable {f : Flags} {hfId : List Char}

/-- No flag with a value stands alone. -/
def Flags.Separate (f : Flags) (hfId : List Char) : Prop :=
  ∀ t ∈ f.values, f.standsAlone hfId t = false

theorem reading_nil : Reading f hfId [] [] where
  allowed _ h := nomatch h
  tokens := rfl

variable {tokens : List (List Char)} {items : List Item}

theorem Reading.flag {t : List Char} (h : Reading f hfId tokens items) (ht : f.standsAlone hfId t = true) :
    Reading f hfId (t :: tokens) (.flag t :: items) where
  allowed := List.forall_mem_cons.2 ⟨ht, h.allowed⟩
  tokens := by rw [h.tokens]; rfl

theorem Reading.value {t v : List Char}
    (h : Reading f hfId tokens items) (ht : t ∈ f.values) (hv : startsDashes v = false) :
    Reading f hfId (t :: v :: tokens) (.value t v :: items) where
  allowed := List.forall_mem_cons.2 ⟨⟨ht, hv⟩, h.allowed⟩
  tokens := by rw [h.tokens]; rfl

theorem Reading.tail {i : Item} (h : Reading f hfId tokens (i :: items)) :
    i.Allowed f hfId ∧ ∃ rest, tokens = i.tokens ++ rest ∧ Reading f hfId rest items := by
  obtain ⟨hi, hrest⟩ := List.forall_mem_cons.1 h.allowed
  exact ⟨hi, items.flatMap Item.tokens, by rw [h.tokens, List.flatMap_cons], hrest, rfl⟩

theorem reading_of_scan (h : scan f hfId tokens = .ok ()) : ∃ items, Reading f hfId tokens items := by
  fun_induction scan f hfId tokens with
  | case1 => exact ⟨[], reading_nil⟩
  | case2 tok rest halone ih =>
    obtain ⟨items, hitems⟩ := ih h
    exact ⟨_, hitems.flag halone⟩
  | case3 | case4 | case6 => cases h
  | case5 tok _ hvalue v rest hdashes ih =>
    obtain ⟨items, hitems⟩ := ih h
    exact ⟨_, hitems.value hvalue (Bool.not_eq_true _ ▸ hdashes)⟩

theorem scan_of_reading (hsep : f.Separate hfId)
    (h : Reading f hfId tokens items) : scan f hfId tokens = .ok () := by
  induction items generalizing tokens with
  | nil =>
    rw [h.tokens]
    rfl
  | cons i items ih =>
    obtain ⟨hi, rest, rfl, hrest⟩ := h.tail
    cases i with
    | flag t =>
      have hstep : scan f hfId (t :: rest) = scan f hfId rest := by
        rw [scan.eq_def]
        exact if_pos hi
      exact hstep.trans (ih hrest)
    | value t v =>
      have hstep : scan f hfId (t :: v :: rest) = scan f hfId rest := by
        simp [scan, hsep t hi.1, hi.1, hi.2]
      exact hstep.trans (ih hrest)

theorem reading_unique (hsep : f.Separate hfId) {items items' : List Item} (h : Reading f hfId tokens items)
    (h' : Reading f hfId tokens items') : items = items' := by
  induction items generalizing tokens items' with
  | nil =>
    cases items' with
    | nil => rfl
    | cons i' items' =>
      obtain ⟨-, rest, heq, -⟩ := h'.tail
      rw [h.tokens] at heq
      cases i' <;> cases heq
  | cons i items ih =>
    obtain ⟨hi, rest, rfl, hrest⟩ := h.tail
    cases items' with
    | nil =>
      have heq := h'.tokens
      cases i <;> cases heq
    | cons i' items' =>
      obtain ⟨hi', rest', heq, hrest'⟩ := h'.tail
      -- the first token says which of the two kinds the item is
      have hsame : i = i' ∧ rest = rest' := by
        cases i with
        | flag t =>
          cases i' with
          | flag t' =>
            obtain ⟨rfl, rfl⟩ := List.cons.inj heq
            exact ⟨rfl, rfl⟩
          | value t' v' =>
            obtain ⟨rfl, -⟩ := List.cons.inj heq
            exact absurd (hi.symm.trans (hsep t hi'.1)) (by decide)
        | value t v =>
          cases i' with
          | flag t' =>
            obtain ⟨rfl, -⟩ := List.cons.inj heq
            exact absurd (hi'.symm.trans (hsep t hi.1)) (by decide)
          | value t' v' =>
            obtain ⟨rfl, hrests⟩ := List.cons.inj heq
            obtain ⟨rfl, rfl⟩ := List.cons.inj hrests
            exact ⟨rfl, rfl⟩
      obtain ⟨rfl, rfl⟩ := hsame
      rw [ih hrest hrest']

/-! ## The tables of the engines -/

/-- The tables of an engine: no flag is in both, and none of those with a value is a
pseudo-flag or `--trust-remote-code`. -/
def pseudoFlags : List (List Char) :=
  ENV_FLAG_VARS.map (·.1) ++ BIN_FLAG_PATHS.map (·.1)

def Flags.tablesOk (f : Flags) : Bool :=
  f.values.all fun t => !(f.bools ++ trustRemoteCode :: pseudoFlags).contains t

theorem tablesOk_flagsFor (engine : List Char) : (flagsFor engine).tablesOk = true := by
  unfold flagsFor
  split_ifs <;> decide +kernel

theorem separate_flagsFor (engine hfId : List Char) : (flagsFor engine).Separate hfId := by
  intro t ht
  have hok := List.all_eq_true.1 (tablesOk_flagsFor engine) t ht
  simp only [Bool.not_eq_true', List.contains_eq_mem, decide_eq_false_iff_not, List.mem_append,
    List.mem_cons, not_or] at hok
  simp [Flags.standsAlone, hok.1, hok.2.1]

theorem not_pseudo_of_value {engine t : List Char} (ht : t ∈ (flagsFor engine).values) : t ∉ pseudoFlags := by
  have hok := List.all_eq_true.1 (tablesOk_flagsFor engine) t ht
  simp only [Bool.not_eq_true', List.contains_eq_mem, decide_eq_false_iff_not, List.mem_append,
    List.mem_cons, not_or] at hok
  exact hok.2.2

theorem not_pseudo_of_dashes {v : List Char} (hv : startsDashes v = false) : v ∉ pseudoFlags := by
  intro hmem
  have hall : pseudoFlags.all startsDashes = true := by decide
  rw [List.all_eq_true.1 hall v hmem] at hv
  cases hv

/-! ## Taking the pseudo-flags out -/

def keeps (t : List Char) : Bool := !pseudoFlags.contains t

theorem filter_of_not_any {p : List Char} (h : ¬ (tokens.any fun t => decide (t = p)) = true) :
    (tokens.filter fun t => decide (t ≠ p)) = tokens := by
  rw [List.filter_eq_self]
  intro t ht
  refine decide_eq_true fun heq => h ?_
  exact List.any_eq_true.2 ⟨t, ht, decide_eq_true heq⟩

theorem stripEnv_tokens (s : Stripped) (e : List Char × List Char × List Char) :
    (stripEnv s e).tokens = s.tokens.filter fun t => decide (t ≠ e.1) := by
  unfold stripEnv
  split
  · rfl
  · next h => exact (filter_of_not_any h).symm

theorem stripBin_tokens (getenv : List Char → Option (List Char)) (s : Stripped)
    (e : List Char × List Char × List Char) :
    (stripBin getenv s e).tokens = s.tokens.filter fun t => decide (t ≠ e.1) := by
  unfold stripBin
  split
  · rfl
  · next h => exact (filter_of_not_any h).symm

/-- A fold that takes one flag out after the other takes out all of them. -/
theorem foldl_tokens {step : Stripped → List Char × List Char × List Char → Stripped}
    (hstep : ∀ s e, (step s e).tokens = s.tokens.filter fun t => decide (t ≠ e.1))
    (entries : List (List Char × List Char × List Char)) (s : Stripped) :
    (entries.foldl step s).tokens
      = s.tokens.filter fun t => !(entries.map (·.1)).contains t := by
  induction entries generalizing s with
  | nil => simp
  | cons e entries ih =>
    rw [List.foldl_cons, ih, hstep, List.filter_filter]
    refine List.filter_congr fun t _ => ?_
    rw [Bool.eq_iff_iff]
    simp [and_comm]

theorem stripPseudo_tokens (getenv : List Char → Option (List Char))
    (extra : List (List Char)) : (stripPseudo getenv extra).tokens = extra.filter keeps := by
  rw [stripPseudo, foldl_tokens (stripBin_tokens getenv), foldl_tokens stripEnv_tokens,
    List.filter_filter]
  refine List.filter_congr fun t _ => ?_
  rw [keeps, pseudoFlags, Bool.eq_iff_iff]
  simp only [Bool.and_eq_true, Bool.not_eq_true', List.contains_eq_mem, decide_eq_false_iff_not,
    List.mem_append, not_or]
  exact and_comm

/-- An item that stays: every one but a pseudo-flag. -/
def Item.keeps : Item → Bool
  | .flag t => Args.keeps t
  | .value _ _ => true

theorem keeps_iff {t : List Char} : keeps t = true ↔ t ∉ pseudoFlags := by
  simp [keeps]

theorem Reading.strip {engine : List Char} (h : Reading (flagsFor engine) hfId tokens items) :
    Reading (flagsFor engine) hfId (tokens.filter Args.keeps) (items.filter Item.keeps) := by
  induction items generalizing tokens with
  | nil =>
    rw [h.tokens]
    exact reading_nil
  | cons i items ih =>
    obtain ⟨hi, rest, rfl, hrest⟩ := h.tail
    cases i with
    | flag t =>
      rw [Item.tokens, List.singleton_append]
      by_cases ht : Args.keeps t = true
      · rw [List.filter_cons_of_pos ht, List.filter_cons_of_pos (a := Item.flag t) ht]
        exact (ih hrest).flag hi
      · rw [List.filter_cons_of_neg ht, List.filter_cons_of_neg (a := Item.flag t) ht]
        exact ih hrest
    | value t v =>
      have ht : Args.keeps t = true := keeps_iff.2 (not_pseudo_of_value hi.1)
      have hv : Args.keeps v = true := keeps_iff.2 (not_pseudo_of_dashes hi.2)
      have htokens : ((Item.value t v).tokens ++ rest).filter Args.keeps
          = t :: v :: rest.filter Args.keeps := by
        rw [Item.tokens, List.cons_append, List.singleton_append, List.filter_cons_of_pos ht,
          List.filter_cons_of_pos hv]
      rw [htokens, List.filter_cons_of_pos (a := Item.value t v) rfl]
      exact (ih hrest).value hi.1 hi.2

theorem pairs_strip (items : List Item) :
    (items.filter Item.keeps).filterMap Item.pair? = items.filterMap Item.pair? := by
  induction items with
  | nil => rfl
  | cons i items ih =>
    cases i with
    | flag t =>
      rw [List.filter_cons]
      split
      · rw [List.filterMap_cons, List.filterMap_cons, ih]
      · rw [List.filterMap_cons, ih]
        rfl
    | value t v =>
      rw [List.filter_cons_of_pos (a := Item.value t v) rfl, List.filterMap_cons,
        List.filterMap_cons, ih]

/-! ## Tokens and texts -/

/-- A token as the split makes it. -/
def IsToken (t : List Char) : Prop := t ≠ [] ∧ ∀ c ∈ t, isWhitespace c = false

theorem isToken_of_mem {t tok : List Char} (h : tok ∈ splitWhitespace t) : IsToken tok := by
  obtain ⟨hmem, hne⟩ := List.mem_filter.1 h
  exact ⟨of_decide_eq_true hne, fun c hc => (of_mem_splitOnP hmem c hc).2⟩

/-- Tokens with blanks between them are split into what they were. -/
theorem splitWhitespace_join (h : ∀ t ∈ tokens, IsToken t) :
    splitWhitespace ([' '].intercalate tokens) = tokens := by
  unfold splitWhitespace
  induction tokens with
  | nil => rfl
  | cons t tokens ih =>
    obtain ⟨⟨hne, hblank⟩, htokens⟩ := List.forall_mem_cons.1 h
    cases tokens with
    | nil =>
      rw [List.intercalate_singleton, List.splitOnP_eq_singleton hblank]
      simp [hne]
    | cons t' tokens =>
      have hspace : isWhitespace ' ' = true := by decide
      rw [List.intercalate_cons_cons, List.append_assoc, List.singleton_append,
        List.splitOnP_append_cons_of_forall_mem hblank ' ' hspace,
        List.filter_cons_of_pos (by simpa using hne), ih htokens]

/-! ## What is accepted -/

theorem validateArgs_eq_ok {extra engine : List Char} : validateArgs extra engine hfId = .ok tokens ↔
      tokens = splitWhitespace extra ∧ ∃ items, Reading (flagsFor engine) hfId tokens items := by
  unfold validateArgs
  constructor
  · intro h
    cases hs : scan (flagsFor engine) hfId (splitWhitespace extra) with
    | error e =>
      rw [hs] at h
      cases h
    | ok u =>
      rw [hs] at h
      cases h
      exact ⟨rfl, reading_of_scan hs⟩
  · rintro ⟨rfl, items, hitems⟩
    rw [scan_of_reading (separate_flagsFor engine hfId) hitems]
    rfl

/-- The scanner accepts exactly the texts that the grammar reads, and what is left of them
without the pseudo-flags is accepted again, every value behind the flag it was behind. -/
theorem validate_args_exact (extra engine hfId : List Char) (getenv : List Char → Option (List Char)) :
    (∀ tokens, validateArgs extra engine hfId = .ok tokens ↔
      tokens = splitWhitespace extra ∧ ∃ items, Reading (flagsFor engine) hfId tokens items) ∧
    ∀ tokens items, validateArgs extra engine hfId = .ok tokens →
      Reading (flagsFor engine) hfId tokens items →
        validateArgs ([' '].intercalate (stripPseudo getenv tokens).tokens) engine hfId
          = .ok (stripPseudo getenv tokens).tokens ∧
        ∀ left, Reading (flagsFor engine) hfId (stripPseudo getenv tokens).tokens left →
          left.filterMap Item.pair? = items.filterMap Item.pair? := by
  refine ⟨fun _ => validateArgs_eq_ok, fun tokens items hok hitems => ?_⟩
  rw [stripPseudo_tokens]
  have hleft := hitems.strip
  have htokens : ∀ t ∈ tokens.filter keeps, IsToken t := by
    intro t ht
    have hmem := (List.mem_filter.1 ht).1
    rw [(validateArgs_eq_ok.1 hok).1] at hmem
    exact isToken_of_mem hmem
  constructor
  · exact validateArgs_eq_ok.2 ⟨(splitWhitespace_join htokens).symm, _, hleft⟩
  · intro left hread
    rw [reading_unique (separate_flagsFor engine hfId) hread hleft, pairs_strip]

/-- A pseudo-flag, then a flag with its value. -/
def marlinTokens : List (List Char) :=
  ["--force-fp8-marlin".toList, "--dtype".toList, "half".toList]

theorem validate_args_marlin :
    validateArgs "--force-fp8-marlin  --dtype half".toList "vllm".toList [] = .ok marlinTokens ∧
      validateArgs ([' '].intercalate (stripPseudo (fun _ => none) marlinTokens).tokens)
        "vllm".toList [] = .ok (stripPseudo (fun _ => none) marlinTokens).tokens := by
  have hexact := validate_args_exact "--force-fp8-marlin  --dtype half".toList "vllm".toList []
    fun _ => none
  have hread : Reading (flagsFor "vllm".toList) [] marlinTokens
      [.flag "--force-fp8-marlin".toList, .value "--dtype".toList "half".toList] := by
    refine Reading.flag (Reading.value reading_nil ?_ ?_) ?_ <;> decide +kernel
  have hok := (hexact.1 marlinTokens).2 ⟨by decide +kernel, _, hread⟩
  exact ⟨hok, (hexact.2 marlinTokens _ hok hread).1⟩

end Runner.Args
