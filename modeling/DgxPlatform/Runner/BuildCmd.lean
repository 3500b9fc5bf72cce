import DgxPlatform.Runner.LaunchRequest

/-! # The command of an engine

`build_cmd` puts the argument list of an engine together. Three resolvers walk the flat
list of tokens, one token at a time, and look at what stands behind a flag that names a
file: the template, the projector, the model of exllamav3. Each is `resolveTokens` with
its own flags and its own check.

* `llamacpp_command`, `exllamav3_command`: the command is the engine's prefix and the
  tokens, with the values of these flags checked.
-/

namespace Runner.Build

open Args Launching

/-! ## The disk -/

/-- What a directory holds, as `walk` sees it: directories, links (whether they lead to a
directory) and files, the last two with the length of what they lead to, if anything. -/
inductive Entry where
  | dir (entries : List (List Char × Entry))
  | link (toDir : Bool) (len : Option Nat)
  | file (len : Option Nat)

/-- What `std::fs` answers on a disk in the state `σ`. The entries of a directory are in
the order of their names, and there are none where it cannot be read. -/
structure Disk (σ : Type) where
  isDir : σ → List Char → Bool
  isFile : σ → List Char → Bool
  canonicalize : σ → List Char → Option (List Char)
  readDir : σ → List Char → List (List Char × Entry)
  removeDirAll : σ → List Char → σ
  createDirAll : σ → List Char → Except (List Char) σ
  symlink : σ → (target link : List Char) → Except (List Char) σ

/-- The configurable locations. -/
structure Paths where
  vllmBin : List Char
  llamaBin : List Char
  ds4Bin : List Char
  hfHome : List Char
  modelsDir : List Char
  templatesDir : List Char
  tabbyDir : List Char
  exl3Py : List Char
  exl3RunDir : List Char

inductive BuildError where
  | value (m : List Char)
  | notFound (m : List Char)
deriving DecidableEq, Repr

/-- `format!("{dir}/{name}")`. -/
def join (dir name : List Char) : List Char := dir ++ '/' :: name

/-- `safe_name`. -/
def safeName (t : List Char) : List Char := t.filter Download.repoChar

/-- `strip_prefix("local:")`. -/
def localRest (hfId : List Char) : Option (List Char) := stripPrefix "local:".toList hfId

section

variable {σ : Type} (p : Paths) (d : Disk σ) (s : σ)

/-- The components of a path. -/
def comps (path : List Char) : List (List Char) := (path.splitOn '/').filter (· ≠ [])

/-- The path leads strictly below the models' directory. -/
def inside (path : List Char) : Bool :=
  match d.canonicalize s path, d.canonicalize s p.modelsDir with
  | some real, some root => decide (comps root <+: comps real) && decide (real ≠ root)
  | _, _ => false

/-- The directory of a local model, or the refusal. -/
def localDir (rest : List Char) : Except BuildError (List Char) :=
  let slug := safeName rest
  let dir := join p.modelsDir slug
  if slug = [] ∨ slug = ['.'] ∨ slug = ['.', '.'] ∨ ¬ inside p d s dir ∨ ¬ d.isDir s dir then
    .error (.notFound ("local model \"".toList ++ slug ++ "\" not found in ".toList ++ p.modelsDir))
  else .ok dir

/-! ## The weights -/

/-- A candidate: length, name, path. -/
abbrev Candidate := Nat × List Char × List Char

/-- The name of a file of weights. -/
def isWeights (name : List Char) : Bool :=
  ".gguf".toList.isSuffixOf name && !Text.contains name "mmproj".toList &&
    !Text.contains name "imatrix".toList

mutual

/-- `walk`. -/
def walk (pre : List Char) : List (List Char × Entry) → List Candidate
  | [] => []
  | (name, e) :: entries => walkEntry name (join pre name) e ++ walk pre entries

/-- One entry: real directories are entered, a link to a directory is not. -/
def walkEntry (name path : List Char) : Entry → List Candidate
  | .dir entries => walk path entries
  | .link toDir len =>
      if toDir ∨ ¬ isWeights name then [] else (len.map fun n => (n, name, path)).toList
  | .file len => if isWeights name then (len.map fun n => (n, name, path)).toList else []

end

/-- The order of `(u64, String, String)`. -/
def before (a b : Candidate) : Bool :=
  decide (a.1 < b.1) ||
    (decide (a.1 = b.1) && (decide (a.2.1 < b.2.1) || (decide (a.2.1 = b.2.1) && decide (a.2.2 < b.2.2))))

/-- `shards.sort()` and the first. -/
def firstShard : List (List Char) → Option (List Char)
  | [] => none
  | a :: paths => some (paths.foldl (fun m b => if b < m then b else m) a)

/-- `candidates.iter().max()`. -/
def largest : List Candidate → Option Candidate
  | [] => none
  | a :: cs => some (cs.foldl (fun m b => if before b m then m else b) a)

/-- `resolve_gguf`: the weights file of a model. -/
def resolveGguf (hfId : List Char) : Except BuildError (List Char) := do
  let snaps ←
    match localRest hfId with
    | some rest => localDir p d s rest
    | none =>
        let snaps := p.hfHome ++ "/hub/models--".toList ++
          hfId.flatMap (fun c => if c = '/' then ['-', '-'] else [c]) ++ "/snapshots".toList
        if d.isDir s snaps then .ok snaps
        else .error (.notFound ("model ".toList ++ hfId ++ " not in HF cache — download it first".toList))
  let candidates := walk snaps (d.readDir s snaps)
  if candidates = [] then .error (.notFound ("no .gguf found for ".toList ++ hfId))
  else
    let shards := (candidates.filter fun c => Text.contains c.2.1 "-00001-of-".toList).map (·.2.2)
    match firstShard shards with
    | some first => .ok first
    | none => .ok (((largest candidates).map (·.2.2)).getD [])

/-! ## The resolvers -/

/-- The loop of a resolver, at the token `t`: `t` may be what the step before put in its
place, and the token behind a flag is resolved in place. -/
def resolveFrom (isFlag : List Char → Bool) (resolve : List Char → List Char → Except BuildError (List Char))
    (t : List Char) : List (List Char) → Except BuildError (List (List Char))
  | [] => .ok [t]
  | raw :: rest => do
      let value ← if isFlag t then resolve t raw else .ok raw
      let out ← resolveFrom isFlag resolve value rest
      .ok (t :: out)

def resolveTokens (isFlag : List Char → Bool) (resolve : List Char → List Char → Except BuildError (List Char)) :
    List (List Char) → Except BuildError (List (List Char))
  | [] => .ok []
  | t :: rest => resolveFrom isFlag resolve t rest

/-- `raw.contains('/') || raw.contains('\\') || raw.contains("..")`. -/
def leaves (raw : List Char) : Bool :=
  raw.contains '/' || raw.contains '\\' || Text.contains raw "..".toList

def CHAT_TEMPLATE_FILE : List Char := "--chat-template-file".toList

def MMPROJ : List Char := "--mmproj".toList

def MODEL_NAME : List Char := "--model-name".toList

def DRAFT_MODEL_NAME : List Char := "--draft-model-name".toList

def resolveTemplate (_flag raw : List Char) : Except BuildError (List Char) :=
  if leaves raw then .error (.value "invalid template name".toList)
  else if d.isFile s (join p.templatesDir raw) then .ok (join p.templatesDir raw)
  else .error (.notFound ("template \"".toList ++ raw ++ "\" not found in ".toList ++ p.templatesDir))

/-- `resolve_template_tokens`. -/
def resolveTemplateTokens (tokens : List (List Char)) : Except BuildError (List (List Char)) :=
  resolveTokens (· = CHAT_TEMPLATE_FILE) (resolveTemplate p d s) tokens

/-- `weights.rsplit_once('/')`, the part in front. -/
def dirOf (path : List Char) : List Char := ((Text.rsplitOnce '/' path).map (·.1)).getD []

def resolveMmproj (hfId _flag raw : List Char) : Except BuildError (List Char) :=
  if leaves raw then .error (.value "invalid mmproj name".toList)
  else if (localRest hfId).isNone then .error (.value "--mmproj requires a local: model".toList)
  else do
    let weights ← resolveGguf p d s hfId
    let path := join (dirOf weights) raw
    if d.isFile s path then .ok path
    else .error (.notFound ("mmproj \"".toList ++ raw ++ "\" not found next to the weights".toList))

/-- `resolve_mmproj_tokens`. -/
def resolveMmprojTokens (tokens : List (List Char)) (hfId : List Char) :
    Except BuildError (List (List Char)) :=
  resolveTokens (· = MMPROJ) (resolveMmproj p d s hfId) tokens

/-- The flags that name a model. -/
def namesModel (t : List Char) : Bool := t = MODEL_NAME || t = DRAFT_MODEL_NAME

def resolveModelName (base flag raw : List Char) : Except BuildError (List Char) :=
  if raw = [] ∨ leaves raw then .error (.value ("invalid name for ".toList ++ flag))
  else if d.isDir s (join base raw) then .ok raw
  else .error (.notFound (flag ++ " \"".toList ++ raw ++ "\" not found in ".toList ++ base))

/-- `resolve_exl3_tokens`. -/
def resolveExl3Tokens (tokens : List (List Char)) (hfId : List Char) :
    Except BuildError (List Char × List (List Char)) :=
  match localRest hfId with
  | none => .error (.value "exllamav3 requires a local: model".toList)
  | some rest => do
      let base ← localDir p d s rest
      let out ← resolveTokens namesModel (resolveModelName d s base) tokens
      if MODEL_NAME ∈ out then .ok (base, out)
      else .error (.value "exllamav3: --model-name is required".toList)

/-! ## The served layout of exllamav3 -/

/-- The refusal of an operation of the disk. -/
def onDisk {τ : Type} (r : Except (List Char) τ) : Except BuildError τ := r.mapError .value

/-- `exl3_served_layout`: the directories, the tokens and the disk. -/
def exl3ServedLayout (base name : List Char) (toks : List (List Char)) :
    Except BuildError ((List Char × List Char × List (List Char)) × σ) := do
  let served := safeName name
  if served = [] ∨ served = ['.'] ∨ served = ['.', '.'] then
    .error (.value "invalid served model name".toList)
  else
    let mdir := p.exl3RunDir ++ "/model".toList
    let ddir := p.exl3RunDir ++ "/draft".toList
    let s₁ ← onDisk (d.createDirAll (d.removeDirAll s mdir) mdir)
    let s₂ ← onDisk (d.createDirAll (d.removeDirAll s₁ ddir) ddir)
    match toks.findIdx? (· = MODEL_NAME) with
    | none => .error (.value "list.index(x): x not in list".toList)
    | some i =>
        match toks[i + 1]? with
        | none => .error (.value "list index out of range".toList)
        | some model =>
            let s₃ ← onDisk (d.symlink s₂ (join base model) (join mdir served))
            let out := toks.set (i + 1) served
            match out.findIdx? (· = DRAFT_MODEL_NAME) with
            | none => .ok ((mdir, ddir, out), s₃)
            | some j =>
                match out[j + 1]? with
                | none => .error (.value "list index out of range".toList)
                | some draft =>
                    let s₄ ← onDisk (d.symlink s₃ (join base draft) (join ddir draft))
                    .ok ((mdir, ddir, out), s₄)

/-! ## The command -/

/-- Where llama.cpp finds the model: its weights, or the repository to fetch. -/
def llamaSource (hfId : List Char) : Except BuildError (List (List Char)) :=
  if (localRest hfId).isSome then (resolveGguf p d s hfId).map fun w => ["-m".toList, w]
  else .ok ["-hf".toList, hfId]

/-- `build_cmd`: the argument list of an engine, and the disk. -/
def buildCmd (getenv : List Char → Option (List Char)) (r : BuildArgs) :
    Except BuildError (List (List Char) × σ) :=
  let var := fun (k : String) => (getenv k.toList).filter (· ≠ [])
  if r.engine = "exllamav3".toList then do
    let (base, toks) ← resolveExl3Tokens p d s r.extra r.hfId
    let ((mdir, ddir, toks), s') ← exl3ServedLayout p d s base r.name toks
    .ok ([p.exl3Py, join p.tabbyDir "main.py".toList] ++
      ["--host", "0.0.0.0", "--port", "8000", "--disable-auth", "true", "--disable-fetch-requests", "true",
        "--allowed-origins", "https://no-browser.invalid", "--model-dir"].map String.toList ++ [mdir] ++
      (if DRAFT_MODEL_NAME ∈ toks then ["--draft-model-dir".toList, ddir] else []) ++ toks, s')
  else if r.engine = "ds4".toList then do
    let weights ← resolveGguf p d s r.hfId
    let cuda := if "--cpu".toList ∈ r.extra ∨ "--cuda".toList ∈ r.extra then [] else ["--cuda".toList]
    .ok ([p.ds4Bin] ++ cuda ++ ["-m".toList, weights] ++
      ["--host", "0.0.0.0", "--port", "8000"].map String.toList ++ r.extra, s)
  else if r.engine = "vllm-docker".toList then
    let img := (var "VLLM_DOCKER_IMAGE").getD
      "vllm/vllm-openai:nightly-3f1bcfd82bb2e93fcd364fc7a5491718453a77e2".toList
    let cache := (getenv "HOME".toList).getD "/var/lib/vllm-runner".toList ++ "/.cache/huggingface".toList
    let bind := (var "VLLM_DOCKER_PUBLISH").getD "127.0.0.1".toList
    .ok (["docker", "run", "--rm", "--gpus", "all", "--ipc=host", "-p"].map String.toList ++
      [bind ++ ":8000:8000".toList] ++
      ["-e", "HF_TOKEN", "-e", "FLASHINFER_DISABLE_VERSION_CHECK=1", "-v"].map String.toList ++
      [cache ++ ":/root/.cache/huggingface".toList] ++ ["--entrypoint", "vllm"].map String.toList ++
      [img, "serve".toList, r.hfId] ++
      ["--host", "0.0.0.0", "--port", "8000", "--served-model-name"].map String.toList ++ [r.name] ++ r.extra, s)
  else if r.engine = "llamacpp".toList then do
    let src ← llamaSource p d s r.hfId
    let toks ← resolveTemplateTokens p d s r.extra
    let toks ← resolveMmprojTokens p d s toks r.hfId
    .ok ([r.binOverride.getD p.llamaBin] ++ src ++
      ["--host", "0.0.0.0", "--port", "8000", "--alias"].map String.toList ++
      [r.name, "--metrics".toList] ++ toks, s)
  else
    .ok ([r.binOverride.getD p.vllmBin, "serve".toList, r.hfId] ++
      ["--port", "8000", "--host", "0.0.0.0", "--served-model-name"].map String.toList ++ [r.name] ++ r.extra, s)

end

/-! ## One walk -/

section Walks

variable {isFlag isFlag' : List Char → Bool}
  {resolve : List Char → List Char → Except BuildError (List Char)}
  {t g w : List Char} {rest out : List (List Char)} {items items' : List Item}

theorem resolveTokens_plain (ht : isFlag t = false) :
    resolveTokens isFlag resolve (t :: rest) = (resolveTokens isFlag resolve rest).map (t :: ·) := by
  cases rest with
  | nil => rfl
  | cons raw rest =>
    rw [resolveTokens, resolveFrom, ht]
    rfl

theorem resolveTokens_flag (hg : isFlag g = true) :
    resolveTokens isFlag resolve (g :: w :: rest) =
      (resolve g w).bind fun w' => (resolveTokens isFlag resolve (w' :: rest)).map (g :: ·) := by
  rw [resolveTokens, resolveFrom, hg]
  rfl

/-- What becomes of an item. -/
inductive Resolved (isFlag : List Char → Bool)
    (resolve : List Char → List Char → Except BuildError (List Char)) : Item → Item → Prop where
  | flag (f : List Char) : Resolved isFlag resolve (.flag f) (.flag f)
  | value (f v v' : List Char) : isFlag f = true → resolve f v = .ok v' →
      Resolved isFlag resolve (.value f v) (.value f v')
  | other (f v : List Char) : isFlag f = false → Resolved isFlag resolve (.value f v) (.value f v)

/-- The resolver's flags have values, which are none of its flags. -/
def Plain (isFlag : List Char → Bool) : Item → Prop
  | .flag f => isFlag f = false
  | .value _ v => isFlag v = false

theorem map_eq_ok {α β : Type} {r : Except BuildError α} {g : α → β} {b : β} (h : r.map g = .ok b) :
    ∃ a, r = .ok a ∧ g a = b := by
  cases r with
  | error e => cases h
  | ok a => exact ⟨a, rfl, Except.ok.inj h⟩

theorem bind_eq_ok {α β : Type} {r : Except BuildError α} {g : α → Except BuildError β} {b : β}
    (h : r.bind g = .ok b) : ∃ a, r = .ok a ∧ g a = .ok b := by
  cases r with
  | error e => cases h
  | ok a => exact ⟨a, rfl, h⟩

/-- On tokens that can be read as items, the walk resolves the values of its flags and
nothing else. -/
theorem resolveTokens_items (hplain : ∀ i ∈ items, Plain isFlag i)
    (hres : ∀ f v v', resolve f v = .ok v' → isFlag v = false → isFlag v' = false)
    (h : resolveTokens isFlag resolve (items.flatMap Item.tokens) = .ok out) :
    ∃ items', List.Forall₂ (Resolved isFlag resolve) items items' ∧ out = items'.flatMap Item.tokens := by
  induction items generalizing out with
  | nil => exact ⟨[], .nil, (Except.ok.inj h).symm⟩
  | cons i items ih =>
    obtain ⟨hi, hitems⟩ := List.forall_mem_cons.1 hplain
    rw [List.flatMap_cons] at h
    cases i with
    | flag f =>
      rw [Item.tokens, List.singleton_append, resolveTokens_plain hi] at h
      obtain ⟨out', hout, rfl⟩ := map_eq_ok h
      obtain ⟨items', hall, rfl⟩ := ih hitems hout
      exact ⟨.flag f :: items', .cons (.flag f) hall, rfl⟩
    | value f v =>
      rw [Item.tokens, List.cons_append, List.singleton_append] at h
      cases hf : isFlag f with
      | true =>
        rw [resolveTokens_flag hf] at h
        obtain ⟨v', hv, hmap⟩ := bind_eq_ok h
        rw [resolveTokens_plain (hres f v v' hv hi)] at hmap
        obtain ⟨out₁, hout₁, rfl⟩ := map_eq_ok hmap
        obtain ⟨out₂, hout₂, rfl⟩ := map_eq_ok hout₁
        obtain ⟨items', hall, rfl⟩ := ih hitems hout₂
        exact ⟨.value f v' :: items', .cons (.value f v v' hf hv) hall, rfl⟩
      | false =>
        rw [resolveTokens_plain hf, resolveTokens_plain hi] at h
        obtain ⟨out₁, hout₁, rfl⟩ := map_eq_ok h
        obtain ⟨out₂, hout₂, rfl⟩ := map_eq_ok hout₁
        obtain ⟨items', hall, rfl⟩ := ih hitems hout₂
        exact ⟨.value f v :: items', .cons (.other f v hf) hall, rfl⟩

/-- The flags of a resolver are flags of the engine that take a value. -/
def TakesValue (flags : Flags) (isFlag : List Char → Bool) : Prop :=
  ∀ t, isFlag t = true → t ∈ flags.values ∧ startsDashes t = true

theorem plain_of_reading {engine hfId : List Char} {tokens : List (List Char)}
    (htakes : TakesValue (flagsFor engine) isFlag) (h : Reading (flagsFor engine) hfId tokens items) :
    ∀ i ∈ items, Plain isFlag i := by
  intro i hi
  have hallowed := h.allowed i hi
  cases i with
  | flag f =>
    refine Bool.eq_false_iff.2 fun hf => ?_
    have halone : (flagsFor engine).standsAlone hfId f = true := hallowed
    rw [separate_flagsFor engine hfId f (htakes f hf).1] at halone
    cases halone
  | value f v =>
    refine Bool.eq_false_iff.2 fun hv => ?_
    have hdashes : startsDashes v = false := hallowed.2
    rw [(htakes v hv).2] at hdashes
    cases hdashes

theorem plain_of_resolved (hplain : ∀ i ∈ items, Plain isFlag' i)
    (hres : ∀ f v v', resolve f v = .ok v' → isFlag' v' = false)
    (h : List.Forall₂ (Resolved isFlag resolve) items items') : ∀ i ∈ items', Plain isFlag' i := by
  induction h with
  | nil => exact hplain
  | cons hstep _ ih =>
    obtain ⟨hi, hitems⟩ := List.forall_mem_cons.1 hplain
    refine List.forall_mem_cons.2 ⟨?_, ih hitems⟩
    cases hstep with
    | flag f => exact hi
    | value f v v' _ hv => exact hres f v v' hv
    | other f v _ => exact hi

end Walks

/-! ## llama.cpp -/

section Llama

variable {σ : Type} {p : Paths} {d : Disk σ} {s : σ} {items : List Item}

/-- One component of a path, with none of the ways out of a directory. -/
def Component (raw : List Char) : Prop := '/' ∉ raw ∧ '\\' ∉ raw ∧ ¬ "..".toList <:+: raw

theorem component_iff {raw : List Char} : leaves raw = false ↔ Component raw := by
  simp [leaves, Component, Text.contains, and_assoc]

/-- What becomes of an item of llama.cpp: a template is a file of the templates' directory, a
projector a file next to the weights, and nothing else is touched. -/
inductive LlamaItem (p : Paths) (d : Disk σ) (s : σ) (hfId : List Char) : Item → Item → Prop where
  | flag (f : List Char) : LlamaItem p d s hfId (.flag f) (.flag f)
  | template (v : List Char) : Component v → d.isFile s (join p.templatesDir v) = true →
      LlamaItem p d s hfId (.value CHAT_TEMPLATE_FILE v) (.value CHAT_TEMPLATE_FILE (join p.templatesDir v))
  | mmproj (v weights : List Char) : Component v → resolveGguf p d s hfId = .ok weights →
      d.isFile s (join (dirOf weights) v) = true →
      LlamaItem p d s hfId (.value MMPROJ v) (.value MMPROJ (join (dirOf weights) v))
  | other (f v : List Char) : f ≠ CHAT_TEMPLATE_FILE → f ≠ MMPROJ →
      LlamaItem p d s hfId (.value f v) (.value f v)

theorem resolveTemplate_ok {f v v' : List Char} (h : resolveTemplate p d s f v = .ok v') :
    v' = join p.templatesDir v ∧ Component v ∧ d.isFile s (join p.templatesDir v) = true := by
  unfold resolveTemplate at h
  split_ifs at h with hleaves hfile
  exact ⟨(Except.ok.inj h).symm, component_iff.1 (Bool.eq_false_iff.2 hleaves), hfile⟩

theorem resolveMmproj_ok {hfId f v v' : List Char} (h : resolveMmproj p d s hfId f v = .ok v') :
    Component v ∧ ∃ weights, resolveGguf p d s hfId = .ok weights ∧ v' = join (dirOf weights) v ∧
      d.isFile s (join (dirOf weights) v) = true := by
  unfold resolveMmproj at h
  split_ifs at h with hleaves hlocal
  obtain ⟨weights, hweights, hrest⟩ := bind_eq_ok h
  dsimp only at hrest
  split_ifs at hrest with hfile
  exact ⟨component_iff.1 (Bool.eq_false_iff.2 hleaves), weights, hweights, (Except.ok.inj hrest).symm, hfile⟩

theorem join_ne {dir raw flag : List Char} (h : '/' ∉ flag) : join dir raw ≠ flag := by
  rintro rfl
  exact h (List.mem_append_right dir List.mem_cons_self)

theorem llamaItem_of_resolved {hfId : List Char} {i i₁ i₂ : Item}
    (h₁ : Resolved (· = CHAT_TEMPLATE_FILE) (resolveTemplate p d s) i i₁)
    (h₂ : Resolved (· = MMPROJ) (resolveMmproj p d s hfId) i₁ i₂) : LlamaItem p d s hfId i i₂ := by
  cases h₁ with
  | flag f =>
    cases h₂
    exact .flag f
  | value f v v' hf hv =>
    obtain rfl := of_decide_eq_true hf
    obtain ⟨rfl, hcomp, hfile⟩ := resolveTemplate_ok hv
    cases h₂ with
    | value _ _ _ hm => exact absurd hm (by decide +kernel)
    | other => exact .template v hcomp hfile
  | other f v hf =>
    have hne : f ≠ CHAT_TEMPLATE_FILE := of_decide_eq_false hf
    cases h₂ with
    | value _ _ v' hm hv =>
      obtain rfl := of_decide_eq_true hm
      obtain ⟨hcomp, weights, hweights, rfl, hfile⟩ := resolveMmproj_ok hv
      exact .mmproj v weights hcomp hweights hfile
    | other _ _ hm => exact .other f v hne (of_decide_eq_false hm)

theorem forall₂_trans {α : Type} {R S T : α → α → Prop} {as bs cs : List α} (h : List.Forall₂ R as bs)
    (h' : List.Forall₂ S bs cs) (hstep : ∀ a b c, R a b → S b c → T a c) : List.Forall₂ T as cs := by
  induction h generalizing cs with
  | nil =>
    cases h'
    exact .nil
  | cons hab _ ih =>
    cases h' with
    | cons hbc hrest => exact .cons (hstep _ _ _ hab hbc) (ih hrest)

theorem takesValue_llama {flag : List Char} (hflag : flag ∈ LLAMA_VALUE_FLAGS ∧ startsDashes flag = true) :
    TakesValue (flagsFor "llamacpp".toList) (· = flag) := by
  intro t ht
  obtain rfl := of_decide_eq_true ht
  rw [flagsFor, if_neg (by decide +kernel), if_pos rfl]
  exact hflag

theorem llama_tokens {hfId : List Char} {tokens toks out : List (List Char)}
    (hread : Reading (flagsFor "llamacpp".toList) hfId tokens items)
    (h₁ : resolveTemplateTokens p d s tokens = .ok toks)
    (h₂ : resolveMmprojTokens p d s toks hfId = .ok out) :
    ∃ items', List.Forall₂ (LlamaItem p d s hfId) items items' ∧ out = items'.flatMap Item.tokens := by
  have htemplate : ∀ f v v', resolveTemplate p d s f v = .ok v' →
      ∀ flag : List Char, '/' ∉ flag → decide (v' = flag) = false := by
    intro f v v' hv flag hflag
    rw [(resolveTemplate_ok hv).1]
    exact decide_eq_false (join_ne hflag)
  have hmmproj : ∀ f v v', resolveMmproj p d s hfId f v = .ok v' → decide (v' = MMPROJ) = false := by
    intro f v v' hv
    obtain ⟨-, weights, -, rfl, -⟩ := resolveMmproj_ok hv
    exact decide_eq_false (join_ne (by decide +kernel))
  have htakes : TakesValue (flagsFor "llamacpp".toList) (· = MMPROJ) := takesValue_llama (by decide +kernel)
  have htakes' : TakesValue (flagsFor "llamacpp".toList) (· = CHAT_TEMPLATE_FILE) :=
    takesValue_llama (by decide +kernel)
  have hplain := plain_of_reading htakes hread
  rw [hread.tokens] at h₁
  obtain ⟨items₁, hall₁, rfl⟩ := resolveTokens_items (plain_of_reading htakes' hread)
    (fun f v v' hv _ => htemplate f v v' hv CHAT_TEMPLATE_FILE (by decide +kernel)) h₁
  have hplain₁ := plain_of_resolved hplain
    (fun f v v' hv => htemplate f v v' hv MMPROJ (by decide +kernel)) hall₁
  obtain ⟨items₂, hall₂, rfl⟩ := resolveTokens_items hplain₁ (fun f v v' hv _ => hmmproj f v v' hv) h₂
  exact ⟨items₂, forall₂_trans hall₁ hall₂ fun _ _ _ => llamaItem_of_resolved, rfl⟩

/-- What stands in front of the tokens of llama.cpp. -/
def llamaPrefix (p : Paths) (r : BuildArgs) (src : List (List Char)) : List (List Char) :=
  [r.binOverride.getD p.llamaBin] ++ src ++
    ["--host", "0.0.0.0", "--port", "8000", "--alias"].map String.toList ++ [r.name, "--metrics".toList]

theorem llamacpp_command {getenv : List Char → Option (List Char)} {r : BuildArgs} {cmd : List (List Char)}
    {s' : σ} (hengine : r.engine = "llamacpp".toList)
    (hread : Reading (flagsFor r.engine) r.hfId r.extra items)
    (h : buildCmd p d s getenv r = .ok (cmd, s')) :
    ∃ src items', llamaSource p d s r.hfId = .ok src ∧
      List.Forall₂ (LlamaItem p d s r.hfId) items items' ∧
      cmd = llamaPrefix p r src ++ items'.flatMap Item.tokens := by
  rw [hengine] at hread
  unfold buildCmd at h
  dsimp only at h
  rw [if_neg (by rw [hengine]; decide +kernel), if_neg (by rw [hengine]; decide +kernel),
    if_neg (by rw [hengine]; decide +kernel), if_pos hengine] at h
  obtain ⟨src, hsrc, h⟩ := bind_eq_ok h
  obtain ⟨toks, htoks, h⟩ := bind_eq_ok h
  obtain ⟨out, hout, h⟩ := bind_eq_ok h
  obtain ⟨items', hall, rfl⟩ := llama_tokens hread htoks hout
  exact ⟨src, items', hsrc, hall, (Prod.mk.inj (Except.ok.inj h)).1.symm⟩

end Llama

/-! ## exllamav3 -/

section Exl3

variable {σ : Type} {p : Paths} {d : Disk σ} {s : σ} {items : List Item}

theorem resolveModelName_ok {base f v v' : List Char} (h : resolveModelName d s base f v = .ok v') :
    v' = v ∧ v ≠ [] ∧ Component v ∧ d.isDir s (join base v) = true := by
  unfold resolveModelName at h
  split_ifs at h with hbad hdir
  rw [not_or] at hbad
  exact ⟨(Except.ok.inj h).symm, hbad.1, component_iff.1 (Bool.eq_false_iff.2 hbad.2), hdir⟩

theorem takesValue_exl3 : TakesValue (flagsFor "exllamav3".toList) namesModel := by
  intro t ht
  rw [flagsFor, if_pos rfl]
  simp only [namesModel, Bool.or_eq_true, decide_eq_true_eq] at ht
  obtain rfl | rfl := ht
  · decide +kernel
  · decide +kernel

/-- A walk that puts nothing else in place leaves the tokens, and has checked them. -/
theorem exl3_tokens {base hfId : List Char} {tokens out : List (List Char)}
    (hread : Reading (flagsFor "exllamav3".toList) hfId tokens items)
    (h : resolveTokens namesModel (resolveModelName d s base) tokens = .ok out) :
    out = tokens ∧ ∀ f v, .value f v ∈ items → namesModel f = true →
      v ≠ [] ∧ Component v ∧ d.isDir s (join base v) = true := by
  have hplain := plain_of_reading takesValue_exl3 hread
  rw [hread.tokens] at h ⊢
  obtain ⟨items', hall, rfl⟩ := resolveTokens_items hplain
    (fun f v v' hv hplain => by rw [(resolveModelName_ok hv).1]; exact hplain) h
  clear h hread hplain
  induction hall with
  | nil => exact ⟨rfl, fun f v hmem => absurd hmem List.not_mem_nil⟩
  | @cons i i' items items' hstep _ ih =>
    rw [List.flatMap_cons, List.flatMap_cons, ih.1]
    cases hstep with
    | flag f =>
      refine ⟨rfl, fun g v hmem hg => ?_⟩
      obtain heq | hmem := List.mem_cons.1 hmem
      · cases heq
      · exact ih.2 g v hmem hg
    | value f v v' hf hv =>
      obtain ⟨rfl, hchecked⟩ := resolveModelName_ok hv
      refine ⟨rfl, fun g w hmem hg => ?_⟩
      obtain heq | hmem := List.mem_cons.1 hmem
      · cases heq
        exact hchecked
      · exact ih.2 g w hmem hg
    | other f v hf =>
      refine ⟨rfl, fun g w hmem hg => ?_⟩
      obtain heq | hmem := List.mem_cons.1 hmem
      · cases heq
        rw [hf] at hg
        cases hg
      · exact ih.2 g w hmem hg

theorem exists_first {flag : List Char} (hplain : ∀ i ∈ items, Plain (· = flag) i)
    (h : flag ∈ items.flatMap Item.tokens) :
    ∃ pre v post, items = pre ++ .value flag v :: post ∧ flag ∉ pre.flatMap Item.tokens := by
  induction items with
  | nil => cases h
  | cons i items ih =>
    obtain ⟨hi, hitems⟩ := List.forall_mem_cons.1 hplain
    rw [List.flatMap_cons, List.mem_append] at h
    by_cases hhere : ∃ v, i = .value flag v
    · obtain ⟨v, rfl⟩ := hhere
      exact ⟨[], v, items, rfl, List.not_mem_nil⟩
    · have hout : flag ∉ i.tokens := by
        cases i with
        | flag f =>
          have hne : f ≠ flag := of_decide_eq_false hi
          exact fun hmem => hne (List.mem_singleton.1 hmem).symm
        | value f v =>
          have hne : v ≠ flag := of_decide_eq_false hi
          intro hmem
          obtain rfl | hmem := List.mem_cons.1 hmem
          · exact hhere ⟨v, rfl⟩
          · exact hne (List.mem_singleton.1 hmem).symm
      obtain ⟨pre, v, post, rfl, hpre⟩ := ih hitems (h.resolve_left hout)
      refine ⟨i :: pre, v, post, rfl, ?_⟩
      rw [List.flatMap_cons, List.mem_append]
      exact not_or.2 ⟨hout, hpre⟩

theorem set_first {flag : List Char} {pre : List Item} (v w : List Char) (post : List Item)
    (hpre : flag ∉ pre.flatMap Item.tokens) :
    let toks := (pre ++ .value flag v :: post).flatMap Item.tokens
    ∃ i, toks.findIdx? (· = flag) = some i ∧ toks[i + 1]? = some v ∧
      toks.set (i + 1) w = (pre ++ .value flag w :: post).flatMap Item.tokens := by
  have hsplit : ∀ x, (pre ++ .value flag x :: post).flatMap Item.tokens =
      pre.flatMap Item.tokens ++ flag :: x :: post.flatMap Item.tokens := by
    intro x
    rw [List.flatMap_append, List.flatMap_cons]
    rfl
  have hnone : (pre.flatMap Item.tokens).findIdx? (· = flag) = none := by
    rw [List.findIdx?_eq_none_iff]
    intro t ht
    exact decide_eq_false fun heq => hpre (heq ▸ ht)
  refine ⟨(pre.flatMap Item.tokens).length, ?_, ?_, ?_⟩
  · rw [hsplit, List.findIdx?_append, hnone, List.findIdx?_cons, if_pos (by simp)]
    simp
  · rw [hsplit, List.getElem?_append_right (by omega)]
    simp
  · rw [hsplit, hsplit, List.set_append_right _ _ (by omega)]
    simp

/-- A name under which a model is served: characters of a file's name, and neither empty nor
a way out of a directory. -/
structure ServedName (name served : List Char) : Prop where
  eq : served = safeName name
  chars : ∀ c ∈ served, Download.repoChar c = true
  ne : served ≠ [] ∧ served ≠ ['.'] ∧ served ≠ ['.', '.']

theorem onDisk_ok {τ : Type} {r : Except (List Char) τ} {x : τ} (h : onDisk r = .ok x) : r = .ok x := by
  cases r with
  | error e => cases h
  | ok y => rw [Except.ok.inj h]

theorem servedLayout_ok {base name mdir ddir : List Char} {toks out : List (List Char)} {s' : σ}
    (h : exl3ServedLayout p d s base name toks = .ok ((mdir, ddir, out), s')) :
    ServedName name (safeName name) ∧ mdir = p.exl3RunDir ++ "/model".toList ∧
      ddir = p.exl3RunDir ++ "/draft".toList ∧
      ∃ i model, toks.findIdx? (· = MODEL_NAME) = some i ∧ toks[i + 1]? = some model ∧
        out = toks.set (i + 1) (safeName name) ∧
        ∃ s₁ s₂, d.symlink s₁ (join base model) (join mdir (safeName name)) = .ok s₂ := by
  unfold exl3ServedLayout at h
  dsimp only at h
  split_ifs at h with hserved
  rw [not_or, not_or] at hserved
  obtain ⟨s₁, -, h⟩ := bind_eq_ok h
  obtain ⟨s₂, -, h⟩ := bind_eq_ok h
  split at h
  · cases h
  · next i hi =>
      split at h
      · cases h
      · next model hmodel =>
          obtain ⟨s₃, hlink, h⟩ := bind_eq_ok h
          have hout : mdir = p.exl3RunDir ++ "/model".toList ∧ ddir = p.exl3RunDir ++ "/draft".toList ∧
              out = toks.set (i + 1) (safeName name) := by
            split at h
            · cases h
              exact ⟨rfl, rfl, rfl⟩
            · split at h
              · cases h
              · obtain ⟨s₄, -, h⟩ := bind_eq_ok h
                cases h
                exact ⟨rfl, rfl, rfl⟩
          obtain ⟨rfl, rfl, rfl⟩ := hout
          exact ⟨⟨rfl, fun c hc => (List.mem_filter.1 hc).2, hserved⟩, rfl, rfl, i, model, hi, hmodel, rfl, s₂, s₃,
            onDisk_ok hlink⟩

/-- What stands in front of the tokens of exllamav3. -/
def exl3Prefix (p : Paths) (toks : List (List Char)) : List (List Char) :=
  [p.exl3Py, join p.tabbyDir "main.py".toList] ++
    ["--host", "0.0.0.0", "--port", "8000", "--disable-auth", "true", "--disable-fetch-requests", "true",
      "--allowed-origins", "https://no-browser.invalid", "--model-dir"].map String.toList ++
    [p.exl3RunDir ++ "/model".toList] ++
    (if DRAFT_MODEL_NAME ∈ toks then ["--draft-model-dir".toList, p.exl3RunDir ++ "/draft".toList] else [])

/-- The command of exllamav3: every model named is a directory below the model's own, and the
first `--model-name` gets the served name, the name of a link to it. -/
structure Exl3Command (p : Paths) (d : Disk σ) (s : σ) (r : BuildArgs) (items : List Item)
    (cmd : List (List Char)) (rest v : List Char) (pre post : List Item) : Prop where
  id : localRest r.hfId = some rest
  own : d.isDir s (join p.modelsDir rest) = true ∧ inside p d s (join p.modelsDir rest) = true
  split : items = pre ++ .value MODEL_NAME v :: post
  first : MODEL_NAME ∉ pre.flatMap Item.tokens
  named : ∀ f v, .value f v ∈ items → namesModel f = true →
    v ≠ [] ∧ Component v ∧ d.isDir s (join (join p.modelsDir rest) v) = true
  served : ServedName r.name (safeName r.name)
  link : ∃ s₁ s₂, d.symlink s₁ (join (join p.modelsDir rest) v)
    (join (p.exl3RunDir ++ "/model".toList) (safeName r.name)) = .ok s₂
  command : cmd = exl3Prefix p ((pre ++ .value MODEL_NAME (safeName r.name) :: post).flatMap Item.tokens) ++
    (pre ++ .value MODEL_NAME (safeName r.name) :: post).flatMap Item.tokens

theorem localDir_ok {rest base : List Char} (h : localDir p d s rest = .ok base) :
    base = join p.modelsDir (safeName rest) ∧ d.isDir s base = true ∧ inside p d s base = true := by
  unfold localDir at h
  dsimp only at h
  split_ifs at h with hbad
  obtain rfl := Except.ok.inj h
  simp only [not_or, not_not] at hbad
  exact ⟨rfl, hbad.2.2.2.2, hbad.2.2.2.1⟩

theorem repoChar_of_nameShape {n : Nat} {t : List Char} (h : nameShape n t = true) :
    ∀ c ∈ t, Download.repoChar c = true := by
  cases t with
  | nil => cases h
  | cons c t =>
    simp only [nameShape, Bool.and_eq_true, List.all_eq_true] at h
    exact List.forall_mem_cons.2 ⟨by simp [Download.repoChar, h.1.1], h.1.2⟩

theorem safeName_rest {hfId rest : List Char} (hid : acceptsId hfId = true) (h : localRest hfId = some rest) :
    safeName rest = rest := by
  have hcolon : ':' ∈ hfId := by
    unfold localRest stripPrefix at h
    split_ifs at h with hpre
    exact (List.isPrefixOf_iff_prefix.1 hpre).subset (by decide +kernel)
  have hlist : (String.ofList hfId).toList = hfId := String.toList_ofList
  simp only [acceptsId, modelIdShapeOk, Bool.and_eq_true, Bool.or_eq_true] at hid
  obtain (hhf | hlocal) | habs := hid.1.2
  · -- an id of the hub has no colon
    unfold hfShape at hhf
    rw [hlist] at hhf
    split at hhf
    · next owner name hsplit =>
        rw [Bool.and_eq_true] at hhf
        rw [Text.splitOnce_eq_some hsplit, List.mem_append, List.mem_append] at hcolon
        obtain (hmem | hmem) | hmem := hcolon
        · exact absurd (repoChar_of_nameShape hhf.1 ':' hmem) (by decide)
        · exact absurd hmem (by decide)
        · exact absurd (repoChar_of_nameShape hhf.2 ':' hmem) (by decide)
    · cases hhf
  · obtain ⟨t, ht⟩ := Option.isSome_iff_exists.1 hlocal
    obtain ⟨hstrip, hshape⟩ := Option.filter_eq_some_iff.1 ht
    rw [hlist] at hstrip
    obtain rfl : t = rest := Option.some.inj (hstrip.symm.trans h)
    exact List.filter_eq_self.2 (repoChar_of_nameShape hshape)
  · -- nor does a local id begin with a slash
    unfold absShape at habs
    rw [hlist] at habs
    split at habs
    · cases h
    · cases habs

theorem exllamav3_command {getenv : List Char → Option (List Char)} {r : BuildArgs} {cmd : List (List Char)}
    {s' : σ} (hid : acceptsId r.hfId = true) (hengine : r.engine = "exllamav3".toList)
    (hread : Reading (flagsFor r.engine) r.hfId r.extra items)
    (h : buildCmd p d s getenv r = .ok (cmd, s')) :
    ∃ rest v pre post, Exl3Command p d s r items cmd rest v pre post := by
  rw [hengine] at hread
  unfold buildCmd at h
  dsimp only at h
  rw [if_pos hengine] at h
  obtain ⟨⟨base, toks⟩, htoks, h⟩ := bind_eq_ok h
  obtain ⟨⟨⟨mdir, ddir, out⟩, s''⟩, hlayout, h⟩ := bind_eq_ok h
  unfold resolveExl3Tokens at htoks
  split at htoks
  · cases htoks
  · next rest hrest =>
      obtain ⟨base', hbase, htoks⟩ := bind_eq_ok htoks
      obtain ⟨toks', hwalk, htoks⟩ := bind_eq_ok htoks
      split_ifs at htoks with hmem
      cases htoks
      obtain ⟨rfl, hnamed⟩ := exl3_tokens hread hwalk
      obtain ⟨rfl, hdir, hinside⟩ := localDir_ok hbase
      rw [safeName_rest hid hrest] at hdir hinside hnamed hlayout
      obtain ⟨hserved, rfl, rfl, i, model, hi, hmodel, rfl, hlink⟩ := servedLayout_ok hlayout
      have htakes : TakesValue (flagsFor "exllamav3".toList) (· = MODEL_NAME) := fun t ht =>
        takesValue_exl3 t (by simp [namesModel, of_decide_eq_true ht])
      have hplain := plain_of_reading htakes hread
      rw [hread.tokens] at hmem
      obtain ⟨pre, v, post, rfl, hpre⟩ := exists_first hplain hmem
      obtain ⟨j, hj, hv, hset⟩ := set_first v (safeName r.name) post hpre
      rw [← hread.tokens] at hj hv hset
      obtain rfl : i = j := Option.some.inj (hi.symm.trans hj)
      obtain rfl : model = v := Option.some.inj (hmodel.symm.trans hv)
      refine ⟨rest, model, pre, post, hrest, ⟨hdir, hinside⟩, rfl, hpre, hnamed, hserved, hlink, ?_⟩
      rw [← hset]
      exact (Prod.mk.inj (Except.ok.inj h)).1.symm

/-- Engine commands reach only controlled files: for every launch, every state of the disk and
every list of accepted tokens. -/
theorem command_controlled (p : Paths) (d : Disk σ) (s s' : σ)
    (getenv : List Char → Option (List Char)) (r : BuildArgs) (extra : List Char)
    (cmd : List (List Char)) (hid : acceptsId r.hfId = true)
    (hargs : validateArgs extra r.engine r.hfId = .ok r.extra)
    (hcmd : buildCmd p d s getenv r = .ok (cmd, s')) :
    ∃ items, Reading (flagsFor r.engine) r.hfId r.extra items ∧
      (r.engine = "llamacpp".toList →
        ∃ src items', llamaSource p d s r.hfId = .ok src ∧
          List.Forall₂ (LlamaItem p d s r.hfId) items items' ∧
          cmd = llamaPrefix p r src ++ items'.flatMap Item.tokens) ∧
      (r.engine = "exllamav3".toList →
        ∃ rest v pre post, Exl3Command p d s r items cmd rest v pre post) := by
  obtain ⟨-, items, hread⟩ := validateArgs_eq_ok.1 hargs
  refine ⟨items, hread, fun hengine => ?_, fun hengine => ?_⟩
  · exact llamacpp_command hengine hread hcmd
  · exact exllamav3_command hid hengine hread hcmd

end Exl3

/-! ## Two launches -/

/-- A disk with two local models, one as weights with a projector, the other with a folder for
each quantisation, and a template. -/
def shelf : Disk Unit where
  isDir _ path := path ∈ ["/m", "/m/g", "/m/e", "/m/e/4bpw"].map String.toList
  isFile _ path := path ∈ ["/m/g/w.gguf", "/m/g/p.gguf", "/t/chat.jinja"].map String.toList
  canonicalize _ path := some path
  readDir _ path :=
    if path = "/m/g".toList then [("p.gguf".toList, .file none), ("w.gguf".toList, .file (some 9))] else []
  removeDirAll _ _ := ()
  createDirAll _ _ := .ok ()
  symlink _ _ _ := .ok ()

def shelfPaths : Paths where
  vllmBin := "/bin/vllm".toList
  llamaBin := "/bin/llama".toList
  ds4Bin := "/bin/ds4".toList
  hfHome := "/hf".toList
  modelsDir := "/m".toList
  templatesDir := "/t".toList
  tabbyDir := "/tabby".toList
  exl3Py := "/bin/python".toList
  exl3RunDir := "/run".toList

def llamaLaunch : BuildArgs where
  hfId := "local:g".toList
  name := "g".toList
  extra := ["--chat-template-file", "chat.jinja", "--jinja", "--mmproj", "p.gguf"].map String.toList
  engine := "llamacpp".toList
  binOverride := none

def llamaCommand : List (List Char) :=
  ["/bin/llama", "-m", "/m/g/w.gguf", "--host", "0.0.0.0", "--port", "8000", "--alias", "g", "--metrics",
    "--chat-template-file", "/t/chat.jinja", "--jinja", "--mmproj", "/m/g/p.gguf"].map String.toList

theorem command_controlled_llama :
    ∃ items, Reading (flagsFor llamaLaunch.engine) llamaLaunch.hfId llamaLaunch.extra items ∧
      (llamaLaunch.engine = "llamacpp".toList →
        ∃ src items', llamaSource shelfPaths shelf () llamaLaunch.hfId = .ok src ∧
          List.Forall₂ (LlamaItem shelfPaths shelf () llamaLaunch.hfId) items items' ∧
          llamaCommand = llamaPrefix shelfPaths llamaLaunch src ++ items'.flatMap Item.tokens) ∧
      (llamaLaunch.engine = "exllamav3".toList →
        ∃ rest v pre post, Exl3Command shelfPaths shelf () llamaLaunch items llamaCommand rest v pre post) :=
  command_controlled shelfPaths shelf () () (fun _ => none) llamaLaunch
    "--chat-template-file chat.jinja --jinja --mmproj p.gguf".toList llamaCommand (by decide +kernel)
    (by decide +kernel) (by decide +kernel)

/-- Every model named in the tokens of a command is a directory below `base`. -/
def NamesDirs {σ : Type} (d : Disk σ) (s : σ) (base : List Char) (toks : List (List Char)) : Prop :=
  ∀ k f v, toks[k]? = some f → namesModel f = true → toks[k + 1]? = some v → d.isDir s (join base v) = true

def exl3Launch : BuildArgs where
  hfId := "local:e".toList
  name := "served".toList
  extra := ["--model-name", "4bpw"].map String.toList
  engine := "exllamav3".toList
  binOverride := none

def exl3Cmd : List (List Char) :=
  ["/bin/python", "/tabby/main.py", "--host", "0.0.0.0", "--port", "8000", "--disable-auth", "true",
    "--disable-fetch-requests", "true", "--allowed-origins", "https://no-browser.invalid", "--model-dir",
    "/run/model", "--model-name", "served"].map String.toList

/-- The command names the model by its served name, which is no directory of the model. -/
theorem served_name_replaces :
    buildCmd shelfPaths shelf () (fun _ => none) exl3Launch = .ok (exl3Cmd, ()) ∧
      shelf.isDir () "/m/e/served".toList = false ∧
      ¬ ∀ (σ : Type) (p : Paths) (d : Disk σ) (s s' : σ) (getenv : List Char → Option (List Char))
          (r : BuildArgs) (extra : List Char) (cmd : List (List Char)), acceptsId r.hfId = true →
        validateArgs extra r.engine r.hfId = .ok r.extra → r.engine = "exllamav3".toList →
        buildCmd p d s getenv r = .ok (cmd, s') →
        ∃ rest pre toks, localRest r.hfId = some rest ∧ cmd = pre ++ toks ∧
          toks.length = r.extra.length ∧ NamesDirs d s (join p.modelsDir rest) toks := by
  have hcmd : buildCmd shelfPaths shelf () (fun _ => none) exl3Launch = .ok (exl3Cmd, ()) := by decide +kernel
  have hdir : shelf.isDir () "/m/e/served".toList = false := by decide +kernel
  refine ⟨hcmd, hdir, fun h => ?_⟩
  obtain ⟨rest, pre, toks, hrest, heq, hlen, hnames⟩ := h Unit shelfPaths shelf () () (fun _ => none) exl3Launch
    "--model-name 4bpw".toList exl3Cmd (by decide +kernel) (by decide +kernel) rfl hcmd
  have htoks : toks = ["--model-name", "served"].map String.toList := by
    have hdrop : exl3Cmd.drop (exl3Cmd.length - toks.length) = toks := by
      rw [heq, List.length_append, Nat.add_sub_cancel, List.drop_left]
    rw [hlen] at hdrop
    rw [← hdrop]
    decide +kernel
  obtain rfl : "e".toList = rest := Option.some.inj hrest
  have hserved := hnames 0 MODEL_NAME "served".toList (by rw [htoks]; rfl) (by decide +kernel) (by rw [htoks]; rfl)
  exact absurd hserved (by decide +kernel)

end Runner.Build
