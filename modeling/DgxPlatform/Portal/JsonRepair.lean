import DgxPlatform.Lib.JsonMachine
import DgxPlatform.Lib.Trim
import Mathlib.Data.List.DropRight

/-! # A model's JSON, repaired

What a model writes is often not JSON: raw line breaks stand in its strings, something follows the
value, or the text is cut. `readJson` is the chain of repairs that `parseEdits` and `questionsOf`
share, and `readJson_cut` says what it makes of a text that is cut in the middle of an object.
-/

namespace Portal.Repair

open JsonMachine
open Text (isJsSpace trimEndMatches)

/-! ## The repairs -/

/-- What is written for a character that is raw in a string. -/
def rawControl (ch : Char) : List Char :=
  if ch = '\n' then ['\\', 'n'] else if ch = '\r' then ['\\', 'r'] else if ch = '\t' then ['\\', 't'] else [ch]

def escapeFrom (q : Quote) : List Char → List Char
  | [] => []
  | ch :: t => (if q.inString && !q.escaped then rawControl ch else [ch]) ++ escapeFrom (q.next ch) t

def outside : Quote := ⟨false, false⟩

/-- `escapeRawControlChars`. -/
def escapeRawControlChars (src : List Char) : List Char := escapeFrom outside src

/-- The loop of `firstJsonValue`: where the value ends. -/
def valueEnd : Int → Quote → Nat → List Char → Option Nat
  | _, _, _, [] => none
  | depth, q, i, ch :: t =>
      if q.inString then valueEnd depth (q.next ch) (i + 1) t
      else if ch = '\x7b' ∨ ch = '[' then valueEnd (depth + 1) (q.next ch) (i + 1) t
      else if ch = '\x7d' ∨ ch = ']' then
        if depth - 1 = 0 then some (i + 1) else valueEnd (depth - 1) (q.next ch) (i + 1) t
      else valueEnd depth (q.next ch) (i + 1) t

/-- `firstJsonValue`. -/
def firstJsonValue (src : List Char) : Option (List Char) :=
  (src.findIdx? fun c => c = '\x7b' || c = '[').bind fun start =>
    (valueEnd 0 outside start (src.drop start)).map fun stop => (src.take stop).drop start

/-- The brackets that are open at the end, the last one first. -/
def openBrackets : List Char → Quote → List Char → List Char × Quote
  | stack, q, [] => (stack, q)
  | stack, q, ch :: t =>
      openBrackets
        (if q.inString then stack
        else if ch = '\x7b' ∨ ch = '[' then ch :: stack
        else if ch = '\x7d' ∨ ch = ']' then stack.tail
        else stack) (q.next ch) t

/-- `replace(/,\s*$/, "")`. -/
def dropComma (src : List Char) : List Char :=
  let t := trimEndMatches isJsSpace src
  if t.getLast? = some ',' then t.dropLast else src

def closerOf (ch : Char) : Char := if ch = '\x7b' then '\x7d' else ']'

def endQuote (q : Quote) : List Char := if q.inString then ['"'] else []

/-- `balanceJson`. -/
def balanceJson (src : List Char) : List Char :=
  let r := openBrackets [] outside src
  dropComma src ++ endQuote r.2 ++ r.1.map closerOf

/-- The loop of `repairClosings`: the text, the closers of what is open, and the quotes. -/
def repairFrom : List Char → Quote → List Char → List Char × List Char × Quote
  | stack, q, [] => ([], stack, q)
  | stack, q, ch :: t =>
      if q.inString then
        let r := repairFrom stack (q.next ch) t
        (ch :: r.1, r.2)
      else if ch = '\x7b' ∨ ch = '[' then
        let r := repairFrom (closerOf ch :: stack) (q.next ch) t
        (ch :: r.1, r.2)
      else if ch = '\x7d' ∨ ch = ']' then
        if ch ∈ stack then
          let r := repairFrom (stack.dropWhile (· ≠ ch)).tail (q.next ch) t
          (stack.takeWhile (· ≠ ch) ++ ch :: r.1, r.2)
        else repairFrom stack (q.next ch) t
      else
        let r := repairFrom stack (q.next ch) t
        (ch :: r.1, r.2)

/-- White space and then a closer. -/
def closes (t : List Char) : Bool := (t.dropWhile isJsSpace).head?.any fun c => c = '\x7d' || c = ']'

/-- `replace(/,\s*([}\]])/g, "$1")`; `inMatch` is set between the comma and the closer. -/
def stripCommas : Bool → List Char → List Char
  | _, [] => []
  | inMatch, c :: t =>
      if inMatch && isJsSpace c then stripCommas true t
      else if c = ',' ∧ closes t then stripCommas true t
      else c :: stripCommas false t

/-- `repairClosings`. -/
def repairClosings (src : List Char) : List Char :=
  let r := repairFrom [] outside src
  stripCommas false (r.1 ++ endQuote r.2.2 ++ r.2.1)

/-- The value of a text, after as many repairs as it takes. -/
def readJson (body : List Char) : Option Value :=
  parse body <|>
    let repaired := escapeRawControlChars body
    parse repaired <|> parse ((firstJsonValue repaired).getD (balanceJson repaired)) <|>
      parse (repairClosings repaired)

/-! ## A text that could go on as JSON -/

variable {s s' : State} {t : List Char}

variable {ch : Char}

theorem rawControl_eq (h : 0x20 ≤ ch.toNat) : rawControl ch = [ch] := by
  have hne : ∀ c : Char, c.toNat < 0x20 → ch ≠ c := by
    rintro c hlt rfl
    omega
  rw [rawControl, if_neg (hne _ (by decide)), if_neg (hne _ (by decide)), if_neg (hne _ (by decide))]

/-- A string that is read has no control character that is not escaped. -/
theorem control_of_step (h : step s ch = some s')
    (hquote : (s.quote.inString && !s.quote.escaped) = true) : 0x20 ≤ ch.toNat := by
  obtain ⟨fs, m⟩ := s
  cases m with
  | str isKey text esc =>
    cases esc with
    | plain =>
      by_contra hlt
      dsimp only [step, stepString] at h
      rw [if_neg (by rintro rfl; exact hlt (by decide)), if_neg (by rintro rfl; exact hlt (by decide)),
        if_pos (by omega)] at h
      cases h
    | slash => cases hquote
    | code n u =>
      obtain ⟨d, hd, -⟩ := Option.map_eq_some_iff.1 h
      have hcode : ∀ n < 0x20, JsonText.hexValue (Char.ofNat n) = none := by decide
      by_contra hlt
      have hnone := hcode ch.toNat (by omega)
      rw [Char.ofNat_toNat, hd] at hnone
      cases hnone
  | _ => cases hquote

theorem escapeFrom_eq (h : run s t = some s') : escapeFrom s.quote t = t := by
  induction t generalizing s with
  | nil => rfl
  | cons ch t ih =>
    rw [run_cons] at h
    obtain ⟨s1, hs1, hrun⟩ := Option.bind_eq_some_iff.1 h
    have htail := ih hrun
    rw [(step_spec hs1).1] at htail
    rw [escapeFrom, htail]
    split_ifs with hraw
    · rw [rawControl_eq (control_of_step hs1 hraw)]
      rfl
    · rfl

theorem quote_run (h : run s t = some s') : s'.quote = t.foldl Quote.next s.quote := by
  induction t generalizing s with
  | nil => rw [← Option.some.inj h, List.foldl_nil]
  | cons ch t ih =>
    rw [run_cons] at h
    obtain ⟨s1, hs1, hrun⟩ := Option.bind_eq_some_iff.1 h
    rw [ih hrun, (step_spec hs1).1, List.foldl_cons]

theorem closers_step (h : step s ch = some s') : (s.quote.inString = true → s'.closers = s.closers) ∧
      (s.quote.inString = false →
        ((ch = '\x7b' ∨ ch = '[') → s'.closers = closerOf ch :: s.closers) ∧
        ((ch = '\x7d' ∨ ch = ']') → s.closers = ch :: s'.closers) ∧
        (¬ (ch = '\x7b' ∨ ch = '[') → ¬ (ch = '\x7d' ∨ ch = ']') → s'.closers = s.closers)) := by
  have hopens := (step_spec h).2
  unfold Opens at hopens
  refine ⟨fun hin => ?_, fun hout => ⟨?_, ?_, ?_⟩⟩
  · rwa [if_pos hin] at hopens
  · rw [if_neg (by rw [hout]; exact Bool.false_ne_true)] at hopens
    rintro (rfl | rfl)
    · exact hopens
    · exact hopens
  · rw [if_neg (by rw [hout]; exact Bool.false_ne_true)] at hopens
    rintro (rfl | rfl)
    · exact hopens
    · exact hopens
  · intro hopen hclose
    rw [if_neg (by rw [hout]; exact Bool.false_ne_true), if_neg fun hc => hopen (.inl hc),
      if_neg fun hc => hopen (.inr hc), if_neg hclose] at hopens
    exact hopens

theorem openBrackets_eq {stack : List Char} (h : run s t = some s') (hstack : stack.map closerOf = s.closers) :
    (openBrackets stack s.quote t).2 = s'.quote ∧ (openBrackets stack s.quote t).1.map closerOf = s'.closers := by
  induction t generalizing s stack with
  | nil =>
    obtain rfl := Option.some.inj h
    exact ⟨rfl, hstack⟩
  | cons ch t ih =>
    rw [run_cons] at h
    obtain ⟨s1, hs1, hrun⟩ := Option.bind_eq_some_iff.1 h
    obtain ⟨hin, hout⟩ := closers_step hs1
    rw [openBrackets, ← (step_spec hs1).1]
    refine ih hrun ?_
    split_ifs with hquote hopen hclose
    · rw [hstack, hin hquote]
    · obtain ⟨hopens, -, -⟩ := hout (Bool.eq_false_iff.2 hquote)
      rw [List.map_cons, hstack, hopens hopen]
    · obtain ⟨-, hcloses, -⟩ := hout (Bool.eq_false_iff.2 hquote)
      rw [List.map_tail, hstack, hcloses hclose, List.tail_cons]
    · obtain ⟨-, -, hplain⟩ := hout (Bool.eq_false_iff.2 hquote)
      rw [hstack, hplain hopen hclose]

theorem repairFrom_eq (h : run s t = some s') : repairFrom s.closers s.quote t = (t, s'.closers, s'.quote) := by
  induction t generalizing s with
  | nil =>
    obtain rfl := Option.some.inj h
    rfl
  | cons ch t ih =>
    rw [run_cons] at h
    obtain ⟨s1, hs1, hrun⟩ := Option.bind_eq_some_iff.1 h
    obtain ⟨hin, hout⟩ := closers_step hs1
    have htail := ih hrun
    rw [repairFrom, ← (step_spec hs1).1]
    split_ifs with hquote hopen hclose hmem
    · rw [← hin hquote, htail]
    · obtain ⟨hopens, -, -⟩ := hout (Bool.eq_false_iff.2 hquote)
      rw [← hopens hopen, htail]
    · obtain ⟨-, hcloses, -⟩ := hout (Bool.eq_false_iff.2 hquote)
      rw [hcloses hclose, List.dropWhile_cons_of_neg (by simp), List.takeWhile_cons_of_neg (by simp),
        List.tail_cons, htail]
      rfl
    · obtain ⟨-, hcloses, -⟩ := hout (Bool.eq_false_iff.2 hquote)
      rw [hcloses hclose] at hmem
      exact absurd List.mem_cons_self hmem
    · obtain ⟨-, -, hplain⟩ := hout (Bool.eq_false_iff.2 hquote)
      rw [← hplain hopen hclose, htail]

/-- In all the states that a run comes through, something is open. -/
def Open (s : State) (t : List Char) : Prop := ∀ a b s', t = a ++ b → run s a = some s' → s'.frames ≠ []

theorem Open.head (h : Open s t) : s.frames ≠ [] := h [] t s rfl rfl

theorem Open.tail (h : Open s (ch :: t)) (hs : step s ch = some s') : Open s' t := by
  intro a b s1 ht hrun
  exact h (ch :: a) b s1 (congrArg (List.cons ch) ht) (by rw [run_cons, hs]; exact hrun)

theorem valueEnd_eq_none (h : run s t = some s') (hopen : Open s t) (i : Nat) :
    valueEnd s.closers.length s.quote i t = none := by
  induction t generalizing s i with
  | nil => rfl
  | cons ch t ih =>
    rw [run_cons] at h
    obtain ⟨s1, hs1, hrun⟩ := Option.bind_eq_some_iff.1 h
    obtain ⟨hin, hout⟩ := closers_step hs1
    have htail := ih hrun (hopen.tail hs1) (i + 1)
    rw [valueEnd, ← (step_spec hs1).1]
    split_ifs with hquote hopens hcloses hzero
    · rw [← hin hquote, htail]
    · have hlen := congrArg List.length ((hout (Bool.eq_false_iff.2 hquote)).1 hopens)
      rw [List.length_cons] at hlen
      have hdepth : (s.closers.length : Int) + 1 = s1.closers.length := by omega
      rw [hdepth]
      exact htail
    · have hlen := congrArg List.length ((hout (Bool.eq_false_iff.2 hquote)).2.1 hcloses)
      rw [List.length_cons] at hlen
      have hpos : s1.closers.length ≠ 0 := by
        rw [State.closers, List.length_map]
        exact fun hnil => (hopen.tail hs1).head (List.length_eq_zero_iff.1 hnil)
      omega
    · have hlen := congrArg List.length ((hout (Bool.eq_false_iff.2 hquote)).2.1 hcloses)
      rw [List.length_cons] at hlen
      have hdepth : (s.closers.length : Int) - 1 = s1.closers.length := by omega
      rw [hdepth]
      exact htail
    · rw [← (hout (Bool.eq_false_iff.2 hquote)).2.2 hopens hcloses, htail]

/-! ## A comma at the end -/

variable {c : Char}

theorem plain_of_isJsSpace (h : isJsSpace c = true) : Plain c ∧ c ≠ ',' ∧ c ≠ '\\' := by
  refine ⟨⟨?_, ?_, ?_, ?_, ?_⟩, ?_, ?_⟩ <;> (rintro rfl; exact absurd h (by decide))

theorem dropComma_cases (t : List Char) :
    (∃ a ws, t = a ++ ',' :: ws ∧ (∀ c ∈ ws, isJsSpace c = true) ∧ dropComma t = a) ∨
      (dropComma t = t ∧ ∀ a ws, t = a ++ ',' :: ws → ¬ ∀ c ∈ ws, isJsSpace c = true) := by
  have hsplit : trimEndMatches isJsSpace t ++ t.rtakeWhile isJsSpace = t := List.rdropWhile_append_rtakeWhile ..
  have hall : ∀ c ∈ t.rtakeWhile isJsSpace, isJsSpace c = true := fun c hc => List.mem_rtakeWhile_imp hc
  by_cases hcomma : (trimEndMatches isJsSpace t).getLast? = some ','
  · obtain ⟨a, ha⟩ := List.getLast?_eq_some_iff.1 hcomma
    refine .inl ⟨a, t.rtakeWhile isJsSpace, ?_, hall, ?_⟩
    · rw [ha, List.append_assoc, List.singleton_append] at hsplit
      exact hsplit.symm
    · rw [dropComma, if_pos hcomma, ha, List.dropLast_concat]
  · refine .inr ⟨if_neg hcomma, ?_⟩
    rintro a ws rfl hws
    have htrim : trimEndMatches isJsSpace (a ++ ',' :: ws) = a ++ [','] := by
      rw [Text.trimEndMatches_append_cons (by decide), Text.trimEndMatches_of_all hws]
    rw [htrim, List.getLast?_concat] at hcomma
    exact hcomma rfl

theorem dropComma_append (a u : List Char) : dropComma (a ++ '\x7b' :: u) = a ++ '\x7b' :: dropComma u := by
  have htrim : trimEndMatches isJsSpace (a ++ '\x7b' :: u) = a ++ '\x7b' :: trimEndMatches isJsSpace u :=
    Text.trimEndMatches_append_cons (by decide)
  unfold dropComma
  dsimp only
  rw [htrim]
  cases trimEndMatches isJsSpace u with
  | nil =>
    rw [List.getLast?_concat]
    rfl
  | cons c u' =>
    rw [List.getLast?_append_cons, List.getLast?_cons_cons]
    split_ifs
    · rw [List.dropLast_append_cons]
      rfl
    · rfl

theorem dropComma_concat (a : List Char) (hc : isJsSpace c = false) :
    dropComma (a ++ [c]) = if c = ',' then a else a ++ [c] := by
  have htrim : trimEndMatches isJsSpace (a ++ [c]) = a ++ [c] := Text.trimEndMatches_append_cons hc
  unfold dropComma
  dsimp only
  rw [htrim, List.getLast?_concat, List.dropLast_concat]
  split_ifs with h h' h'
  · rfl
  · exact absurd (Option.some.inj h) h'
  · exact absurd (congrArg some h') h
  · rfl

/-- A comma outside of strings has been read. -/
def Waits (s : State) : Prop :=
  (∃ xs gs, s = ⟨.arr xs :: gs, .value⟩) ∨ ∃ fields key gs, s = ⟨.obj fields key :: gs, .key⟩

/-- In a string, and not in an escape. -/
def InText (s : State) : Prop := ∃ fs isKey text, s = ⟨fs, .str isKey text .plain⟩

theorem waits_of_after {f : Frame} {gs : List Frame} (h : afterValue (f :: gs) ',' = some s') : Waits s' := by
  cases f with
  | arr xs => exact .inl ⟨xs, gs, (Option.some.inj h).symm⟩
  | obj fields key => exact .inr ⟨fields, key, gs, (Option.some.inj h).symm⟩

/-- Where a comma is read: in a string, or behind a value that can be closed. -/
theorem comma_step (h : step s ',' = some s') :
    (InText s ∧ InText s' ∧ Like s' s) ∨ (s.quote = outside ∧ s.top ≠ none ∧ Waits s') := by
  obtain ⟨fs, m⟩ := s
  cases m with
  | after =>
    cases fs with
    | nil => cases h
    | cons f gs => exact .inr ⟨rfl, by cases f <;> exact Option.some_ne_none _, waits_of_after h⟩
  | num n text =>
    have hnext : n.next ',' = none := by cases n <;> rfl
    dsimp only [step] at h
    rw [hnext] at h
    dsimp only at h
    split_ifs at h with hcomplete
    cases fs with
    | nil => cases h
    | cons f gs =>
      refine .inr ⟨rfl, ?_, waits_of_after h⟩
      have htop : State.top ⟨f :: gs, .num n text⟩ = some (f.add (.num text)).whole := by
        cases f <;> exact if_pos hcomplete
      rw [htop]
      exact Option.some_ne_none _
  | str isKey text esc =>
    cases esc with
    | plain =>
      obtain rfl := Option.some.inj h
      exact .inl ⟨⟨fs, isKey, text, rfl⟩, ⟨fs, isKey, _, rfl⟩, rfl, .str _ _ _ _⟩
    | slash => cases h
    | code n u => cases h
  | word w n =>
    dsimp only [step] at h
    have hno : ',' ∉ w.text := by cases w <;> decide
    rw [if_neg fun hc => hno (List.mem_of_getElem? hc)] at h
    cases h
  | _ => cases h

theorem space_inText (hs : InText s) (hc : isJsSpace c = true) (h : step s c = some s') :
    InText s' ∧ Like s' s := by
  obtain ⟨fs, isKey, text, rfl⟩ := hs
  obtain ⟨hplain, -, hslash⟩ := plain_of_isJsSpace hc
  dsimp only [step, stepString] at h
  rw [if_neg hplain.1, if_neg hslash] at h
  split_ifs at h
  obtain rfl := Option.some.inj h
  exact ⟨⟨fs, isKey, _, rfl⟩, rfl, .str _ _ _ _⟩

theorem isDigit_space (h : isJsSpace c = true) : c.isDigit = false := by
  rw [Bool.eq_false_iff]
  intro hdigit
  have hlow : 48 ≤ c.toNat := (Char.isDigit_iff_toNat.1 hdigit).1
  have hhigh : c.toNat ≤ 57 := (Char.isDigit_iff_toNat.1 hdigit).2
  have hcode : ∀ n < 58, 48 ≤ n → isJsSpace (Char.ofNat n) = false := by decide
  have hspace := hcode c.toNat (by omega) hlow
  rw [Char.ofNat_toNat, h] at hspace
  cases hspace

theorem beginValue_space (h : isJsSpace c = true) (fs : List Frame) : beginValue fs c = none := by
  have hne : ∀ d, isJsSpace d = false → c ≠ d := by
    rintro d hd rfl
    rw [h] at hd
    cases hd
  unfold beginValue Numeral.next
  rw [if_neg (hne _ (by decide)), if_neg (hne _ (by decide)), if_neg (hne _ (by decide)), if_neg (hne _ (by decide)),
    if_neg (hne _ (by decide)), if_neg (hne _ (by decide)), if_neg (hne _ (by decide)), if_neg (hne _ (by decide)),
    if_neg (by rw [isDigit_space h]; exact Bool.false_ne_true)]
  rfl

theorem space_waits (hs : Waits s) (hc : isJsSpace c = true) (h : step s c = some s') : s' = s := by
  obtain ⟨⟨hquote, hbrace, hbracket, -, -⟩, -, -⟩ := plain_of_isJsSpace hc
  rcases hs with ⟨xs, gs, rfl⟩ | ⟨fields, key, gs, rfl⟩
  · dsimp only [step] at h
    split_ifs at h
    · exact (Option.some.inj h).symm
    · rw [beginValue_space hc] at h
      cases h
  · dsimp only [step] at h
    split_ifs at h with hspace
    exact (Option.some.inj h).symm

theorem closer_waits (hs : Waits s) (hc : c = '\x7d' ∨ c = ']') : step s c = none := by
  rcases hs with ⟨xs, gs, rfl⟩ | ⟨fields, key, gs, rfl⟩ <;> rcases hc with rfl | rfl <;> rfl

/-- Behind a comma outside of strings, the text does not go on with a closer. -/
theorem run_waits {v : List Char} (hs : Waits s) (h : run s t = some s') (hcloses : closes (t ++ v) = true) :
    (∀ c ∈ t, isJsSpace c = true) ∧ closes v = true := by
  induction t generalizing s with
  | nil => exact ⟨List.forall_mem_nil _, hcloses⟩
  | cons c t ih =>
    rw [run_cons] at h
    obtain ⟨s1, hs1, hrun⟩ := Option.bind_eq_some_iff.1 h
    rw [closes, List.cons_append] at hcloses
    cases hc : isJsSpace c with
    | true =>
      rw [List.dropWhile_cons_of_pos hc] at hcloses
      obtain rfl := space_waits hs hc hs1
      obtain ⟨hall, hv⟩ := ih hs hrun hcloses
      exact ⟨List.forall_mem_cons.2 ⟨hc, hall⟩, hv⟩
    | false =>
      rw [List.dropWhile_cons_of_neg (by rw [hc]; exact Bool.false_ne_true), List.head?_cons, Option.any_some,
        Bool.or_eq_true, decide_eq_true_eq, decide_eq_true_eq] at hcloses
      rw [closer_waits hs hcloses] at hs1
      cases hs1

theorem stripCommas_eq {v : List Char} (hv : ',' ∉ v) : stripCommas false v = v := by
  induction v with
  | nil => rfl
  | cons c v ih =>
    have hc : c ≠ ',' := fun heq => hv (by rw [heq]; exact List.mem_cons_self)
    rw [stripCommas, Bool.false_and, if_neg Bool.false_ne_true, if_neg fun h => hc h.1,
      ih fun hmem => hv (List.mem_cons_of_mem _ hmem)]

/-- Without the commas in front of closers, the text is read in the same way, but for what its
strings say. -/
theorem run_stripCommas {v : List Char} (hv : ',' ∉ v) (hhead : ∀ c ∈ v.head?, isJsSpace c = false)
    {s0 : State} {inMatch : Bool} (hlike : Like s s0) (h : run s t = some s') (hmatch : inMatch = true → InText s)
    (hend : ∀ a ws, t = a ++ ',' :: ws → (∀ c ∈ ws, isJsSpace c = true) → closes v = false) :
    ∃ s1, Like s' s1 ∧ run s0 (stripCommas inMatch (t ++ v)) = run s1 v := by
  induction t generalizing s s0 inMatch with
  | nil =>
    obtain rfl := Option.some.inj h
    refine ⟨s0, hlike, congrArg (run s0) ?_⟩
    rw [List.nil_append]
    cases inMatch with
    | false => exact stripCommas_eq hv
    | true =>
      cases v with
      | nil => rfl
      | cons c v =>
        have hc : c ≠ ',' := fun heq => hv (by rw [heq]; exact List.mem_cons_self)
        rw [stripCommas, hhead c rfl, Bool.and_false, if_neg Bool.false_ne_true, if_neg fun h => hc h.1,
          stripCommas_eq fun hmem => hv (List.mem_cons_of_mem _ hmem)]
  | cons c t ih =>
    rw [run_cons] at h
    obtain ⟨s1, hs1, hrun⟩ := Option.bind_eq_some_iff.1 h
    have hend' : ∀ a ws, t = a ++ ',' :: ws → (∀ c ∈ ws, isJsSpace c = true) → closes v = false := by
      intro a ws ht hws
      exact hend (c :: a) ws (congrArg (List.cons c) ht) hws
    rw [List.cons_append, stripCommas]
    split_ifs with hspace hcomma
    · rw [Bool.and_eq_true] at hspace
      obtain ⟨hin, hlike1⟩ := space_inText (hmatch hspace.1) hspace.2 hs1
      exact ih (hlike1.trans hlike) hrun (fun _ => hin) hend'
    · obtain ⟨rfl, hcloses⟩ := hcomma
      rcases comma_step hs1 with ⟨-, hin, hlike1⟩ | ⟨-, -, hwaits⟩
      · exact ih (hlike1.trans hlike) hrun (fun _ => hin) hend'
      · obtain ⟨hall, hcloses'⟩ := run_waits hwaits hrun hcloses
        rw [hend [] t rfl hall] at hcloses'
        cases hcloses'
    · obtain ⟨s2, hs2, hlike2⟩ := step_like hlike c s1 hs1
      have hmatch' : false = true → InText s1 := nofun
      obtain ⟨s3, hlike3, hrun3⟩ := ih hlike2 hrun hmatch' hend'
      refine ⟨s3, hlike3, ?_⟩
      rw [run_cons, hs2]
      exact hrun3

/-! ## A text that is cut in the middle -/

/-- Behind the brace of an object. -/
def opened : State := ⟨[.obj [] []], .first⟩

theorem run_start (t : List Char) : run start ('\x7b' :: t) = run opened t := rfl

theorem spaces_inText {ws : List Char} (hs : InText s) (hws : ∀ c ∈ ws, isJsSpace c = true)
    (h : run s ws = some s') : InText s' ∧ Like s' s := by
  induction ws generalizing s with
  | nil =>
    obtain rfl := Option.some.inj h
    exact ⟨hs, .refl _⟩
  | cons c ws ih =>
    rw [List.forall_mem_cons] at hws
    rw [run_cons] at h
    obtain ⟨s1, hs1, hrun⟩ := Option.bind_eq_some_iff.1 h
    obtain ⟨hin1, hlike1⟩ := space_inText hs hws.1 hs1
    obtain ⟨hin', hlike'⟩ := ih hin1 hws.2 hrun
    exact ⟨hin', hlike'.trans hlike1⟩

theorem spaces_waits {ws : List Char} (hs : Waits s) (hws : ∀ c ∈ ws, isJsSpace c = true)
    (h : run s ws = some s') : s' = s := by
  induction ws with
  | nil => exact (Option.some.inj h).symm
  | cons c ws ih =>
    rw [List.forall_mem_cons] at hws
    rw [run_cons] at h
    obtain ⟨s1, hs1, hrun⟩ := Option.bind_eq_some_iff.1 h
    obtain rfl := space_waits hs hws.1 hs1
    exact ih hws.2 hrun

theorem closing_of_comma {a ws : List Char} (hs : run s (a ++ ',' :: ws) = some s') (hws : ∀ c ∈ ws, isJsSpace c = true) :
    ∃ s1, run s a = some s1 ∧ s'.closing = s1.closing ∧ (s1.top = none → Like s' s1 ∧ InText s') := by
  rw [run_append] at hs
  obtain ⟨s1, hs1, hs⟩ := Option.bind_eq_some_iff.1 hs
  rw [run_cons] at hs
  obtain ⟨s2, hs2, hrun⟩ := Option.bind_eq_some_iff.1 hs
  refine ⟨s1, hs1, ?_⟩
  rcases comma_step hs2 with ⟨-, hin, hlike⟩ | ⟨hquote, htop, hwaits⟩
  · obtain ⟨hin', hlike'⟩ := spaces_inText hin hws hrun
    have hlike1 := hlike'.trans hlike
    exact ⟨hlike1.closing_eq, fun _ => ⟨hlike1, hin'⟩⟩
  · obtain rfl := spaces_waits hwaits hws hrun
    refine ⟨?_, fun hnone => absurd hnone htop⟩
    obtain ⟨hquote2, hopens⟩ := step_spec hs2
    rw [hquote] at hquote2 hopens
    rw [State.closing, State.closing, hquote, hquote2]
    exact congrArg _ hopens

theorem result_of_open (h : s.frames ≠ []) : s.result = none := by
  obtain ⟨fs, m⟩ := s
  obtain ⟨f, gs, rfl⟩ := List.exists_cons_of_ne_nil h
  rfl

theorem closed_eq_none (h : s.frames ≠ []) : s.closed = none ↔ s.top = none := by
  obtain ⟨fs, m⟩ := s
  obtain ⟨f, gs, rfl⟩ := List.exists_cons_of_ne_nil h
  rw [closed_eq, Option.map_eq_none_iff]

theorem firstJsonValue_eq_none (h : run opened t = some s) (hopen : Open opened t) :
    firstJsonValue ('\x7b' :: t) = none := by
  have hstop : valueEnd 0 outside 0 ('\x7b' :: t) = none := valueEnd_eq_none h hopen 1
  have hstart : ('\x7b' :: t).findIdx? (fun c => c = '\x7b' || c = '[') = some 0 := rfl
  rw [firstJsonValue, hstart, Option.bind_some, List.drop_zero, hstop]
  rfl

theorem balanceJson_eq (h : run opened t = some s) :
    balanceJson ('\x7b' :: t) = '\x7b' :: (dropComma t ++ s.closing) := by
  obtain ⟨hquote, hclosers⟩ := @openBrackets_eq start s ('\x7b' :: t) [] h rfl
  have hopen : openBrackets [] outside ('\x7b' :: t) = openBrackets [] start.quote ('\x7b' :: t) := rfl
  have hdrop : dropComma ('\x7b' :: t) = '\x7b' :: dropComma t := dropComma_append [] t
  unfold balanceJson
  dsimp only
  rw [hopen, hquote, hclosers, hdrop, List.cons_append, List.cons_append, List.append_assoc]
  rfl

theorem repairClosings_eq (h : run opened t = some s) :
    repairClosings ('\x7b' :: t) = '\x7b' :: stripCommas false (t ++ s.closing) := by
  have hrepair : repairFrom [] outside ('\x7b' :: t) = ('\x7b' :: t, s.closers, s.quote) :=
    repairFrom_eq (s := start) (t := '\x7b' :: t) h
  unfold repairClosings
  rw [hrepair]
  dsimp only
  rw [List.cons_append, List.cons_append, List.append_assoc]
  rfl

theorem parse_repairClosings {s1 : State} (h : run opened t = some s) (hopen : Open opened t)
    (hdrop : run opened (dropComma t) = some s1) (hclosed : s1.closed = none) :
    parse (repairClosings ('\x7b' :: t)) = none := by
  have hframes : s.frames ≠ [] := hopen t [] s (List.append_nil t).symm h
  have hcomma : ',' ∉ s.closing := by
    intro hmem
    rcases List.mem_append.1 hmem with hmem | hmem
    · split_ifs at hmem
      · exact absurd hmem (by decide)
      · exact absurd hmem List.not_mem_nil
    · obtain ⟨f, -, hf⟩ := List.mem_map.1 hmem
      rcases f.closer_cases with hc | hc <;> exact absurd (hc.symm.trans hf) (by decide)
  have hhead : ∀ c ∈ s.closing.head?, isJsSpace c = false := by
    obtain ⟨fs, m⟩ := s
    obtain ⟨f, gs, rfl⟩ := List.exists_cons_of_ne_nil hframes
    intro c hc
    rw [State.closing] at hc
    split_ifs at hc
    · rw [← Option.some.inj hc]
      decide
    · have hcloser : f.closer = c := Option.some.inj hc
      rw [← hcloser]
      rcases f.closer_cases with h | h <;> (rw [h]; decide)
  have hstuck : s.closed = none ∧
      ∀ a ws, t = a ++ ',' :: ws → (∀ c ∈ ws, isJsSpace c = true) → closes s.closing = false := by
    rcases dropComma_cases t with ⟨a, ws, rfl, hws, hdropped⟩ | ⟨hsame, hno⟩
    · obtain ⟨s2, hs2, -, htop⟩ := closing_of_comma h hws
      rw [hdropped, hs2] at hdrop
      obtain rfl := Option.some.inj hdrop
      have hframes2 : s2.frames ≠ [] := hopen a (',' :: ws) s2 rfl hs2
      obtain ⟨hlike, fs, isKey, text, rfl⟩ := htop ((closed_eq_none hframes2).1 hclosed)
      refine ⟨?_, fun _ _ _ _ => rfl⟩
      cases hval : State.closed ⟨fs, .str isKey text .plain⟩ with
      | none => rfl
      | some v =>
        obtain ⟨r, hr, hv⟩ := Option.bind_eq_some_iff.1 hval
        obtain ⟨r2, hr2, hlike2⟩ := run_like hlike _ r hr
        rw [hlike.closing_eq] at hr2
        rw [State.closed, hr2] at hclosed
        rw [result_like hlike2.symm hclosed] at hv
        cases hv
    · rw [hsame, h] at hdrop
      obtain rfl := Option.some.inj hdrop
      exact ⟨hclosed, fun a ws ht hws => absurd hws (hno a ws ht)⟩
  have hmatch : false = true → InText opened := fun h => absurd h Bool.false_ne_true
  obtain ⟨s3, hlike3, hrun3⟩ := run_stripCommas hcomma hhead (Like.refl opened) h hmatch hstuck.2
  rw [repairClosings_eq h, parse, run_start, hrun3]
  cases hrun4 : run s3 s.closing with
  | none => rfl
  | some r =>
    obtain ⟨r2, hr2, hlike2⟩ := run_like hlike3.symm _ r hrun4
    have hresult := hstuck.1
    rw [State.closed, hr2] at hresult
    exact result_like hlike2.symm hresult

theorem readJson_of_parse {t : List Char} {v : Value} (h : parse t = some v) : readJson t = some v := by
  unfold readJson
  rw [h]
  rfl

/-- A text that is cut inside of an object becomes what is left of it when a comma at its end is
dropped and everything open is closed. -/
theorem readJson_cut (h : run opened t = some s) (hopen : Open opened t) :
    ∃ s1, run opened (dropComma t) = some s1 ∧ s1.frames ≠ [] ∧ readJson ('\x7b' :: t) = s1.closed := by
  have hframes : s.frames ≠ [] := hopen t [] s (List.append_nil t).symm h
  have hparse : parse ('\x7b' :: t) = none := by
    rw [parse, run_start, h]
    exact result_of_open hframes
  have hescape : escapeRawControlChars ('\x7b' :: t) = '\x7b' :: t := escapeFrom_eq (s := start) h
  have hcut : ∃ s1, run opened (dropComma t) = some s1 ∧ s1.frames ≠ [] ∧ s.closing = s1.closing := by
    rcases dropComma_cases t with ⟨a, ws, rfl, hws, hdropped⟩ | ⟨hsame, -⟩
    · obtain ⟨s1, hs1, hclosing, -⟩ := closing_of_comma h hws
      rw [hdropped]
      exact ⟨s1, hs1, hopen a (',' :: ws) s1 rfl hs1, hclosing⟩
    · rw [hsame]
      exact ⟨s, h, hframes, rfl⟩
  obtain ⟨s1, hs1, hframes1, hclosing⟩ := hcut
  have hbalance : parse (balanceJson ('\x7b' :: t)) = s1.closed := by
    rw [balanceJson_eq h, parse, run_start, run_append, hs1, hclosing]
    rfl
  refine ⟨s1, hs1, hframes1, ?_⟩
  unfold readJson
  dsimp only
  rw [hescape, hparse, firstJsonValue_eq_none h hopen, Option.getD_none, hbalance]
  cases hclosed : s1.closed with
  | some v => rfl
  | none => exact parse_repairClosings h hopen hs1 hclosed

end Portal.Repair
