import DgxPlatform.Portal.Memory

/-! # The normalised form of a name

`mem_norm` makes one name of « vLLM », « vllm » and « VLLM »: lower case, Latin
characters without their marks, every run of other characters than letters and digits
one space, at most 120 characters.

The tables of Unicode are a parameter (`Unicode`), with what they say of white space:
it has no case, decomposes into white space and is neither letter nor number. White
space around a name is then nothing to `mem_norm` (`memNorm_pyStrip`). The cut comes
last, so a normalised form may end in a space, and `mem_norm` of it is another one.
-/

namespace Portal.Memory

open Accounts (pyIsSpace pyStrip)

/-- Every character is one that `strip` removes. -/
def Blank (t : List Char) : Prop := ∀ c ∈ t, pyIsSpace c = true

/-- `to_lowercase`, the compatibility decomposition, the combining marks, and the letters
and numbers by general category. -/
structure Unicode where
  lowercase : Text.Lowercase
  nfkd : Char → List Char
  isCombiningMark : Char → Bool
  alphanumeric : Char → Bool
  lower_blank : ∀ a t b, Blank a → Blank b →
    lowercase.lower (a ++ t ++ b) = a ++ lowercase.lower t ++ b
  nfkd_blank : ∀ c, pyIsSpace c = true → Blank (nfkd c)
  not_alphanumeric : ∀ c, pyIsSpace c = true → alphanumeric c = false

variable (uni : Unicode)

/-- `is_word`. -/
def isWord (c : Char) : Bool := c == '_' || uni.alphanumeric c

/-- A character without its marks when its decomposition starts in ASCII, else as it is. -/
def foldChar (c : Char) : List Char :=
  if (uni.nfkd c).head?.any fun d => decide (d.toNat < 128) then
    (uni.nfkd c).filter fun d => !uni.isCombiningMark d
  else [c]

/-- Every run of other characters than words' becomes a space; `inGap` inside such a run. -/
def spaced (inGap : Bool) : List Char → List Char
  | [] => []
  | c :: t =>
      if isWord uni c then c :: spaced false t
      else if inGap then spaced true t
      else ' ' :: spaced true t

/-- `replace('_', " ")`. -/
def underscores (t : List Char) : List Char := t.map fun c => if c = '_' then ' ' else c

/-- Runs of white space become one space, none in front and none behind. -/
def collapsed (pending : Bool) (out : List Char) : List Char → List Char
  | [] => out
  | c :: t =>
      if Text.isWhitespace c then collapsed true out t
      else collapsed false ((if pending ∧ out ≠ [] then out ++ [' '] else out) ++ [c]) t

/-- `mem_norm` of a trimmed name, before the cut. -/
def normCore (t : List Char) : List Char :=
  collapsed false [] (underscores (spaced uni false ((uni.lowercase.lower t).flatMap (foldChar uni))))

/-- `mem_norm`. -/
def memNorm (name : List Char) : List Char := (normCore uni (Text.trim name)).take memMaxNameLen

/-! ## White space around a name -/

/-- No character of a word. -/
def Gap (t : List Char) : Prop := ∀ c ∈ t, isWord uni c = false

variable {uni}

/-- In front of the first word it does not matter which spaces came before. -/
theorem collapsed_start (t : List Char) (pending pending' inGap inGap' : Bool) :
    collapsed pending [] (underscores (spaced uni inGap t)) =
      collapsed pending' [] (underscores (spaced uni inGap' t)) := by
  induction t generalizing pending pending' inGap inGap' with
  | nil => rfl
  | cons c t ih =>
    -- a space in front only sets `pending`
    have hskip : ∀ p g, collapsed p [] (underscores (' ' :: spaced uni g t)) =
        collapsed true [] (underscores (spaced uni g t)) := fun _ _ => rfl
    by_cases hw : isWord uni c = true
    · simp only [spaced, hw, if_true, underscores, List.map_cons, collapsed, ne_eq,
        not_true_eq_false, and_false, if_false]
    · simp only [spaced, hw, Bool.false_eq_true, if_false]
      cases inGap <;> cases inGap' <;> simp only [Bool.false_eq_true, if_false, if_true, hskip] <;>
        exact ih _ _ _ _

theorem collapsed_gap_append {a : List Char} (ha : Gap uni a) (t : List Char) (pending inGap : Bool) :
    collapsed pending [] (underscores (spaced uni inGap (a ++ t))) =
      collapsed pending [] (underscores (spaced uni inGap t)) := by
  induction a generalizing pending inGap with
  | nil => rfl
  | cons c a ih =>
    have hc : isWord uni c = false := ha c List.mem_cons_self
    have hrest := ih (fun d hd => ha d (List.mem_cons_of_mem _ hd))
    have hfirst : ∀ p, collapsed p [] (underscores (spaced uni true (a ++ t))) =
        collapsed pending [] (underscores (spaced uni inGap t)) := by
      intro p
      rw [hrest p true]
      exact collapsed_start t _ _ _ _
    cases inGap with
    | true => simpa only [List.cons_append, spaced, hc, Bool.false_eq_true, if_false, if_true]
        using hfirst pending
    | false =>
      have hspace : collapsed pending [] (underscores (' ' :: spaced uni true (a ++ t))) =
          collapsed true [] (underscores (spaced uni true (a ++ t))) := rfl
      simpa only [List.cons_append, spaced, hc, Bool.false_eq_true, if_false, hspace]
        using hfirst true

theorem collapsed_gap {b : List Char} (hb : Gap uni b) (pending inGap : Bool) (out : List Char) :
    collapsed pending out (underscores (spaced uni inGap b)) = out := by
  induction b generalizing pending inGap with
  | nil => rfl
  | cons c b ih =>
    have hc : isWord uni c = false := hb c List.mem_cons_self
    have hrest := ih (fun d hd => hb d (List.mem_cons_of_mem _ hd))
    cases inGap with
    | true => simpa only [spaced, hc, Bool.false_eq_true, if_false, if_true] using hrest pending true
    | false =>
      have hspace : collapsed pending out (underscores (' ' :: spaced uni true b)) =
          collapsed true out (underscores (spaced uni true b)) := rfl
      simpa only [spaced, hc, Bool.false_eq_true, if_false, hspace] using hrest true true

theorem collapsed_cons_congr {s t : List Char} (c : Char)
    (h : ∀ pending out, collapsed pending out s = collapsed pending out t) (pending : Bool)
    (out : List Char) : collapsed pending out (c :: s) = collapsed pending out (c :: t) := by
  simp only [collapsed]
  split
  · exact h _ _
  · exact h _ _

theorem collapsed_append_gap {b : List Char} (hb : Gap uni b) (t : List Char)
    (pending inGap : Bool) (out : List Char) :
    collapsed pending out (underscores (spaced uni inGap (t ++ b))) =
      collapsed pending out (underscores (spaced uni inGap t)) := by
  induction t generalizing pending inGap out with
  | nil => exact collapsed_gap hb pending inGap out
  | cons c t ih =>
    by_cases hw : isWord uni c = true
    · simp only [List.cons_append, spaced, hw, if_true, underscores, List.map_cons]
      exact collapsed_cons_congr _ (fun p o => ih p false o) _ _
    · cases inGap with
      | true => simpa only [List.cons_append, spaced, hw, Bool.false_eq_true, if_false, if_true]
          using ih pending true out
      | false =>
        have hspace : ∀ r, collapsed pending out (underscores (' ' :: r)) =
            collapsed true out (underscores r) := fun _ => rfl
        simpa only [List.cons_append, spaced, hw, Bool.false_eq_true, if_false, hspace]
          using ih true true out

theorem isWord_of_blank {c : Char} (hc : pyIsSpace c = true) : isWord uni c = false := by
  have hne : c ≠ '_' := by
    rintro rfl
    revert hc
    decide
  simp [isWord, hne, uni.not_alphanumeric c hc]

theorem gap_foldChar {a : List Char} (ha : Blank a) : Gap uni (a.flatMap (foldChar uni)) := by
  intro d hd
  obtain ⟨c, hc, hdc⟩ := List.mem_flatMap.1 hd
  have hblank := ha c hc
  unfold foldChar at hdc
  split at hdc
  · exact isWord_of_blank (uni.nfkd_blank c hblank d (List.mem_of_mem_filter hdc))
  · rw [List.mem_singleton.1 hdc]
    exact isWord_of_blank hblank

theorem normCore_blank {a b : List Char} (ha : Blank a) (hb : Blank b) (t : List Char) :
    normCore uni (a ++ t ++ b) = normCore uni t := by
  unfold normCore
  rw [uni.lower_blank a t b ha hb, List.flatMap_append, List.flatMap_append,
    collapsed_append_gap (gap_foldChar hb), collapsed_gap_append (gap_foldChar ha)]

theorem memNorm_eq (name : List Char) : memNorm uni name = (normCore uni name).take memMaxNameLen := by
  obtain ⟨a, b, hname, ha, hb⟩ := Text.exists_trimMatches Text.isWhitespace name
  have hspace : ∀ t : List Char, (∀ c ∈ t, Text.isWhitespace c = true) → Blank t := by
    intro t ht c hc
    simp [pyIsSpace, ht c hc]
  have hcore : normCore uni name = normCore uni (Text.trim name) := by
    conv_lhs => rw [hname]
    exact normCore_blank (hspace a ha) (hspace b hb) _
  rw [memNorm, hcore]

theorem memNorm_pyStrip (name : List Char) : memNorm uni (pyStrip name) = memNorm uni name := by
  obtain ⟨a, b, hname, ha, hb⟩ := Text.exists_trimMatches pyIsSpace name
  have hcore : normCore uni name = normCore uni (pyStrip name) := by
    conv_lhs => rw [hname]
    exact normCore_blank ha hb _
  rw [memNorm_eq, memNorm_eq, hcore]

theorem memNorm_nil : memNorm uni [] = [] := by
  have hlower : uni.lowercase.lower [] = [] := uni.lowercase.ascii [] (fun _ h => absurd h List.not_mem_nil)
  rw [memNorm_eq, normCore, hlower]
  rfl

/-! ## The tables of ASCII -/

theorem toNat_of_blank {c : Char} (hc : pyIsSpace c = true) :
    c.toNat < 48 ∨ (57 < c.toNat ∧ c.toNat < 65) ∨ (90 < c.toNat ∧ c.toNat < 97) ∨ 122 < c.toNat := by
  simp only [pyIsSpace, Text.isWhitespace, Bool.or_eq_true, Bool.and_eq_true, decide_eq_true_eq,
    beq_iff_eq] at hc
  omega

theorem toLower_of_blank {c : Char} (hc : pyIsSpace c = true) : c.toLower = c := by
  have hn := toNat_of_blank hc
  unfold Char.toLower
  split
  · next h =>
      obtain ⟨h1, h2⟩ := h
      have h1' : 65 ≤ c.toNat := h1
      have h2' : c.toNat ≤ 90 := h2
      omega
  · rfl

theorem isAlphanum_of_blank {c : Char} (hc : pyIsSpace c = true) : c.isAlphanum = false := by
  have hn := toNat_of_blank hc
  by_contra h
  have halnum := Text.toNat_of_isAlphanum (Bool.not_eq_false _ ▸ h)
  omega

theorem map_toLower_of_blank {a : List Char} (ha : Blank a) : a.map Char.toLower = a := by
  have hid : a.map Char.toLower = a.map id := List.map_congr_left fun c hc => toLower_of_blank (ha c hc)
  rw [hid, List.map_id]

theorem asciiLowercase_blank (a t b : List Char) (ha : Blank a) (hb : Blank b) :
    Text.asciiLowercase.lower (a ++ t ++ b) = a ++ Text.asciiLowercase.lower t ++ b := by
  simp only [Text.asciiLowercase, List.map_append, map_toLower_of_blank ha, map_toLower_of_blank hb]

theorem blank_singleton (c : Char) (hc : pyIsSpace c = true) : Blank [c] := by
  intro d hd
  rw [List.mem_singleton.1 hd]
  exact hc

/-- What the tables say of ASCII texts. -/
def asciiUnicode : Unicode where
  lowercase := Text.asciiLowercase
  nfkd := fun c => [c]
  isCombiningMark := fun _ => false
  alphanumeric := Char.isAlphanum
  lower_blank := asciiLowercase_blank
  nfkd_blank := blank_singleton
  not_alphanumeric := fun _ hc => isAlphanum_of_blank hc

example : memNorm asciiUnicode " vLLM__0.6 ".toList = "vllm 0 6".toList := by decide +kernel

end Portal.Memory
