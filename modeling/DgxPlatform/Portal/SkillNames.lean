import DgxPlatform.Lib.Words
import DgxPlatform.Portal.SkillText

/-! # The canonical form of a skill's name

A stored skill is found again by its normalised name. Normalising keeps the words of a
text, its runs of lowercase letters and digits, and puts one hyphen between two of them;
the cut to 64 characters comes last and can leave the hyphen that stands there at the end.
-/

namespace Portal.Skills

open Accounts (pyStrip)

variable {env : Env}

/-- A character of a word: no hyphen, no other character. -/
def isWordChar (c : Char) : Bool := c.isLower || c.isDigit

theorem isSlug_eq (c : Char) : isSlug c = (isWordChar c || decide (c = '-')) := rfl

theorem isWordChar_hyphen : isWordChar '-' = false := by decide

theorem isWordChar_eq_false {c : Char} (h : isSlug c = true) : isWordChar c = false ↔ c = '-' := by
  rw [isSlug_eq] at h
  constructor
  · intro hword
    simpa [hword] using h
  · rintro rfl
    exact isWordChar_hyphen

/-- The words of a text, lowercased. -/
def wordsOf (env : Env) (name : Option Json) : List (List Char) :=
  Words.words isWordChar (env.lowercase.lower (pyStrip (pyStrOrEmpty env name)))

/-! ## Every step keeps the words -/

section Steps

open Words

variable {c : Char} {t : List Char}

/-- Outside a run the run at the head stays too, inside one only the words do. -/
theorem runs_hyphenate (t : List Char) :
    runs isWordChar (hyphenate false t) = runs isWordChar t ∧
      words isWordChar (hyphenate true t) = words isWordChar t := by
  induction t with
  | nil => exact ⟨rfl, rfl⟩
  | cons c t ih =>
    obtain ⟨hout, hin⟩ := ih
    cases hslug : isSlug c with
    | true =>
      have hkeep : runs isWordChar (c :: hyphenate false t) = runs isWordChar (c :: t) := by
        simp only [runs, hout]
      unfold hyphenate
      rw [if_pos hslug, if_pos hslug]
      exact ⟨hkeep, words_congr hkeep⟩
    | false =>
      have hword : isWordChar c = false := by
        rw [isSlug_eq] at hslug
        exact (Bool.or_eq_false_iff.1 hslug).1
      unfold hyphenate
      rw [if_neg (Bool.eq_false_iff.1 hslug), if_neg (Bool.eq_false_iff.1 hslug), if_neg Bool.false_ne_true,
        if_pos rfl]
      constructor
      · rw [runs_cons_of_neg isWordChar_hyphen, runs_cons_of_neg hword, hin]
      · rw [words_cons_of_neg hword, hin]

theorem runs_squeeze (t : List Char) :
    runs isWordChar (squeeze false t) = runs isWordChar t ∧
      words isWordChar (squeeze true t) = words isWordChar t := by
  induction t with
  | nil => exact ⟨rfl, rfl⟩
  | cons c t ih =>
    obtain ⟨hout, hin⟩ := ih
    by_cases hc : c = '-'
    · subst hc
      unfold squeeze
      rw [if_neg (by simp), if_pos (by simp)]
      constructor
      · rw [runs_cons_of_neg isWordChar_hyphen, runs_cons_of_neg isWordChar_hyphen]
        exact congrArg _ hin
      · rw [words_cons_of_neg isWordChar_hyphen, hin]
    · have hkeep : runs isWordChar (c :: squeeze false t) = runs isWordChar (c :: t) := by
        simp only [runs, hout]
      unfold squeeze
      rw [if_neg (by simp [hc]), if_neg (by simp [hc]), decide_eq_false hc]
      exact ⟨hkeep, words_congr hkeep⟩

theorem words_trimHyphens (t : List Char) :
    words isWordChar (Text.trimMatches (· = '-') t) = words isWordChar t := by
  have hword : ∀ c : Char, decide (c = '-') = true → isWordChar c = false := by
    intro c hc
    rw [of_decide_eq_true hc]
    exact isWordChar_hyphen
  obtain ⟨a, b, hab, ha, hb⟩ := Text.exists_trimMatches (fun c : Char => decide (c = '-')) t
  calc words isWordChar (Text.trimMatches (· = '-') t)
      = words isWordChar (Text.trimMatches (· = '-') t ++ b) :=
        (words_congr (runs_append_of_neg _ fun c hc => hword c (hb c hc))).symm
    _ = words isWordChar (a ++ (Text.trimMatches (· = '-') t ++ b)) :=
        (words_append_of_neg (fun c hc => hword c (ha c hc)) _).symm
    _ = words isWordChar t := by rw [← List.append_assoc, ← hab]

theorem getLast?_squeeze (hc : c ≠ '-') (t : List Char) (dash : Bool) :
    (squeeze dash (t ++ [c])).getLast? = some c := by
  induction t generalizing dash with
  | nil => simp [squeeze, hc]
  | cons d t ih =>
    rw [List.cons_append, squeeze]
    split_ifs with hskip
    · exact ih dash
    · rw [List.getLast?_cons, ih]
      rfl

theorem head?_squeeze_false (t : List Char) : (squeeze false t).head? = t.head? := by
  cases t with
  | nil => rfl
  | cons c t =>
    rw [squeeze, if_neg (by simp)]
    rfl

/-- Before the cut a name is the words of the text with single hyphens between them. -/
theorem squeeze_eq_joined (t : List Char) :
    squeeze false (Text.trimMatches (· = '-') (hyphenate false t)) = joined '-' (words isWordChar t) := by
  set trimmed := Text.trimMatches (· = '-') (hyphenate false t) with htrim
  have hslug : ∀ c ∈ trimmed, isSlug c = true := by
    obtain ⟨a, b, hab, -, -⟩ := Text.exists_trimMatches (· = '-') (hyphenate false t)
    intro c hc
    refine forall_hyphenate false t c ?_
    rw [hab]
    exact List.mem_append_left _ (List.mem_append_right _ hc)
  have hword : ∀ c ∈ trimmed, c ≠ '-' → isWordChar c = true := by
    intro c hc hne
    rw [← Bool.not_eq_false, isWordChar_eq_false (hslug c hc)]
    exact hne
  obtain ⟨hfirst, hlast⟩ := Text.trimMatches_eq_self_iff.1
    (Text.trimMatches_idem (fun c : Char => decide (c = '-')) (hyphenate false t))
  have hself : words isWordChar (squeeze false trimmed) = words isWordChar t := by
    rw [words_congr (runs_squeeze trimmed).1, words_trimHyphens, words_congr (runs_hyphenate t).1]
  rw [← hself]
  refine eq_joined_words ?_ ?_ ?_ ?_
  · intro c hc hw
    exact (isWordChar_eq_false (hslug c (mem_squeeze hc))).1 hw
  · refine (singleHyphens_squeeze false trimmed).imp_of_mem_imp fun a b ha hb hne => ?_
    rintro ⟨hwa, hwb⟩
    exact hne ⟨(isWordChar_eq_false (hslug a (mem_squeeze ha))).1 hwa,
      (isWordChar_eq_false (hslug b (mem_squeeze hb))).1 hwb⟩
  · intro c hc
    rw [head?_squeeze_false] at hc
    exact hword c (List.mem_of_head? hc) (of_decide_eq_false (hfirst c hc))
  · intro c hc
    rcases List.eq_nil_or_concat trimmed with hnil | ⟨init, d, hd⟩
    · rw [hnil] at hc
      cases hc
    · have hne : d ≠ '-' := of_decide_eq_false (hlast d (by rw [← htrim, hd]; simp))
      rw [hd, List.concat_eq_append, getLast?_squeeze hne] at hc
      cases hc
      exact hword c (by rw [hd]; simp) hne

end Steps

/-! ## The cut -/

theorem normalizeName_eq_take (v : Option Json) :
    normalizeName env v = (Words.joined '-' (wordsOf env v)).take NAME_MAX := by
  rw [wordsOf, ← squeeze_eq_joined]
  rfl

/-- No words from the first on have, with the hyphens behind them, the length of the cut
while other words follow. -/
def CutOffHyphens (env : Env) (v : Option Json) : Prop :=
  ∀ before after, wordsOf env v = before ++ after → after ≠ [] →
    (before.map (·.length + 1)).sum ≠ NAME_MAX

theorem wordsOf_spec (v : Option Json) : ∀ w ∈ wordsOf env v, w ≠ [] ∧ '-' ∉ w := by
  intro w hw
  obtain ⟨hne, hword⟩ := Words.forall_mem_words _ w hw
  refine ⟨hne, fun hdash => ?_⟩
  exact Bool.false_ne_true (isWordChar_hyphen.symm.trans (hword '-' hdash))

theorem getLast?_normalizeName (v : Option Json) :
    (normalizeName env v).getLast? = some '-' ↔ ¬ CutOffHyphens env v := by
  have hwords := @wordsOf_spec env v
  have hsep : (Words.joined '-' (wordsOf env v))[NAME_MAX - 1]? = some '-' ↔ ¬ CutOffHyphens env v := by
    rw [Words.getElem?_joined_eq_sep_iff fun w hw => (hwords w hw).2, CutOffHyphens]
    push Not
    constructor
    · rintro ⟨before, after, hw, -, hafter, hsum⟩
      exact ⟨before, after, hw, hafter, hsum⟩
    · rintro ⟨before, after, hw, hafter, hsum⟩
      refine ⟨before, after, hw, ?_, hafter, hsum⟩
      rintro rfl
      exact absurd hsum (by decide)
  rw [normalizeName_eq_take, List.getLast?_take, if_neg (by decide), ← hsep]
  constructor
  · intro h
    cases hcut : (Words.joined '-' (wordsOf env v))[NAME_MAX - 1]? with
    | none =>
      rw [hcut] at h
      exact absurd h (Words.getLast?_joined_ne_sep hwords)
    | some c =>
      rw [hcut] at h
      exact h
  · intro h
    rw [h]
    rfl

/-- The form that a stored name is looked up by. -/
structure CanonicalName (env : Env) (name : List Char) : Prop extends Normalised name where
  last : name.getLast? ≠ some '-'
  fixed : normalizeName env (some (.str name)) = name

/-- A name is canonical exactly if the cut does not come right behind a hyphen. -/
theorem canonical_normalizeName_iff (env : Env) (v : Option Json) :
    CanonicalName env (normalizeName env v) ↔ CutOffHyphens env v := by
  constructor
  · intro h
    by_contra hcut
    exact h.last ((getLast?_normalizeName v).2 hcut)
  · intro h
    have hlast : (normalizeName env v).getLast? ≠ some '-' := by
      intro hdash
      exact (getLast?_normalizeName v).1 hdash h
    have hnorm : Normalised (normalizeName env v) := normalised_normalizeName env v
    exact ⟨hnorm, hlast, normalizeName_eq_self env hnorm hlast⟩

/-- 63 letters and one more word: the cut leaves the hyphen, and the next time the
hyphen goes. -/
theorem not_canonical_normalizeName :
    let name : Option Json := some (.str (List.replicate 63 'a' ++ " b".toList))
    let stored := normalizeName asciiEnv name
    stored = List.replicate 63 'a' ++ ['-'] ∧
      normalizeName asciiEnv (some (.str stored)) = List.replicate 63 'a' ∧
      ¬ ∀ v, CanonicalName asciiEnv (normalizeName asciiEnv v) := by
  intro name stored
  have hstored : stored = List.replicate 63 'a' ++ ['-'] := by decide +kernel
  have hagain : normalizeName asciiEnv (some (.str stored)) = List.replicate 63 'a' := by decide +kernel
  refine ⟨hstored, hagain, fun h => ?_⟩
  have hfixed : normalizeName asciiEnv (some (.str stored)) = stored := (h name).fixed
  rw [hagain, hstored] at hfixed
  exact absurd (congrArg List.length hfixed) (by decide)

end Portal.Skills
