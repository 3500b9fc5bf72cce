import DgxPlatform.Lib.Framing
import Mathlib.Data.List.DropRight
import Mathlib.Data.List.Infix

/-! # Texts as lists of characters

The string operations of the Rust standard library that the portal and the
runner use, over `List Char`: the white space of `char::is_whitespace` (and of
JavaScript), the trims, the substring test and the two splits at a separator.

Unicode's lower case is a parameter (`Lowercase`): a map of texts that is the
ASCII one on ASCII texts and loses no character that has no case.
-/

namespace Text

/-- Whether a text is one of a list. -/
instance decidableMem (t : List Char) (ts : List (List Char)) : Decidable (t ∈ ts) :=
  decidable_of_iff (ts.any (fun u => decide (u = t)) = true) (by simp)

/-- `char::is_whitespace`: the characters with the Unicode property White_Space. -/
def isWhitespace (c : Char) : Bool :=
  let n := c.toNat
  (0x9 ≤ n && n ≤ 0xD) || n == 0x20 || n == 0x85 || n == 0xA0 || n == 0x1680
    || (0x2000 ≤ n && n ≤ 0x200A) || n == 0x2028 || n == 0x2029 || n == 0x202F
    || n == 0x205F || n == 0x3000

/-- What JavaScript's `trim` takes off: the same but for U+0085, and U+FEFF. -/
def isJsSpace (c : Char) : Bool :=
  (isWhitespace c && c.toNat != 0x85) || c.toNat == 0xFEFF

/-- `str::trim_end_matches` with a character test. -/
def trimEndMatches (p : Char → Bool) (t : List Char) : List Char :=
  (t.reverse.dropWhile p).reverse

/-- `str::trim_matches` with a character test. -/
def trimMatches (p : Char → Bool) (t : List Char) : List Char :=
  trimEndMatches p (t.dropWhile p)

/-- `str::trim_end`. -/
def trimEnd (t : List Char) : List Char := trimEndMatches isWhitespace t

/-- `str::trim`. -/
def trim (t : List Char) : List Char := trimMatches isWhitespace t

/-- `str::split_whitespace`. -/
def splitWhitespace (t : List Char) : List (List Char) :=
  (t.splitOnP isWhitespace).filter (· ≠ [])

/-- `str::contains` with a string pattern. -/
def contains (t pattern : List Char) : Bool := decide (pattern <:+: t)

/-- `str::split_once` with a string pattern: at its first occurrence. -/
def splitOnce (pattern : List Char) : List Char → Option (List Char × List Char)
  | [] => if pattern = [] then some ([], []) else none
  | c :: t =>
      if pattern.isPrefixOf (c :: t) then some ([], (c :: t).drop pattern.length)
      else (splitOnce pattern t).map fun r => (c :: r.1, r.2)

/-- `str::rsplit_once` with a character: at its last occurrence. -/
def rsplitOnce (c : Char) : List Char → Option (List Char × List Char)
  | [] => none
  | d :: t =>
      match rsplitOnce c t with
      | some (a, b) => some (d :: a, b)
      | none => if d = c then some ([], t) else none

/-- `str::rsplit_once` with a string pattern. -/
def rsplitOnceText (pattern : List Char) : List Char → Option (List Char × List Char)
  | [] => none
  | d :: t =>
      match rsplitOnceText pattern t with
      | some (a, b) => some (d :: a, b)
      | none =>
          if pattern.isPrefixOf (d :: t) then some ([], (d :: t).drop pattern.length) else none

/-! ## Closed texts -/

variable {t : List Char}

/-- A property of the characters of a text, checked as one test over the text. -/
theorem forall_of_all {P : Char → Prop} [DecidablePred P] (h : (t.all fun c => decide (P c)) = true) :
    ∀ c ∈ t, P c := by
  intro c hc
  exact of_decide_eq_true (List.all_eq_true.1 h c hc)

/-! ## The splits -/

/-- With a pattern that is not empty, the split is the cut at a separator. -/
theorem splitOnce_eq_cut {pattern : List Char} (hne : pattern ≠ []) (t : List Char) :
    splitOnce pattern t = Framing.cut pattern t := by
  induction t with
  | nil => exact if_neg hne
  | cons c t ih =>
    rw [splitOnce, Framing.cut, ih]
    simp only [List.isPrefixOf_iff_prefix]

theorem splitOnce_nil (t : List Char) : splitOnce [] t = some ([], t) := by
  cases t <;> rfl

theorem splitOnce_eq_some {pattern t a b : List Char} (h : splitOnce pattern t = some (a, b)) :
    t = a ++ pattern ++ b := by
  rcases eq_or_ne pattern [] with rfl | hne
  · rw [splitOnce_nil] at h
    cases h
    rfl
  · rw [splitOnce_eq_cut hne] at h
    exact Framing.eq_of_cut h

theorem splitOnce_eq_none {pattern t : List Char} : splitOnce pattern t = none ↔ ¬ pattern <:+: t := by
  rcases eq_or_ne pattern [] with rfl | hne
  · simp [splitOnce_nil]
  · rw [splitOnce_eq_cut hne, Framing.cut_eq_none_iff hne]

variable {c : Char}

theorem splitOnce_singleton {a : List Char} (h : c ∉ a) (b : List Char) :
    splitOnce [c] (a ++ c :: b) = some (a, b) := by
  rw [splitOnce_eq_cut (List.cons_ne_nil c []), List.append_cons]
  exact Framing.cut_part h b

theorem rsplitOnceText_eq_some {pattern t a b : List Char}
    (h : rsplitOnceText pattern t = some (a, b)) : t = a ++ pattern ++ b := by
  induction t generalizing a with
  | nil => cases h
  | cons d t ih =>
    unfold rsplitOnceText at h
    split at h
    · next hr =>
        cases h
        rw [ih hr]
        rfl
    · split at h
      · next hp =>
          cases h
          have hpre : pattern <+: d :: t := by simpa using hp
          exact (List.prefix_iff_eq_append.1 hpre).symm
      · cases h

theorem rsplitOnceText_eq_none {pattern t : List Char} (hne : pattern ≠ []) :
    rsplitOnceText pattern t = none ↔ ¬ pattern <:+: t := by
  induction t with
  | nil => simp [rsplitOnceText, hne]
  | cons d t ih =>
    unfold rsplitOnceText
    rw [List.infix_cons_iff]
    cases hr : rsplitOnceText pattern t with
    | some r =>
      have hin : pattern <:+: t := by
        by_contra hc
        rw [ih.2 hc] at hr
        cases hr
      simp [hin]
    | none =>
      have hnot : ¬ pattern <:+: t := ih.1 hr
      by_cases hpre : pattern <+: d :: t
      · simp [hpre]
      · simp [hpre, hnot]

/-- Behind the last occurrence there is none, not even one that overlaps it. -/
theorem rsplitOnceText_last {pattern t a b : List Char} (hne : pattern ≠ [])
    (h : rsplitOnceText pattern t = some (a, b)) : ¬ pattern <:+: (pattern ++ b).tail := by
  induction t generalizing a with
  | nil => cases h
  | cons d t ih =>
    have heq := rsplitOnceText_eq_some h
    unfold rsplitOnceText at h
    split at h
    · next hr =>
        cases h
        exact ih hr
    · next hr =>
        split at h
        · cases h
          rw [List.nil_append] at heq
          rw [← heq]
          exact (rsplitOnceText_eq_none hne).1 hr
        · cases h

theorem rsplitOnce_eq_text (c : Char) (t : List Char) : rsplitOnce c t = rsplitOnceText [c] t := by
  induction t with
  | nil => rfl
  | cons d t ih =>
    rw [rsplitOnce, rsplitOnceText, ih]
    cases rsplitOnceText [c] t with
    | some r => rfl
    | none =>
      by_cases h : d = c
      · simp [h]
      · simp [h, Ne.symm h]

theorem rsplitOnce_eq_none : rsplitOnce c t = none ↔ c ∉ t := by
  rw [rsplitOnce_eq_text, rsplitOnceText_eq_none (List.cons_ne_nil c []), List.singleton_infix_iff]

theorem rsplitOnce_eq_some {t a b : List Char} (h : rsplitOnce c t = some (a, b)) :
    t = a ++ c :: b ∧ c ∉ b := by
  rw [rsplitOnce_eq_text] at h
  constructor
  · rw [rsplitOnceText_eq_some h, List.append_assoc]
    rfl
  · exact fun hb => rsplitOnceText_last (List.cons_ne_nil c []) h ((List.singleton_infix_iff c b).2 hb)

theorem rsplitOnce_append {a b : List Char} (hb : c ∉ b) : rsplitOnce c (a ++ c :: b) = some (a, b) := by
  induction a with
  | nil => simp [rsplitOnce, rsplitOnce_eq_none.2 hb]
  | cons d a ih => simp [rsplitOnce, ih]

/-! ## Joined texts -/

section Joined

variable {sep : List Char} {ls : List (List Char)}

theorem intercalate_concat (hne : ls ≠ []) (l : List Char) :
    sep.intercalate (ls ++ [l]) = sep.intercalate ls ++ sep ++ l := by
  induction ls with
  | nil => exact absurd rfl hne
  | cons x ls ih =>
    cases ls with
    | nil =>
      rw [List.singleton_append, List.intercalate_cons_cons, List.intercalate_singleton, List.intercalate_singleton]
    | cons y ls =>
      rw [List.cons_append, List.cons_append, List.intercalate_cons_cons, ← List.cons_append,
        ih (List.cons_ne_nil y ls), List.intercalate_cons_cons]
      simp only [List.append_assoc]

/-- Of a joined text, each character is one of its pieces or the sign between them. -/
theorem mem_intercalate {d : Char} (h : c ∈ [d].intercalate ls) : c = d ∨ ∃ l ∈ ls, c ∈ l := by
  induction ls with
  | nil => cases h
  | cons l ls ih =>
    cases ls with
    | nil =>
      rw [List.intercalate_singleton] at h
      exact .inr ⟨l, List.mem_cons_self, h⟩
    | cons m ls =>
      rw [List.intercalate_cons_cons, List.append_assoc, List.mem_append, List.singleton_append, List.mem_cons] at h
      rcases h with h | h | h
      · exact .inr ⟨l, List.mem_cons_self, h⟩
      · exact .inl h
      · exact (ih h).imp_right fun ⟨q, hq, hc⟩ => ⟨q, List.mem_cons_of_mem l hq, hc⟩

end Joined

/-! ## The end of a text -/

variable {p : Char → Bool}

theorem trimEndMatches_append_cons {a b : List Char}
    (hc : p c = false) : trimEndMatches p (a ++ c :: b) = a ++ c :: trimEndMatches p b := by
  have hrev : (a ++ c :: b).reverse = b.reverse ++ (c :: a.reverse) := by simp
  unfold trimEndMatches
  rw [hrev, List.dropWhile_append]
  split
  · next hall =>
      have hnil : List.dropWhile p b.reverse = [] := by simpa using hall
      simp [hc, hnil]
  · simp

/-- Nothing is trimmed before or inside a block whose characters all stay. -/
theorem trimEndMatches_append_block {a m b : List Char} (hne : m ≠ []) (hm : ∀ c ∈ m, p c = false) :
    trimEndMatches p (a ++ m ++ b) = a ++ m ++ trimEndMatches p b := by
  rcases List.eq_nil_or_concat m with rfl | ⟨m', c, rfl⟩
  · exact absurd rfl hne
  · have hc : p c = false := hm c (by simp)
    have hcons := trimEndMatches_append_cons (a := a ++ m') (b := b) hc
    simpa using hcons

theorem trimEndMatches_isPrefix (p : Char → Bool) (t : List Char) : trimEndMatches p t <+: t := by
  unfold trimEndMatches
  rw [← List.reverse_suffix, List.reverse_reverse]
  exact List.dropWhile_suffix p

/-! ## Trimmed texts -/

/-- A text is what its trim leaves between two runs of trimmed characters. -/
theorem exists_trimMatches (p : Char → Bool) (t : List Char) :
    ∃ a b, t = a ++ trimMatches p t ++ b ∧ (∀ c ∈ a, p c = true) ∧ ∀ c ∈ b, p c = true := by
  refine ⟨t.takeWhile p, (t.dropWhile p).rtakeWhile p, ?_, ?_, ?_⟩
  · have hend : trimMatches p t ++ (t.dropWhile p).rtakeWhile p = t.dropWhile p :=
      List.rdropWhile_append_rtakeWhile
    rw [List.append_assoc, hend, List.takeWhile_append_dropWhile]
  · intro c hc
    exact List.mem_takeWhile_imp hc
  · intro c hc
    exact List.mem_rtakeWhile_imp hc

theorem length_trimMatches_le (p : Char → Bool) (t : List Char) : (trimMatches p t).length ≤ t.length :=
  (trimEndMatches_isPrefix p _).length_le.trans (List.dropWhile_suffix p).length_le

theorem trimMatches_idem (p : Char → Bool) (t : List Char) :
    trimMatches p (trimMatches p t) = trimMatches p t := by
  -- what is left starts with the character the first trim stopped at
  have hstart : (trimMatches p t).dropWhile p = trimMatches p t := by
    cases hm : trimMatches p t with
    | nil => rfl
    | cons c m =>
      obtain ⟨r, hr⟩ := trimEndMatches_isPrefix p (t.dropWhile p)
      have hhead : t.dropWhile p = c :: (m ++ r) := by
        rw [← hr]
        exact congrArg (· ++ r) hm
      have hc : p c = false := by
        have hnot := List.head_dropWhile_not p (l := t) (by rw [hhead]; exact List.cons_ne_nil _ _)
        simpa [hhead] using hnot
      exact List.dropWhile_cons_of_neg (by simp [hc])
  have hend : trimEndMatches p (trimMatches p t) = trimMatches p t :=
    List.rdropWhile_idempotent p _
  calc trimMatches p (trimMatches p t)
      = trimEndMatches p ((trimMatches p t).dropWhile p) := rfl
    _ = trimMatches p t := by rw [hstart, hend]

theorem trimMatches_eq_self_iff :
    trimMatches p t = t ↔ (∀ c ∈ t.head?, p c = false) ∧ ∀ c ∈ t.getLast?, p c = false := by
  have hstart : t.dropWhile p = t ↔ ∀ c ∈ t.head?, p c = false := by
    cases t with
    | nil => simp
    | cons c t =>
      rw [List.dropWhile_eq_self_iff]
      simp
  have hend : trimEndMatches p t = t ↔ ∀ c ∈ t.getLast?, p c = false := by
    rcases List.eq_nil_or_concat t with rfl | ⟨t, c, rfl⟩
    · simp [trimEndMatches]
    · show List.rdropWhile p _ = _ ↔ _
      rw [List.rdropWhile_eq_self_iff]
      simp
  rw [← hstart, ← hend]
  constructor
  · intro h
    have hle := (trimEndMatches_isPrefix p (t.dropWhile p)).length_le
    have hlen : (trimEndMatches p (t.dropWhile p)).length = t.length := congrArg List.length h
    have hdrop : t.dropWhile p = t :=
      (List.dropWhile_suffix p).eq_of_length_le (by omega)
    refine ⟨hdrop, ?_⟩
    calc trimEndMatches p t
        = trimEndMatches p (t.dropWhile p) := by rw [hdrop]
      _ = t := h
  · rintro ⟨hdrop, htrim⟩
    calc trimMatches p t
        = trimEndMatches p (t.dropWhile p) := rfl
      _ = t := by rw [hdrop, htrim]

theorem trimMatches_of_forall (h : ∀ c ∈ t, p c = false) : trimMatches p t = t := by
  have hstart : t.dropWhile p = t := by
    cases t with
    | nil => rfl
    | cons c t => exact List.dropWhile_cons_of_neg (by simp [h c])
  rcases t with _ | ⟨c, t⟩
  · rfl
  · have hblock := trimEndMatches_append_block (a := []) (b := []) (List.cons_ne_nil c t) h
    unfold trimMatches
    rw [hstart]
    simpa [trimEndMatches] using hblock

/-- The trimmed characters around a trimmed text are trimmed away. -/
theorem trimMatches_pad {a t b : List Char} (ht : trimMatches p t = t)
    (ha : ∀ c ∈ a, p c = true) (hb : ∀ c ∈ b, p c = true) : trimMatches p (a ++ t ++ b) = t := by
  have hstart : (a ++ t ++ b).dropWhile p = (t ++ b).dropWhile p := by
    rw [List.append_assoc, List.dropWhile_append_of_pos (by simpa using ha)]
  rcases t with _ | ⟨c, t⟩
  · have hall : ([] ++ b).dropWhile p = [] := List.dropWhile_eq_nil_iff.2 (by simpa using hb)
    rw [trimMatches, hstart, hall]
    rfl
  · have hc : p c = false := (trimMatches_eq_self_iff.1 ht).1 c rfl
    have hstay : (c :: t ++ b).dropWhile p = c :: t ++ b := List.dropWhile_cons_of_neg (by simp [hc])
    have hone : (c :: t).dropWhile p = c :: t := List.dropWhile_cons_of_neg (by simp [hc])
    have hend : trimEndMatches p (c :: t ++ b) = trimEndMatches p (c :: t) := by
      unfold trimEndMatches
      rw [List.reverse_append, List.dropWhile_append_of_pos (by simpa using hb)]
    calc trimMatches p (a ++ (c :: t) ++ b)
        = trimEndMatches p (c :: t) := by rw [trimMatches, hstart, hstay, hend]
      _ = trimMatches p (c :: t) := by rw [trimMatches, hone]
      _ = c :: t := ht

theorem trimEndMatches_of_all (h : ∀ c ∈ t, p c = true) : trimEndMatches p t = [] := by
  unfold trimEndMatches
  rw [List.dropWhile_eq_nil_iff.2 (by simpa using h), List.reverse_nil]

/-! ## Characters -/

theorem toNat_of_isAlphanum (h : c.isAlphanum = true) :
    (65 ≤ c.toNat ∧ c.toNat ≤ 90 ∨ 97 ≤ c.toNat ∧ c.toNat ≤ 122) ∨
      48 ≤ c.toNat ∧ c.toNat ≤ 57 := by
  have hrange : ∀ lo hi : Char, lo.val ≤ c.val ∧ c.val ≤ hi.val →
      lo.toNat ≤ c.toNat ∧ c.toNat ≤ hi.toNat := by
    intro lo hi h
    rw [UInt32.le_iff_toNat_le, UInt32.le_iff_toNat_le] at h
    exact h
  have hcases : ((c.isUpper || c.isLower) || c.isDigit) = true := h
  rw [Bool.or_eq_true, Bool.or_eq_true] at hcases
  rcases hcases with (h | h) | h
  · exact .inl (.inl (hrange 'A' 'Z' (of_decide_eq_true h)))
  · have hlower := (Bool.and_eq_true _ _).mp h
    exact .inl (.inr (hrange 'a' 'z' ⟨of_decide_eq_true hlower.1, of_decide_eq_true hlower.2⟩))
  · have hdigit := (Bool.and_eq_true _ _).mp h
    exact .inr (hrange '0' '9' ⟨of_decide_eq_true hdigit.1, of_decide_eq_true hdigit.2⟩)

/-! ## Splits -/

theorem of_mem_splitOnP {t w : List Char} (h : w ∈ t.splitOnP p) : ∀ c ∈ w, c ∈ t ∧ p c = false := by
  induction t generalizing w with
  | nil =>
    rw [List.splitOnP_nil, List.mem_singleton] at h
    subst h
    intro c hc
    cases hc
  | cons x t ih =>
    have hrest : ∀ w ∈ t.splitOnP p, ∀ c ∈ w, c ∈ x :: t ∧ p c = false := by
      intro w hw c hc
      exact ⟨List.mem_cons_of_mem x (ih hw c hc).1, (ih hw c hc).2⟩
    rw [List.splitOnP_cons_eq_if_modifyHead] at h
    split at h
    · rcases List.mem_cons.1 h with rfl | h
      · intro c hc
        cases hc
      · exact hrest w h
    · next hx =>
        obtain ⟨first, rest, hsplit⟩ := List.exists_cons_of_ne_nil (List.splitOnP_ne_nil p t)
        rw [hsplit] at hrest
        rw [hsplit, List.modifyHead_cons] at h
        rcases List.mem_cons.1 h with rfl | h
        · intro c hc
          rcases List.mem_cons.1 hc with rfl | hc
          · exact ⟨List.mem_cons_self, Bool.eq_false_iff.2 hx⟩
          · exact hrest first List.mem_cons_self c hc
        · exact hrest w (List.mem_cons_of_mem _ h)

/-! ## Lower case -/

/-- Every character is ASCII. -/
def IsAscii (t : List Char) : Prop := ∀ c ∈ t, c.toNat < 128

instance (t : List Char) : Decidable (IsAscii t) :=
  List.decidableBAll (fun c : Char => c.toNat < 128) t

/-- `str::to_lowercase`. -/
structure Lowercase where
  lower : List Char → List Char
  ascii : ∀ t, IsAscii t → lower t = t.map Char.toLower
  keeps : ∀ t c, c ∈ t → c.toNat < 128 → c.toLower = c → c ∈ lower t

/-- The lower case of ASCII letters, other characters left alone
(`str::to_ascii_lowercase`). -/
def asciiLowercase : Lowercase where
  lower := List.map Char.toLower
  ascii _ _ := rfl
  keeps _ c hc _ hlow := List.mem_map.2 ⟨c, hc, hlow⟩

end Text
