import DgxPlatform.Lib.Text
import Mathlib.Algebra.Order.Group.Nat

/-! # Trims of concatenations

A text is put together from pieces, and each piece loses some trimmed characters at its
two ends before. The trim of the whole does not notice exactly when what is lost lies
before the first or behind the last character that counts (`trim_whole_eq_iff`).
-/

namespace Text

variable {p : Char → Bool}

/-- A character that a trim stops at. -/
def Solid (p : Char → Bool) (t : List Char) : Prop := ∃ c ∈ t, p c = false

theorem not_solid {t : List Char} : ¬ Solid p t ↔ ∀ c ∈ t, p c = true := by
  simp [Solid]

theorem solid_append {a b : List Char} : Solid p (a ++ b) ↔ Solid p a ∨ Solid p b := by
  simp [Solid, or_and_right, exists_or]

/-! ## One append -/

theorem trimEndMatches_append_of_all {a b : List Char} (hb : ∀ c ∈ b, p c = true) :
    trimEndMatches p (a ++ b) = trimEndMatches p a := by
  unfold trimEndMatches
  rw [List.reverse_append, List.dropWhile_append_of_pos (by simpa using hb)]

theorem trimEndMatches_append_of_solid {a b : List Char} (hb : Solid p b) :
    trimEndMatches p (a ++ b) = a ++ trimEndMatches p b := by
  obtain ⟨c, hc, hp⟩ := hb
  obtain ⟨b₁, b₂, rfl⟩ := List.append_of_mem hc
  have hsplit : a ++ (b₁ ++ c :: b₂) = (a ++ b₁) ++ c :: b₂ := by simp
  rw [hsplit, trimEndMatches_append_cons hp, trimEndMatches_append_cons hp]
  simp

theorem dropWhile_append_of_solid {a b : List Char} (ha : Solid p a) :
    (a ++ b).dropWhile p = a.dropWhile p ++ b := by
  have hne : a.dropWhile p ≠ [] := by
    intro hnil
    exact not_solid.2 (fun c hc => List.dropWhile_eq_nil_iff.1 hnil c hc) ha
  rw [List.dropWhile_append, if_neg (by simpa using hne)]

theorem solid_dropWhile {t : List Char} : Solid p (t.dropWhile p) ↔ Solid p t := by
  have hsplit := solid_append (p := p) (a := t.takeWhile p) (b := t.dropWhile p)
  rw [List.takeWhile_append_dropWhile] at hsplit
  rw [hsplit]
  refine ⟨Or.inr, fun h => h.resolve_left ?_⟩
  exact not_solid.2 fun c hc => List.mem_takeWhile_imp hc

theorem countP_trimMatches (t : List Char) :
    (trimMatches p t).countP (fun c => !p c) = t.countP fun c => !p c := by
  obtain ⟨a, b, ht, ha, hb⟩ := exists_trimMatches p t
  have hzero : ∀ u : List Char, (∀ c ∈ u, p c = true) → u.countP (fun c => !p c) = 0 := by
    intro u hu
    exact List.countP_eq_zero.2 fun c hc => by simp [hu c hc]
  calc (trimMatches p t).countP (fun c => !p c)
      = (a ++ trimMatches p t ++ b).countP fun c => !p c := by
        rw [List.countP_append, List.countP_append, hzero a ha, hzero b hb]
        omega
    _ = t.countP fun c => !p c := by rw [← ht]

/-! ## Pieces -/

/-- A piece: what it keeps, and what it loses before and behind. -/
structure Piece where
  before : List Char
  kept : List Char
  behind : List Char

def Piece.whole (x : Piece) : List Char := x.before ++ x.kept ++ x.behind

/-- Only trimmed characters are lost, and only around one that counts. -/
structure Piece.Loose (p : Char → Bool) (x : Piece) : Prop where
  before : ∀ c ∈ x.before, p c = true
  behind : ∀ c ∈ x.behind, p c = true
  solid : x.before ≠ [] ∨ x.behind ≠ [] → Solid p x.kept

/-- What is lost lies outside: before nothing that counts (`started` says that something
has come already), or behind everything that counts. -/
def Outer (p : Char → Bool) : Prop → List Piece → Prop
  | _, [] => True
  | started, x :: rest =>
      (started → x.before = []) ∧ (x.behind ≠ [] → ∀ y ∈ rest, ¬ Solid p y.kept) ∧
        Outer p (started ∨ Solid p x.kept) rest

variable {xs : List Piece}

theorem whole_eq_kept (hloose : ∀ x ∈ xs, x.Loose p) (h : ∀ x ∈ xs, ¬ Solid p x.kept) :
    xs.flatMap Piece.whole = xs.flatMap Piece.kept := by
  refine List.flatMap_congr fun x hx => ?_
  have hsolid := fun hor => h x hx ((hloose x hx).solid hor)
  have hbefore : x.before = [] := by_contra fun hb => hsolid (Or.inl hb)
  have hbehind : x.behind = [] := by_contra fun hb => hsolid (Or.inr hb)
  simp [Piece.whole, hbefore, hbehind]

theorem solid_flatMap {f : Piece → List Char} :
    Solid p (xs.flatMap f) ↔ ∃ x ∈ xs, Solid p (f x) := by
  constructor
  · rintro ⟨c, hc, hp⟩
    obtain ⟨x, hx, hcx⟩ := List.mem_flatMap.1 hc
    exact ⟨x, hx, c, hcx, hp⟩
  · rintro ⟨x, hx, c, hcx, hp⟩
    exact ⟨c, List.mem_flatMap.2 ⟨x, hx, hcx⟩, hp⟩

theorem Piece.Loose.solid_whole {x : Piece} (h : x.Loose p) :
    Solid p x.whole ↔ Solid p x.kept := by
  rw [Piece.whole, solid_append, solid_append]
  refine ⟨?_, fun hk => Or.inl (Or.inr hk)⟩
  rintro ((hb | hk) | hb)
  · exact absurd hb (not_solid.2 h.before)
  · exact hk
  · exact absurd hb (not_solid.2 h.behind)

theorem outer_of_not_solid (hloose : ∀ x ∈ xs, x.Loose p) (h : ∀ x ∈ xs, ¬ Solid p x.kept)
    (started : Prop) : Outer p started xs := by
  induction xs generalizing started with
  | nil => trivial
  | cons x xs ih =>
    have hx := h x List.mem_cons_self
    refine ⟨fun _ => ?_, fun _ y hy => h y (List.mem_cons_of_mem _ hy), ?_⟩
    · by_contra hb
      exact hx ((hloose x List.mem_cons_self).solid (Or.inl hb))
    · exact ih (fun y hy => hloose y (List.mem_cons_of_mem _ hy))
        (fun y hy => h y (List.mem_cons_of_mem _ hy)) _

/-- Behind a character that counts, the two trims agree when nothing is lost up to the
last one. -/
theorem trimEnd_whole_eq_iff (hloose : ∀ x ∈ xs, x.Loose p) :
    (trimEndMatches p (xs.flatMap Piece.whole)).length
        ≥ (trimEndMatches p (xs.flatMap Piece.kept)).length ∧
      (trimEndMatches p (xs.flatMap Piece.whole) = trimEndMatches p (xs.flatMap Piece.kept) ↔
        Outer p True xs) := by
  induction xs with
  | nil => exact ⟨Nat.le_refl _, iff_of_true rfl trivial⟩
  | cons x xs ih =>
    have hx := hloose x List.mem_cons_self
    have hxs : ∀ y ∈ xs, y.Loose p := fun y hy => hloose y (List.mem_cons_of_mem _ hy)
    obtain ⟨hlen, hiff⟩ := ih hxs
    simp only [List.flatMap_cons, Outer, true_or, forall_const]
    by_cases hrest : ∃ y ∈ xs, Solid p y.kept
    · -- the last character that counts comes later
      have hkept : Solid p (xs.flatMap Piece.kept) := solid_flatMap.2 hrest
      have hwhole : Solid p (xs.flatMap Piece.whole) := by
        obtain ⟨y, hy, hsolid⟩ := hrest
        exact solid_flatMap.2 ⟨y, hy, (hxs y hy).solid_whole.2 hsolid⟩
      rw [trimEndMatches_append_of_solid hwhole, trimEndMatches_append_of_solid hkept]
      refine ⟨by simp only [Piece.whole, List.length_append]; omega, ?_⟩
      constructor
      · intro heq
        have hlens := congrArg List.length heq
        simp only [Piece.whole, List.length_append] at hlens
        have hbefore : x.before = [] := List.eq_nil_of_length_eq_zero (by omega)
        have hbehind : x.behind = [] := List.eq_nil_of_length_eq_zero (by omega)
        refine ⟨hbefore, fun hne => absurd hbehind hne, ?_⟩
        rw [← hiff]
        simpa [Piece.whole, hbefore, hbehind] using heq
      · rintro ⟨hbefore, hbehind, houter⟩
        have hbehind : x.behind = [] := by
          by_contra hne
          obtain ⟨y, hy, hsolid⟩ := hrest
          exact hbehind hne y hy hsolid
        rw [hiff.2 houter]
        simp [Piece.whole, hbefore, hbehind]
    · have hnone : ∀ y ∈ xs, ¬ Solid p y.kept := by simpa using hrest
      have htail : ∀ c ∈ xs.flatMap Piece.kept, p c = true := by
        refine not_solid.1 fun hs => hrest (solid_flatMap.1 hs)
      rw [whole_eq_kept hxs hnone, trimEndMatches_append_of_all htail,
        trimEndMatches_append_of_all htail]
      have houter : Outer p True xs := outer_of_not_solid hxs hnone True
      by_cases hsolid : Solid p x.kept
      · have htrim : trimEndMatches p x.whole = x.before ++ trimEndMatches p x.kept := by
          rw [Piece.whole, trimEndMatches_append_of_all hx.behind,
            trimEndMatches_append_of_solid hsolid]
        rw [htrim]
        refine ⟨by simp, ?_⟩
        rw [List.append_left_eq_self]
        exact ⟨fun hb => ⟨hb, fun _ => hnone, houter⟩, fun h => h.1⟩
      · have hbefore : x.before = [] := by_contra fun hb => hsolid (hx.solid (Or.inl hb))
        have hbehind : x.behind = [] := by_contra fun hb => hsolid (hx.solid (Or.inr hb))
        have hwhole : x.whole = x.kept := by simp [Piece.whole, hbefore, hbehind]
        rw [hwhole]
        exact ⟨Nat.le_refl _, iff_of_true rfl ⟨hbefore, fun _ => hnone, houter⟩⟩

theorem trim_whole_eq_iff (hloose : ∀ x ∈ xs, x.Loose p) :
    trimMatches p (xs.flatMap Piece.whole) = trimMatches p (xs.flatMap Piece.kept) ↔
      Outer p False xs := by
  induction xs with
  | nil => exact iff_of_true rfl trivial
  | cons x xs ih =>
    have hx := hloose x List.mem_cons_self
    have hxs : ∀ y ∈ xs, y.Loose p := fun y hy => hloose y (List.mem_cons_of_mem _ hy)
    simp only [List.flatMap_cons, Outer, false_or, false_implies, true_and]
    by_cases hsolid : Solid p x.kept
    · -- the first character that counts is in this piece
      let y : Piece := ⟨[], x.kept.dropWhile p, x.behind⟩
      have hy : y.Loose p :=
        ⟨fun c hc => absurd hc List.not_mem_nil, hx.behind, fun _ => solid_dropWhile.2 hsolid⟩
      have hwhole : (x.whole ++ xs.flatMap Piece.whole).dropWhile p
          = (y :: xs).flatMap Piece.whole := by
        have hstart : x.whole ++ xs.flatMap Piece.whole
            = x.before ++ (x.kept ++ (x.behind ++ xs.flatMap Piece.whole)) := by
          simp [Piece.whole]
        rw [hstart, List.dropWhile_append_of_pos hx.before, dropWhile_append_of_solid hsolid]
        simp [y, Piece.whole]
      have hkept : (x.kept ++ xs.flatMap Piece.kept).dropWhile p
          = (y :: xs).flatMap Piece.kept := by
        rw [dropWhile_append_of_solid hsolid]
        simp [y]
      have hsolid' : Solid p y.kept := solid_dropWhile.2 hsolid
      have hiff := (@trimEnd_whole_eq_iff p (y :: xs) (by
        simpa using ⟨hy, hxs⟩)).2
      unfold trimMatches
      rw [hwhole, hkept, hiff]
      simp [Outer, hsolid, y]
    · have hbefore : x.before = [] := by_contra fun hb => hsolid (hx.solid (Or.inl hb))
      have hbehind : x.behind = [] := by_contra fun hb => hsolid (hx.solid (Or.inr hb))
      have hwhole : x.whole = x.kept := by simp [Piece.whole, hbefore, hbehind]
      have hall := not_solid.1 hsolid
      unfold trimMatches
      rw [hwhole, List.dropWhile_append_of_pos hall, List.dropWhile_append_of_pos hall]
      have hstarted : (Solid p x.kept) = False := by simpa using hsolid
      rw [hstarted]
      exact (ih hxs).trans ⟨fun h => ⟨fun hne => absurd hbehind hne, h⟩, fun h => h.2⟩

end Text
