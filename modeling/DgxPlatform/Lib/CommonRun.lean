import Mathlib.Data.List.Basic
import Mathlib.Tactic.Common

/-! # Common runs of two lists

`ending a b alo blo i j` counts the equal pairs that end before place `i` of the one list and
place `j` of the other, not going back behind two bounds: one row of these numbers gives the
next. The largest of all is the longest common run.

* `le_ending_iff`: a run of a length ends there exactly if the number is as large.
* `foldl_pick_first`: taking what is strictly larger keeps the first of the largest.
-/

namespace CommonRun

variable {α : Type} {a b : List α} {alo blo i j k : Nat}

/-- The same `k` elements from place `i` and from place `j` on. -/
def Match (a b : List α) (i j k : Nat) : Prop := ∀ t < k, i + t < a.length ∧ a[i + t]? = b[j + t]?

theorem Match.lt_length (h : Match a b i j k) {t : Nat} (ht : t < k) :
    i + t < a.length ∧ j + t < b.length := by
  obtain ⟨hlt, heq⟩ := h t ht
  refine ⟨hlt, ?_⟩
  by_contra hge
  rw [List.getElem?_eq_getElem hlt, List.getElem?_eq_none (by omega)] at heq
  cases heq

theorem Match.le_length (h : Match a b i j k) (hk : 0 < k) : i + k ≤ a.length ∧ j + k ≤ b.length := by
  have hlast := h.lt_length (t := k - 1) (by omega)
  omega

theorem match_zero : Match a b i j 0 := fun _ ht => absurd ht (Nat.not_lt_zero _)

theorem match_succ : Match a b i j (k + 1) ↔ Match a b i j k ∧ i + k < a.length ∧ a[i + k]? = b[j + k]? := by
  constructor
  · intro h
    exact ⟨fun t ht => h t (by omega), h k (by omega)⟩
  · rintro ⟨h, hlast⟩ t ht
    rcases Nat.lt_succ_iff_lt_or_eq.1 ht with hlt | rfl
    · exact h t hlt
    · exact hlast

theorem Match.take_eq (h : Match a b i j k) : (a.drop i).take k = (b.drop j).take k := by
  refine List.ext_getElem? fun t => ?_
  rw [List.getElem?_take, List.getElem?_take]
  split_ifs with ht
  · rw [List.getElem?_drop, List.getElem?_drop]
    exact (h t ht).2
  · rfl

theorem Match.append {k' : Nat} (h : Match a b i j k) (h' : Match a b (i + k) (j + k) k') :
    Match a b i j (k + k') := by
  intro t ht
  rcases Nat.lt_or_ge t k with hlt | hge
  · exact h t hlt
  · have hrest := h' (t - k) (by omega)
    have hi : i + k + (t - k) = i + t := by omega
    have hj : j + k + (t - k) = j + t := by omega
    rwa [hi, hj] at hrest

section Ending

variable [DecidableEq α]

/-- How many pairs before `i` and `j` are equal in a row. -/
def ending (a b : List α) (alo blo : Nat) : Nat → Nat → Nat
  | i + 1, j + 1 =>
      if alo ≤ i ∧ blo ≤ j ∧ i < a.length ∧ a[i]? = b[j]? then ending a b alo blo i j + 1 else 0
  | _, _ => 0

theorem le_ending_iff :
    k ≤ ending a b alo blo i j ↔
      k = 0 ∨ (alo + k ≤ i ∧ blo + k ≤ j ∧ Match a b (i - k) (j - k) k) := by
  fun_induction ending a b alo blo i j generalizing k with
  | case1 i j hpair ih =>
    obtain ⟨hi, hj, hlt, heq⟩ := hpair
    cases k with
    | zero => simp
    | succ k =>
      have hi' : i + 1 - (k + 1) = i - k := by omega
      have hj' : j + 1 - (k + 1) = j - k := by omega
      rw [Nat.add_le_add_iff_right, ih, hi', hj', match_succ]
      constructor
      · rintro (rfl | ⟨hik, hjk, hmatch⟩)
        · exact .inr ⟨by omega, by omega, match_zero, hlt, heq⟩
        · have hlast : i - k + k = i ∧ j - k + k = j := by omega
          rw [hlast.1, hlast.2]
          exact .inr ⟨by omega, by omega, hmatch, hlt, heq⟩
      · rintro (hzero | ⟨hik, hjk, hmatch, -⟩)
        · exact absurd hzero (Nat.succ_ne_zero k)
        · exact .inr ⟨by omega, by omega, hmatch⟩
  | case2 i j hpair =>
    cases k with
    | zero => simp
    | succ k =>
      constructor
      · intro h
        omega
      · rintro (hzero | ⟨hik, hjk, hmatch⟩)
        · exact absurd hzero (Nat.succ_ne_zero k)
        · -- the last pair of the run is the one that the table has refused
          have hlast := hmatch k (Nat.lt_succ_self k)
          have hi' : i + 1 - (k + 1) + k = i := by omega
          have hj' : j + 1 - (k + 1) + k = j := by omega
          rw [hi', hj'] at hlast
          exact absurd ⟨by omega, by omega, hlast.1, hlast.2⟩ hpair
  | case3 i j hno =>
    constructor
    · intro h
      exact .inl (Nat.le_zero.1 h)
    · rintro (rfl | ⟨hik, hjk, -⟩)
      · exact Nat.le_refl 0
      · cases i with
        | zero => omega
        | succ i =>
          cases j with
          | zero => omega
          | succ j => exact absurd rfl (hno i j rfl)

end Ending

/-! ## The first of the largest -/

section Pick

variable {β : Type} {size : β → Nat} {best m : β} {l : List β}

/-- What is strictly larger takes the place of the best so far. -/
def pick (size : β → Nat) (best m : β) : β := if size m > size best then m else best

theorem size_le_pick : size best ≤ size (pick size best m) ∧ size m ≤ size (pick size best m) := by
  unfold pick
  split_ifs <;> constructor <;> omega

theorem le_foldl_pick :
    size best ≤ size (l.foldl (pick size) best) ∧ ∀ m ∈ l, size m ≤ size (l.foldl (pick size) best) := by
  induction l generalizing best with
  | nil => exact ⟨Nat.le_refl _, fun _ hm => absurd hm List.not_mem_nil⟩
  | cons x l ih =>
    obtain ⟨hbest, hx⟩ := @size_le_pick _ size best x
    obtain ⟨hle, hall⟩ := @ih (pick size best x)
    rw [List.foldl_cons]
    exact ⟨Nat.le_trans hbest hle, List.forall_mem_cons.2 ⟨Nat.le_trans hx hle, hall⟩⟩

theorem foldl_pick_mem : l.foldl (pick size) best = best ∨ l.foldl (pick size) best ∈ l := by
  induction l generalizing best with
  | nil => exact .inl rfl
  | cons x l ih =>
    rw [List.foldl_cons]
    rcases @ih (pick size best x) with heq | hmem
    · rw [heq]
      unfold pick
      split_ifs
      · exact .inr List.mem_cons_self
      · exact .inl rfl
    · exact .inr (List.mem_cons_of_mem x hmem)

theorem foldl_pick_eq (h : size (l.foldl (pick size) best) = size best) :
    l.foldl (pick size) best = best := by
  induction l generalizing best with
  | nil => rfl
  | cons x l ih =>
    have hsame : pick size best x = best := by
      refine if_neg ?_
      have hx := (@le_foldl_pick _ size best (x :: l)).2 x List.mem_cons_self
      omega
    rw [List.foldl_cons, hsame] at h ⊢
    exact ih h

theorem foldl_pick_first {R : β → β → Prop} (h : l.Pairwise R) (hm : m ∈ l) (hbest : size best < size m)
    (heq : size m = size (l.foldl (pick size) best)) :
    l.foldl (pick size) best = m ∨ R (l.foldl (pick size) best) m := by
  induction l generalizing best with
  | nil => exact absurd hm List.not_mem_nil
  | cons x l ih =>
    obtain ⟨hx, hl⟩ := List.pairwise_cons.1 h
    have hle := (@le_foldl_pick _ size (pick size best x) l).1
    rw [List.foldl_cons] at heq ⊢
    rcases List.mem_cons.1 hm with rfl | hml
    · have hpick : pick size best m = m := if_pos hbest
      rw [hpick] at heq ⊢
      exact .inl (foldl_pick_eq heq.symm)
    · rcases Nat.lt_or_ge (size (pick size best x)) (size m) with hlt | hge
      · exact ih hl hml hlt heq
      · -- the head is as large already, so it is the one that stays
        have hpick : pick size best x = x := by
          refine if_pos ?_
          by_contra hsmall
          rw [pick, if_neg hsmall] at hge
          omega
        have hstays : l.foldl (pick size) (pick size best x) = pick size best x :=
          foldl_pick_eq (by omega)
        rw [hstays, hpick]
        exact .inr (hx m hml)

end Pick

end CommonRun
