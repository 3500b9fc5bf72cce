import Mathlib.Algebra.BigOperators.Group.List.Basic
import Mathlib.Algebra.Order.Monoid.Defs
import Mathlib.Data.List.Dedup
import Mathlib.Tactic.Abel

/-! # Grouping a list

The groups of a list by a key, as `GROUP BY` makes them. What is summed within the groups
and then over the groups is summed over the list: `sum_keys` for given keys, `sum_groups`
for the groups whose keys satisfy a condition.
-/

namespace Grouping

universe u v w

variable {α : Type u} {κ : Type v} [DecidableEq κ] {key : α → κ}

/-- The groups with their keys. -/
def groups (key : α → κ) (l : List α) : List (κ × List α) :=
  (l.map key).dedup.map fun k => (k, l.filter fun x => key x = k)

section Sum

variable {M : Type w} [AddCommMonoid M] (weight : α → M)

/-- The weight of the elements that satisfy a condition. -/
def sumWhere (p : α → Bool) (l : List α) : M := ((l.filter p).map weight).sum

theorem sumWhere_cons (p : α → Bool) (x : α) (l : List α) :
    sumWhere weight p (x :: l) = (if p x then weight x else 0) + sumWhere weight p l := by
  unfold sumWhere
  by_cases h : p x = true
  · rw [List.filter_cons_of_pos h, List.map_cons, List.sum_cons, if_pos h]
  · rw [List.filter_cons_of_neg h, if_neg h, zero_add]

theorem sumWhere_congr {p p' : α → Bool} {l : List α} (h : ∀ x ∈ l, p x = p' x) :
    sumWhere weight p l = sumWhere weight p' l := by
  unfold sumWhere
  rw [List.filter_congr h]

theorem sumWhere_perm (p : α → Bool) {l l' : List α} (h : l.Perm l') :
    sumWhere weight p l = sumWhere weight p l' := ((h.filter p).map weight).sum_eq

theorem sumWhere_or {p p' : α → Bool} {l : List α} (h : ∀ x ∈ l, p x = true → p' x = false) :
    sumWhere weight (fun x => p x || p' x) l = sumWhere weight p l + sumWhere weight p' l := by
  induction l with
  | nil => exact (add_zero 0).symm
  | cons x l ih =>
    obtain ⟨hx, hl⟩ := List.forall_mem_cons.1 h
    rw [sumWhere_cons, sumWhere_cons, sumWhere_cons, ih hl]
    by_cases hp : p x = true
    · simp only [hp, hx hp, Bool.true_or, if_true, Bool.false_eq_true, if_false]
      abel
    · rw [Bool.not_eq_true] at hp
      simp only [hp, Bool.false_or, Bool.false_eq_true, if_false]
      abel

theorem sum_keys {ks : List κ} (hks : ks.Nodup) (l : List α) :
    (ks.map fun k => sumWhere weight (fun x => decide (key x = k)) l).sum =
      sumWhere weight (fun x => decide (key x ∈ ks)) l := by
  induction ks with
  | nil =>
    have hnone : sumWhere weight (fun x => decide (key x ∈ ([] : List κ))) l = 0 := by
      simp [sumWhere]
    rw [hnone]
    rfl
  | cons k ks ih =>
    obtain ⟨hk, hks⟩ := List.nodup_cons.1 hks
    rw [List.map_cons, List.sum_cons, ih hks, ← sumWhere_or]
    · refine sumWhere_congr weight fun x _ => ?_
      simp only [List.mem_cons, Bool.decide_or]
    · intro x _ hx
      have hkey := of_decide_eq_true hx
      rw [hkey]
      exact decide_eq_false hk

/-- Where the keys are those of all elements, no weight is left out. -/
theorem sum_keys_of_mem {ks : List κ} (hks : ks.Nodup) {l : List α} (h : ∀ x ∈ l, key x ∈ ks) :
    (ks.map fun k => sumWhere weight (fun x => decide (key x = k)) l).sum = (l.map weight).sum := by
  rw [sum_keys weight hks]
  unfold sumWhere
  rw [List.filter_eq_self.2 fun x hx => decide_eq_true (h x hx)]

theorem sum_groups (p : κ → Bool) (l : List α) :
    (((groups key l).filter fun g => p g.1).map fun g => (g.2.map weight).sum).sum =
      sumWhere weight (fun x => p (key x)) l := by
  have hfilter : (groups key l).filter (fun g => p g.1) =
      ((l.map key).dedup.filter p).map fun k => (k, l.filter fun x => key x = k) := by
    rw [groups, List.filter_map]
    rfl
  have hnodup : ((l.map key).dedup.filter p).Nodup := (List.nodup_dedup _).filter p
  rw [hfilter, List.map_map]
  refine (sum_keys weight hnodup l).trans (sumWhere_congr weight fun x hx => ?_)
  rw [Bool.eq_iff_iff, decide_eq_true_eq, List.mem_filter, List.mem_dedup]
  constructor
  · exact And.right
  · exact fun hp => ⟨List.mem_map_of_mem hx, hp⟩

theorem sumWhere_le [PartialOrder M] [IsOrderedAddMonoid M] {p p' : α → Bool} {l : List α}
    (hp : ∀ x ∈ l, p x = true → p' x = true) (hw : ∀ x ∈ l, 0 ≤ weight x) :
    sumWhere weight p l ≤ sumWhere weight p' l := by
  induction l with
  | nil => exact le_refl _
  | cons x l ih =>
    obtain ⟨hpx, hpl⟩ := List.forall_mem_cons.1 hp
    obtain ⟨hwx, hwl⟩ := List.forall_mem_cons.1 hw
    rw [sumWhere_cons, sumWhere_cons]
    refine add_le_add ?_ (ih hpl hwl)
    split_ifs with h h'
    · exact le_refl _
    · exact absurd (hpx h) h'
    · exact hwx
    · exact le_refl _

/-- Different keys weigh no more than the elements that have them. -/
theorem sum_keys_le [PartialOrder M] [IsOrderedAddMonoid M] {ks : List κ} (hks : ks.Nodup) {p : α → Bool}
    {l : List α} (hp : ∀ x ∈ l, key x ∈ ks → p x = true) (hw : ∀ x ∈ l, 0 ≤ weight x) :
    (ks.map fun k => sumWhere weight (fun x => decide (key x = k)) l).sum ≤ sumWhere weight p l := by
  rw [sum_keys weight hks]
  exact sumWhere_le weight (fun x hx hmem => hp x hx (of_decide_eq_true hmem)) hw

end Sum

end Grouping
