import Mathlib.Algebra.GroupWithZero.Nat
import Mathlib.Algebra.Order.Group.Nat
import Mathlib.Data.List.Infix

/-! # Taking while the limits allow

A loop takes the elements of a list one after another and stops at the first that would
exceed a limit, on their number or on the sum of their sizes.

* `getElem?_fit_iff`: an element is taken exactly if all up to it are within the limits.
* `length_fit_le`, `sum_fit_le`: what is taken is within them.
* `fit_eq_self`: everything is taken where everything is within them.
-/

namespace Quota

variable {α : Type*} (size : α → Nat) (maxTotal maxCount : Nat)

/-- The elements taken, after `count` elements of the size `total`. -/
def fit (count total : Nat) : List α → List α
  | [] => []
  | a :: l =>
      if total + size a > maxTotal ∨ count ≥ maxCount then []
      else a :: fit (count + 1) (total + size a) l

variable {size maxTotal maxCount} {count total : Nat} {l : List α}

theorem fit_prefix : fit size maxTotal maxCount count total l <+: l := by
  induction l generalizing count total with
  | nil => exact List.prefix_rfl
  | cons a l ih =>
    unfold fit
    split_ifs
    · exact List.nil_prefix
    · exact List.cons_prefix_cons.2 ⟨rfl, ih⟩

theorem length_fit_le (h : count ≤ maxCount) :
    count + (fit size maxTotal maxCount count total l).length ≤ maxCount := by
  induction l generalizing count total with
  | nil => exact h
  | cons a l ih =>
    unfold fit
    split_ifs with hlimit
    · exact h
    · rw [not_or] at hlimit
      have hrest := @ih (count + 1) (total + size a) (by omega)
      rw [List.length_cons]
      omega

theorem sum_fit_le (h : total ≤ maxTotal) :
    total + ((fit size maxTotal maxCount count total l).map size).sum ≤ maxTotal := by
  induction l generalizing count total with
  | nil => exact h
  | cons a l ih =>
    unfold fit
    split_ifs with hlimit
    · exact h
    · rw [not_or] at hlimit
      have hrest := @ih (count + 1) (total + size a) (by omega)
      rw [List.map_cons, List.sum_cons]
      omega

theorem getElem?_fit_iff {k : Nat} {a : α} : (fit size maxTotal maxCount count total l)[k]? = some a ↔
    l[k]? = some a ∧ count + k < maxCount ∧ total + ((l.take (k + 1)).map size).sum ≤ maxTotal := by
  induction l generalizing count total k with
  | nil => simp [fit]
  | cons b l ih =>
    unfold fit
    rw [List.take_succ_cons, List.map_cons, List.sum_cons]
    split_ifs with hlimit
    · simp only [List.getElem?_nil, reduceCtorEq, false_iff, not_and]
      intro _ _
      omega
    · rw [not_or] at hlimit
      cases k with
      | zero =>
        simp only [List.getElem?_cons_zero, List.take_zero, List.map_nil, List.sum_nil]
        constructor
        · exact fun h => ⟨h, by omega, by omega⟩
        · exact fun h => h.1
      | succ k =>
        rw [List.getElem?_cons_succ, List.getElem?_cons_succ, ih]
        constructor
        · exact fun h => ⟨h.1, by omega, by omega⟩
        · exact fun h => ⟨h.1, by omega, by omega⟩

theorem fit_eq_self (hcount : count + l.length ≤ maxCount) (htotal : total + (l.map size).sum ≤ maxTotal) :
    fit size maxTotal maxCount count total l = l := by
  induction l generalizing count total with
  | nil => rfl
  | cons a l ih =>
    rw [List.map_cons, List.sum_cons] at htotal
    rw [List.length_cons] at hcount
    have hlimit : ¬ (total + size a > maxTotal ∨ count ≥ maxCount) := by omega
    rw [fit, if_neg hlimit, ih (by omega) (by omega)]

end Quota
