import Mathlib.Data.Int.Log
import Mathlib.Data.Rat.Floor
import Mathlib.Algebra.Order.Field.Power
import Mathlib.Tactic.Linarith
import Mathlib.Tactic.NormNum

/-! # Rounding to binary64

A finite binary64 number is a rational with 53 bits; an operation gives the one nearest to
the exact result, of two the even one. Numbers past the greatest finite one are kept as if
the exponent had no upper bound.

* `round_intCast`: an integer of 53 bits is its own rounding, so whole figures of this
  size are added, compared and written without an error.
-/

namespace Binary64

/-- The nearest integer, of two the even one. -/
def nearest (x : ℚ) : ℤ :=
  let n := ⌊x⌋
  if x - n < 1 / 2 then n else if 1 / 2 < x - n then n + 1 else if n % 2 = 0 then n else n + 1

/-- The exponent of the last of the 53 bits. -/
def exponent (x : ℚ) : ℤ := max (Int.log 2 |x| - 52) (-1074)

def round (x : ℚ) : ℚ := nearest (x / 2 ^ exponent x) * 2 ^ exponent x

/-- The decimal with `digits` places nearest to a number, as a number. -/
def roundTo (x : ℚ) (digits : Nat) : ℚ := round (nearest (x * 10 ^ digits) / 10 ^ digits)

@[simp] theorem nearest_intCast (n : ℤ) : nearest n = n := by
  simp [nearest]

theorem log_le {n : ℤ} (h : |n| ≤ 2 ^ 53) (hne : n ≠ 0) : Int.log 2 |(n : ℚ)| ≤ 53 := by
  have hpos : (0 : ℚ) < |(n : ℚ)| := abs_pos.2 (Int.cast_ne_zero.2 hne)
  have hle : |(n : ℚ)| ≤ 2 ^ (53 : ℤ) := by
    rw [← Int.cast_abs]
    exact_mod_cast h
  have hlog := Int.zpow_log_le_self (b := 2) (by norm_num) hpos
  exact (zpow_le_zpow_iff_right₀ (by norm_num : (1 : ℚ) < 2)).1 (hlog.trans hle)

/-- Where the last bit is worth at most one, an integer has no bits below it. -/
theorem round_of_exponent_le {n : ℤ} (h : exponent n ≤ 0) : round n = n := by
  obtain ⟨k, hk⟩ := Int.eq_ofNat_of_zero_le (Int.neg_nonneg.2 h)
  have hexp : exponent n = -(k : ℤ) := by omega
  have hdiv : (n : ℚ) / 2 ^ exponent n = ((n * 2 ^ k : ℤ) : ℚ) := by
    rw [hexp, zpow_neg, div_inv_eq_mul, zpow_natCast]
    push_cast
    rfl
  rw [round, hdiv, nearest_intCast, ← hdiv]
  exact div_mul_cancel₀ _ (zpow_ne_zero _ (by norm_num))

theorem round_intCast {n : ℤ} (h : |n| ≤ 2 ^ 53) : round n = n := by
  by_cases hne : n = 0
  · subst hne
    have hzero : nearest 0 = 0 := nearest_intCast 0
    simp [round, hzero]
  · have hlog := log_le h hne
    rcases lt_or_ge (Int.log 2 |(n : ℚ)|) 53 with hlt | hge
    · refine round_of_exponent_le ?_
      unfold exponent
      omega
    · -- the only integers left are the two of largest size, which are even
      have hpos : (0 : ℚ) < |(n : ℚ)| := abs_pos.2 (Int.cast_ne_zero.2 hne)
      have hself := Int.zpow_log_le_self (b := 2) (by norm_num) hpos
      have hexp : Int.log 2 |(n : ℚ)| = 53 := by omega
      rw [hexp] at hself
      have hsize : |n| = 2 ^ 53 := by
        refine le_antisymm h ?_
        rw [← Int.cast_abs] at hself
        exact_mod_cast hself
      have hone : exponent n = 1 := by
        unfold exponent
        rw [hexp]
        norm_num
      obtain ⟨k, hk⟩ : ∃ k, n = k * 2 := by
        rcases abs_choice n with habs | habs
        · exact ⟨2 ^ 52, by omega⟩
        · exact ⟨-2 ^ 52, by omega⟩
      rw [round, hone, zpow_one]
      have hhalf : (n : ℚ) / 2 = (k : ℤ) := by
        rw [hk]
        push_cast
        ring
      rw [hhalf, nearest_intCast, hk]
      push_cast
      rfl

theorem roundTo_intCast {n : ℤ} (h : |n| ≤ 2 ^ 53) (digits : Nat) : roundTo n digits = n := by
  have hscaled : (n : ℚ) * 10 ^ digits = ((n * 10 ^ digits : ℤ) : ℚ) := by
    push_cast
    rfl
  rw [roundTo, hscaled, nearest_intCast, ← hscaled, mul_div_cancel_right₀ _ (by positivity)]
  exact round_intCast h

/-- The first integer that has a bit too many. -/
example : round (2 ^ 53 + 1) = 2 ^ 53 := by decide +kernel

end Binary64
