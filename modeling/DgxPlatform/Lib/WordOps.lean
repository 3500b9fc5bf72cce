import Mathlib.Data.BitVec

/-! # Numbers under operators of 32 bits

A language whose numbers are no machine words may still have the operators of one: each operand is
taken modulo `2 ^ 32`, and the result is read with its sign, or without it.

* `bits_xor`, `bits_and`, `bits_ushiftRight`: the operators are those of the word.
-/

namespace WordOps

/-- A number as the operators take it. -/
def bits (n : Int) : BitVec 32 := BitVec.ofInt 32 n

/-- `a ^ b` -/
def xor (a b : Int) : Int := (bits a ^^^ bits b).toInt

/-- `a & b` -/
def and (a b : Int) : Int := (bits a &&& bits b).toInt

/-- `a | b` -/
def or (a b : Int) : Int := (bits a ||| bits b).toInt

/-- `a << n` -/
def shiftLeft (a : Int) (n : Nat) : Int := (bits a <<< n).toInt

/-- `a >> n` -/
def shiftRight (a : Int) (n : Nat) : Int := ((bits a).sshiftRight n).toInt

/-- `a >>> n` -/
def ushiftRight (a : Int) (n : Nat) : Int := (bits a >>> n).toNat

theorem bits_xor (a b : Int) : bits (xor a b) = bits a ^^^ bits b := BitVec.ofInt_toInt

theorem bits_ushiftRight (a : Int) (n : Nat) : bits (ushiftRight a n) = bits a >>> n := by
  rw [ushiftRight, bits, BitVec.ofInt_natCast, BitVec.ofNat_toNat, BitVec.setWidth_eq]

theorem ushiftRight_zero (a : Int) : ushiftRight a 0 = (bits a).toNat := by
  rw [ushiftRight, BitVec.ushiftRight_zero]

end WordOps
