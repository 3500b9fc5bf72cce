import Mathlib.Data.BitVec
import Mathlib.Logic.Function.Iterate

/-! # The cyclic redundancy check of 32 bits

The remainder of a text by the reflected polynomial, one bit after the other, and by a table of the
remainders of the bytes.

* `shift_xor`: a shift of the remainder is linear.
* `byte_eq_table`: so eight of them are a look into the table.
-/

namespace Crc32

/-- The polynomial, its lowest power in the highest bit. -/
def poly : BitVec 32 := 0xEDB88320#32

/-- One bit of the remainder is divided off. -/
def shift (c : BitVec 32) : BitVec 32 := if c.getLsbD 0 then poly ^^^ (c >>> 1) else c >>> 1

def byte (c : BitVec 32) (b : UInt8) : BitVec 32 := shift^[8] (c ^^^ b.toBitVec.setWidth 32)

def checksum (data : List UInt8) : BitVec 32 := ~~~data.foldl byte (BitVec.allOnes 32)

variable {a b c : BitVec 32}

theorem shift_xor (a b : BitVec 32) : shift (a ^^^ b) = shift a ^^^ shift b := by
  unfold shift
  rw [BitVec.getLsbD_xor, BitVec.ushiftRight_xor_distrib]
  cases a.getLsbD 0 <;> cases b.getLsbD 0
  · rfl
  · show poly ^^^ (a >>> 1 ^^^ b >>> 1) = a >>> 1 ^^^ (poly ^^^ b >>> 1)
    rw [← BitVec.xor_assoc, BitVec.xor_comm poly, BitVec.xor_assoc]
  · exact (BitVec.xor_assoc poly (a >>> 1) (b >>> 1)).symm
  · -- the polynomial goes away
    show a >>> 1 ^^^ b >>> 1 = poly ^^^ a >>> 1 ^^^ (poly ^^^ b >>> 1)
    rw [BitVec.xor_comm poly (a >>> 1), BitVec.xor_assoc, ← BitVec.xor_assoc poly, BitVec.xor_self, BitVec.zero_xor]

theorem shifts_xor (n : Nat) (a b : BitVec 32) : shift^[n] (a ^^^ b) = shift^[n] a ^^^ shift^[n] b := by
  induction n with
  | zero => rfl
  | succ n ih =>
    rw [Function.iterate_succ_apply', ih, shift_xor, Function.iterate_succ_apply', Function.iterate_succ_apply']

theorem shifts_of_clear {n : Nat} (h : ∀ i < n, c.getLsbD i = false) : shift^[n] c = c >>> n := by
  induction n with
  | zero => rw [Function.iterate_zero, id, BitVec.ushiftRight_zero]
  | succ n ih =>
    have hlow : (c >>> n).getLsbD 0 = false := by
      rw [BitVec.getLsbD_ushiftRight, Nat.add_zero]
      exact h n n.lt_succ_self
    rw [Function.iterate_succ_apply', ih fun i hi => h i (Nat.lt_succ_of_lt hi), shift, hlow, BitVec.shiftRight_add]
    rfl

/-- The low byte of a word. -/
def low (c : BitVec 32) : BitVec 32 := c &&& 255#32

/-- A word without its low byte. -/
def high (c : BitVec 32) : BitVec 32 := c >>> 8 <<< 8

theorem getLsbD_high (c : BitVec 32) (i : Nat) : (high c).getLsbD i = (!decide (i < 8) && c.getLsbD i) := by
  rw [high, BitVec.getLsbD_shiftLeft, BitVec.getLsbD_ushiftRight]
  by_cases h8 : i < 8
  · simp [h8]
  · rw [Nat.add_sub_cancel' (Nat.le_of_not_lt h8)]
    by_cases h32 : i < 32
    · simp [h8, h32]
    · rw [BitVec.getLsbD_of_ge c i (Nat.le_of_not_lt h32), Bool.and_false, Bool.and_false]

theorem getLsbD_low (c : BitVec 32) (i : Nat) : (low c).getLsbD i = (decide (i < 8) && c.getLsbD i) := by
  have hmask : (255#32).getLsbD i = decide (i < 8) := by
    rw [BitVec.getLsbD_ofNat, show (255 : Nat) = 2 ^ 8 - 1 by rfl, Nat.testBit_two_pow_sub_one]
    by_cases h8 : i < 8
    · simp [h8, h8.trans (by decide : 8 < 32)]
    · simp [h8]
  rw [low, BitVec.getLsbD_and, hmask, Bool.and_comm]

theorem high_xor_low (c : BitVec 32) : high c ^^^ low c = c := by
  refine BitVec.eq_of_getLsbD_eq fun i _ => ?_
  rw [BitVec.getLsbD_xor, getLsbD_high, getLsbD_low]
  by_cases h8 : i < 8 <;> simp [h8]

theorem shifts_high (c : BitVec 32) : shift^[8] (high c) = c >>> 8 := by
  rw [shifts_of_clear]
  · refine BitVec.eq_of_getLsbD_eq fun i _ => ?_
    rw [BitVec.getLsbD_ushiftRight, getLsbD_high, BitVec.getLsbD_ushiftRight]
    simp
  · intro i hi
    rw [getLsbD_high]
    simp [hi]

/-- Eight shifts of a word are a look for its low byte into the table. -/
theorem shifts_eq_table (c : BitVec 32) : shift^[8] c = shift^[8] (low c) ^^^ (c >>> 8) := by
  have hsplit := congrArg shift^[8] (high_xor_low c)
  rw [shifts_xor, shifts_high] at hsplit
  rw [← hsplit, BitVec.xor_comm]

theorem byte_eq_table (c : BitVec 32) (b : UInt8) :
    byte c b = shift^[8] (low (c ^^^ b.toBitVec.setWidth 32)) ^^^ (c >>> 8) := by
  have hbyte : (b.toBitVec.setWidth 32) >>> 8 = 0#32 := by
    refine BitVec.eq_of_toNat_eq ?_
    have hlt : b.toBitVec.toNat < 256 := b.toBitVec.isLt
    rw [BitVec.toNat_ushiftRight, BitVec.toNat_setWidth, Nat.shiftRight_eq_div_pow, BitVec.toNat_ofNat]
    omega
  rw [byte, shifts_eq_table, BitVec.ushiftRight_xor_distrib, hbyte, BitVec.xor_zero]

end Crc32
