import Mathlib.Data.BitVec
import Mathlib.Data.List.Infix

/-! # Addresses and networks

The addresses of the Internet protocol as bit vectors, the texts that Rust's standard
library reads them from, and networks: a base and a number of leading bits.

* `Net.has` compares the leading bits with a mask, `Net.has_iff` is the same by a
  division, `Net.has_mono` passes to fewer bits.
-/

namespace Ip

inductive Addr where
  | v4 (n : BitVec 32)
  | v6 (n : BitVec 128)
deriving DecidableEq, Repr

/-! ## Texts -/

/-- `char::to_digit`. -/
def digit (radix : Nat) (c : Char) : Option Nat :=
  let n :=
    if c.isDigit then c.toNat - 48
    else if 'a' ≤ c ∧ c ≤ 'f' then c.toNat - 87
    else if 'A' ≤ c ∧ c ≤ 'F' then c.toNat - 55
    else radix
  if n < radix then some n else none

/-- A number below `limit` of at most `maxDigits` digits, and what follows it. -/
def readNumber (radix maxDigits limit : Nat) (zeroPrefix : Bool) (t : List Char) :
    Option (Nat × List Char) :=
  let digits := t.takeWhile fun c => (digit radix c).isSome
  let value := digits.foldl (fun n c => radix * n + (digit radix c).getD 0) 0
  if digits = [] ∨ maxDigits < digits.length ∨ limit ≤ value then none
  else if !zeroPrefix ∧ t.head? = some '0' ∧ 1 < digits.length then none
  else some (value, t.drop digits.length)

def readChar (c : Char) : List Char → Option (List Char)
  | d :: t => if d = c then some t else none
  | [] => none

def readOctet (t : List Char) : Option (Nat × List Char) := readNumber 10 3 256 false t

/-- Four octets with dots between them. -/
def readV4 (t : List Char) : Option (Nat × List Char) :=
  (readOctet t).bind fun (a, t) => (readChar '.' t).bind fun t =>
  (readOctet t).bind fun (b, t) => (readChar '.' t).bind fun t =>
  (readOctet t).bind fun (c, t) => (readChar '.' t).bind fun t =>
  (readOctet t).map fun (d, t) => (((a * 256 + b) * 256 + c) * 256 + d, t)

/-- At most so many groups with colons between them; where two are left, an address of four
octets may stand in their place and ends the groups. -/
def readGroups : Nat → Bool → List Char → List Nat × Bool × List Char
  | 0, _, t => ([], false, t)
  | n + 1, first, t =>
      let behind := if first then some t else readChar ':' t
      match if 0 < n then behind.bind readV4 else none with
      | some (v, rest) => ([v / 65536, v % 65536], true, rest)
      | none =>
          match behind.bind (readNumber 16 4 65536 true) with
          | some (g, rest) =>
              let r := readGroups n false rest
              (g :: r.1, r.2)
          | none => ([], false, t)

/-- Eight groups, or fewer with `::` for at least one group of zeros. -/
def readV6 (t : List Char) : Option (Nat × List Char) :=
  let value := fun groups : List Nat => groups.foldl (fun n g => n * 65536 + g) 0
  let (head, octets, rest) := readGroups 8 true t
  if head.length = 8 then some (value head, rest)
  else if octets then none
  else
    ((readChar ':' rest).bind (readChar ':')).map fun rest =>
      let (tail, _, rest) := readGroups (7 - head.length) true rest
      (value (head ++ List.replicate (8 - head.length - tail.length) 0 ++ tail), rest)

/-- Nothing may follow. -/
def whole (r : Option (Nat × List Char)) : Option Nat :=
  (r.filter fun r => r.2 = []).map Prod.fst

/-- `parse::<Ipv4Addr>`. -/
def parseV4 (t : List Char) : Option (BitVec 32) := (whole (readV4 t)).map (BitVec.ofNat 32)

/-- `parse::<Ipv6Addr>`. -/
def parseV6 (t : List Char) : Option (BitVec 128) := (whole (readV6 t)).map (BitVec.ofNat 128)

/-- `parse::<IpAddr>`: what starts like an address of four octets is no other one. -/
def parse (t : List Char) : Option Addr :=
  match readV4 t with
  | some r => (whole (some r)).map fun n => .v4 (BitVec.ofNat 32 n)
  | none => (parseV6 t).map .v6

example : parse "64:ff9b::192.0.2.33".toList = some (.v6 0x0064ff9b0000000000000000c0000221#128) := by
  decide +kernel

/-! ## Networks -/

/-- The addresses whose leading bits are those of the base. -/
structure Net (w : Nat) where
  base : BitVec w
  len : Nat
deriving DecidableEq, Repr

variable {w : Nat}

def Net.mask (net : Net w) : BitVec w := BitVec.allOnes w <<< (w - net.len)

def Net.has (net : Net w) (x : BitVec w) : Bool := x &&& net.mask == net.base &&& net.mask

/-- Under the mask two addresses are equal when their leading bits are. -/
theorem and_mask_eq_iff (x y : BitVec w) (s : Nat) :
    x &&& (BitVec.allOnes w <<< s) = y &&& (BitVec.allOnes w <<< s) ↔ x >>> s = y >>> s := by
  constructor
  · intro h
    ext i hi
    rw [BitVec.getElem_ushiftRight, BitVec.getElem_ushiftRight]
    by_cases hlt : s + i < w
    · have hbit := congrArg (fun z => z.getLsbD (s + i)) h
      have hge : ¬ s + i < s := by omega
      simpa [hlt, hge] using hbit
    · rw [BitVec.getLsbD_of_ge x _ (by omega), BitVec.getLsbD_of_ge y _ (by omega)]
  · intro h
    ext i hi
    by_cases hlt : i < s
    · simp [hlt]
    · have hbit := congrArg (fun z => z.getLsbD (i - s)) h
      have hindex : s + (i - s) = i := by omega
      simp only [BitVec.getLsbD_ushiftRight, hindex] at hbit
      simp [hlt, BitVec.getLsbD_eq_getElem hi] at hbit ⊢
      rw [hbit]

theorem Net.has_iff {net : Net w} {x : BitVec w} :
    net.has x = true ↔ x.toNat / 2 ^ (w - net.len) = net.base.toNat / 2 ^ (w - net.len) := by
  rw [Net.has, beq_iff_eq, Net.mask, and_mask_eq_iff, ← BitVec.toNat_inj, BitVec.toNat_ushiftRight,
    BitVec.toNat_ushiftRight, Nat.shiftRight_eq_div_pow, Nat.shiftRight_eq_div_pow]

theorem Net.has_mono {net : Net w} {x : BitVec w} (h : net.has x = true) {m : Nat}
    (hm : m ≤ net.len) (hw : net.len ≤ w) :
    x.toNat / 2 ^ (w - m) = net.base.toNat / 2 ^ (w - m) := by
  have hpow : 2 ^ (w - m) = 2 ^ (w - net.len) * 2 ^ (net.len - m) := by
    rw [← Nat.pow_add]
    congr 1
    omega
  rw [hpow, ← Nat.div_div_eq_div_mul, ← Nat.div_div_eq_div_mul, Net.has_iff.1 h]

end Ip
