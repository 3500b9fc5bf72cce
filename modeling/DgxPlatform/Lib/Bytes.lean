import Mathlib.Algebra.GroupWithZero.Nat
import Mathlib.Data.List.Infix

/-! # Numbers in a buffer

Numbers of some bytes, the lowest one first, that are written into a buffer and read from it.

* `put_append`: what is written behind a front.
* `setAll_replicate`: what is written into a new buffer from the front on.
* `slice_append`: what is read behind a front.
* `slice_at`, `numberBE_at`: what stands at an offset.
* `slice_flatten` and its like: what stands at the offset of a part.
* `fields_record`: the fields of a record are read as they were written.
-/

namespace Bytes

abbrev Buffer := List UInt8

/-- The low bytes of a number. -/
def ofNat : Nat → Nat → Buffer
  | 0, _ => []
  | width + 1, n => UInt8.ofNat n :: ofNat width (n / 256)

def toNat : Buffer → Nat
  | [] => 0
  | b :: t => b.toNat + 256 * toNat t

/-- Bytes that replace those from some place on. -/
def put (buffer : Buffer) (start : Nat) (bytes : Buffer) : Buffer :=
  buffer.take start ++ bytes ++ buffer.drop (start + bytes.length)

/-- Bytes that are written, each at its place. -/
def setAll (buffer : Buffer) (writes : List (Nat × Buffer)) : Buffer :=
  writes.foldl (fun buffer w => put buffer w.1 w.2) buffer

def slice (buffer : Buffer) (start length : Nat) : Option Buffer :=
  let bytes := (buffer.drop start).take length
  if bytes.length = length then some bytes else none

/-- The number of `width` bytes at some place. -/
def number (width : Nat) (buffer : Buffer) (start : Nat) : Option Nat := (slice buffer start width).map toNat

/-- The bytes of a number, the highest one first. -/
def ofNatBE (width n : Nat) : Buffer := (ofNat width n).reverse

/-- The number of `width` bytes at some place, the highest one first. -/
def numberBE (width : Nat) (buffer : Buffer) (start : Nat) : Option Nat :=
  (slice buffer start width).map fun bytes => toNat bytes.reverse

/-- Numbers of some widths, one behind the other. -/
def fields : List Nat → Buffer → Nat → Option (List Nat)
  | [], _, _ => some []
  | width :: widths, buffer, start =>
      (number width buffer start).bind fun n => (fields widths buffer (start + width)).map (n :: ·)

/-- A record of numbers, each with its width. -/
def record (r : List (Nat × Nat)) : Buffer := r.flatMap fun f => ofNat f.1 f.2

variable {front bytes rest : Buffer} {width n k : Nat}

@[simp] theorem length_ofNat (width n : Nat) : (ofNat width n).length = width := by
  induction width generalizing n with
  | zero => rfl
  | succ width ih => exact congrArg (· + 1) (ih (n / 256))

theorem toNat_ofNat (h : n < 256 ^ width) : toNat (ofNat width n) = n := by
  induction width generalizing n with
  | zero =>
    rw [Nat.pow_zero] at h
    exact (Nat.lt_one_iff.1 h).symm
  | succ width ih =>
    have hrest : n / 256 < 256 ^ width := by
      rw [Nat.pow_succ] at h
      exact Nat.div_lt_of_lt_mul (by rwa [Nat.mul_comm])
    rw [ofNat, toNat, ih hrest, UInt8.toNat_ofNat']
    exact Nat.mod_add_div n 256

theorem toNat_lt (t : Buffer) : toNat t < 256 ^ t.length := by
  induction t with
  | nil => exact Nat.one_pos
  | cons b t ih =>
    have hb := b.toNat_lt
    rw [toNat, List.length_cons, Nat.pow_succ]
    omega

variable {buffer : Buffer}

theorem length_of_slice {start length : Nat} (h : slice buffer start length = some bytes) :
    bytes.length = length := by
  unfold slice at h
  dsimp only at h
  split_ifs at h with hlength
  cases h
  exact hlength

variable {start : Nat}

theorem number_lt (h : number width buffer start = some n) : n < 256 ^ width := by
  obtain ⟨t, ht, rfl⟩ := Option.map_eq_some_iff.1 h
  rw [← length_of_slice ht]
  exact toNat_lt t

theorem numberBE_lt (h : numberBE width buffer start = some n) : n < 256 ^ width := by
  obtain ⟨t, ht, rfl⟩ := Option.map_eq_some_iff.1 h
  rw [← length_of_slice ht, ← List.length_reverse]
  exact toNat_lt t.reverse

theorem put_append (front bytes rest : Buffer) :
    put (front ++ rest) front.length bytes = front ++ (bytes ++ rest.drop bytes.length) := by
  rw [put, List.take_left, List.drop_length_add_append, List.append_assoc]

theorem slice_append (front rest : Buffer) (k length : Nat) :
    slice (front ++ rest) (front.length + k) length = slice rest k length := by
  rw [slice, List.drop_length_add_append]
  rfl

/-- The writes go on from the place `pos`, and stay within the first `size` bytes. -/
def InOrder (size : Nat) : Nat → List (Nat × Buffer) → Prop
  | pos, [] => pos ≤ size
  | pos, w :: writes => pos ≤ w.1 ∧ InOrder size (w.1 + w.2.length) writes

/-- What is written from the place `pos` on, with zeros between. -/
def lay (size : Nat) : Nat → List (Nat × Buffer) → Buffer
  | pos, [] => List.replicate (size - pos) 0
  | pos, w :: writes => List.replicate (w.1 - pos) 0 ++ (w.2 ++ lay size (w.1 + w.2.length) writes)

variable {writes : List (Nat × Buffer)}

theorem InOrder.le {size pos : Nat} (h : InOrder size pos writes) : pos ≤ size := by
  induction writes generalizing pos with
  | nil => exact h
  | cons w writes ih => exact h.1.trans ((Nat.le_add_right _ _).trans (ih h.2))

theorem setAll_zeros {size : Nat} (h : InOrder size front.length writes) :
    setAll (front ++ List.replicate (size - front.length) 0) writes = front ++ lay size front.length writes := by
  induction writes generalizing front with
  | nil => rfl
  | cons w writes ih =>
    obtain ⟨hpos, hrest⟩ := h
    have hle := hrest.le
    -- the zeros in front of the write, under it and behind it
    have hzeros : List.replicate (size - front.length) (0 : UInt8) = List.replicate (w.1 - front.length) 0 ++
        (List.replicate w.2.length 0 ++ List.replicate (size - (w.1 + w.2.length)) 0) := by
      rw [List.replicate_append_replicate, List.replicate_append_replicate]
      congr 1
      omega
    have hplace : (front ++ List.replicate (w.1 - front.length) (0 : UInt8)).length = w.1 := by
      rw [List.length_append, List.length_replicate]
      omega
    have hput : put (front ++ List.replicate (size - front.length) 0) w.1 w.2 =
        front ++ List.replicate (w.1 - front.length) 0 ++ w.2 ++ List.replicate (size - (w.1 + w.2.length)) 0 := by
      have happend := put_append (front ++ List.replicate (w.1 - front.length) 0) w.2
        (List.replicate w.2.length 0 ++ List.replicate (size - (w.1 + w.2.length)) 0)
      rw [hplace, List.drop_left' List.length_replicate] at happend
      rw [hzeros, ← List.append_assoc front, happend, List.append_assoc _ w.2]
    have hfront : (front ++ List.replicate (w.1 - front.length) 0 ++ w.2).length = w.1 + w.2.length := by
      rw [List.length_append, hplace]
    rw [← hfront] at hrest
    have hset := ih hrest
    rw [hfront] at hset
    rw [setAll, List.foldl_cons, hput]
    exact hset.trans (by rw [lay, List.append_assoc, List.append_assoc])

theorem setAll_replicate {size : Nat} (h : InOrder size 0 writes) :
    setAll (List.replicate size 0) writes = lay size 0 writes :=
  @setAll_zeros [] writes size h

theorem ofNat_mod (width n : Nat) : ofNat width (n % 256 ^ width) = ofNat width n := by
  induction width generalizing n with
  | zero => rfl
  | succ width ih =>
    have hlow : UInt8.ofNat (n % 256 ^ (width + 1)) = UInt8.ofNat n := by
      refine UInt8.toNat_inj.1 ?_
      rw [UInt8.toNat_ofNat', UInt8.toNat_ofNat', Nat.pow_succ]
      exact Nat.mod_mul_left_mod n (256 ^ width) 256
    have hhigh : n % 256 ^ (width + 1) / 256 = n / 256 % 256 ^ width := by
      rw [Nat.pow_succ, Nat.mul_comm, Nat.mod_mul_right_div_self]
    rw [ofNat, ofNat, hlow, hhigh, ih]

theorem slice_self (bytes rest : Buffer) : slice (bytes ++ rest) 0 bytes.length = some bytes := by
  rw [slice, List.drop_zero, List.take_left, if_pos rfl]

theorem slice_middle (front front' bytes rest : Buffer) {k : Nat} (hk : front'.length = k) :
    slice (front ++ (front' ++ (bytes ++ rest))) (front.length + k) bytes.length = some bytes := by
  have hself := slice_append front' (bytes ++ rest) 0 bytes.length
  rw [Nat.add_zero, hk, slice_self] at hself
  rw [slice_append, hself]

theorem slice_at {start length : Nat} (hfront : front.length = start) (hbytes : bytes.length = length) :
    slice (front ++ (bytes ++ rest)) start length = some bytes := by
  subst hfront hbytes
  have hself := slice_append front (bytes ++ rest) 0 bytes.length
  rwa [Nat.add_zero, slice_self] at hself

@[simp] theorem length_ofNatBE (width n : Nat) : (ofNatBE width n).length = width := by
  rw [ofNatBE, List.length_reverse, length_ofNat]

theorem numberBE_at (hn : n < 256 ^ width) (hfront : front.length = start) :
    numberBE width (front ++ (ofNatBE width n ++ rest)) start = some n := by
  rw [numberBE, slice_at hfront (length_ofNatBE width n), Option.map_some, ofNatBE, List.reverse_reverse,
    toNat_ofNat hn]

variable {parts : List Buffer}

theorem slice_flatten (place : Nat) {start length : Nat} (hpart : parts[place]? = some bytes)
    (hstart : ((parts.take place).map List.length).sum = start) (hlength : bytes.length = length) :
    slice parts.flatten start length = some bytes := by
  obtain ⟨hplace, hget⟩ := List.getElem?_eq_some_iff.1 hpart
  have hsplit : parts.flatten = (parts.take place).flatten ++ (bytes ++ (parts.drop (place + 1)).flatten) := by
    rw [← hget, ← List.flatten_cons, List.getElem_cons_drop, ← List.flatten_append, List.take_append_drop]
  rw [hsplit]
  refine slice_at ?_ hlength
  rw [List.length_flatten, hstart]

theorem number_flatten (place : Nat)
    (hpart : parts[place]? = some (ofNat width n)) (hstart : ((parts.take place).map List.length).sum = start)
    (hn : n < 256 ^ width) : number width parts.flatten start = some n := by
  rw [number, slice_flatten place hpart hstart (length_ofNat width n), Option.map_some, toNat_ofNat hn]

theorem numberBE_flatten (place : Nat)
    (hpart : parts[place]? = some (ofNatBE width n)) (hstart : ((parts.take place).map List.length).sum = start)
    (hn : n < 256 ^ width) : numberBE width parts.flatten start = some n := by
  rw [numberBE, slice_flatten place hpart hstart (length_ofNatBE width n), Option.map_some, ofNatBE,
    List.reverse_reverse, toNat_ofNat hn]

theorem length_record (r : List (Nat × Nat)) : (record r).length = (r.map Prod.fst).sum := by
  induction r with
  | nil => rfl
  | cons f r ih =>
    rw [record, List.flatMap_cons, List.length_append, length_ofNat, ← record, ih, List.map_cons, List.sum_cons]

theorem record_append (r r' : List (Nat × Nat)) : record (r ++ r') = record r ++ record r' := List.flatMap_append

theorem number_record {width n : Nat} (h : n < 256 ^ width) (front : Buffer) (r r' : List (Nat × Nat))
    (rest : Buffer) :
    number width (front ++ (record (r ++ (width, n) :: r') ++ rest)) (front.length + (r.map Prod.fst).sum) =
      some n := by
  have hfield : record (r ++ (width, n) :: r') ++ rest = record r ++ (ofNat width n ++ (record r' ++ rest)) := by
    rw [record_append, record, record, record, List.flatMap_cons, List.append_assoc, List.append_assoc]
  have hslice := slice_middle front (record r) (ofNat width n) (record r' ++ rest) (length_record r)
  rw [length_ofNat] at hslice
  rw [hfield, number, hslice, Option.map_some, toNat_ofNat h]

theorem fields_record {r : List (Nat × Nat)} (h : ∀ f ∈ r, f.2 < 256 ^ f.1) (front rest : Buffer) :
    fields (r.map Prod.fst) (front ++ (record r ++ rest)) front.length = some (r.map Prod.snd) := by
  induction r generalizing front with
  | nil => rfl
  | cons f r ih =>
    obtain ⟨hf, hr⟩ := List.forall_mem_cons.1 h
    have hnumber := number_record hf front [] r rest
    have hrest := ih hr (front ++ ofNat f.1 f.2)
    have hsame : front ++ ofNat f.1 f.2 ++ (record r ++ rest) = front ++ (record (f :: r) ++ rest) := by
      rw [record, record, List.flatMap_cons, List.append_assoc, List.append_assoc]
    rw [hsame, List.length_append, length_ofNat] at hrest
    rw [List.map_cons, fields, hrest]
    exact congrArg (Option.bind · _) hnumber

end Bytes
