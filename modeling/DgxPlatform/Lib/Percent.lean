import DgxPlatform.Lib.Text
import DgxPlatform.Lib.Utf8

/-! # Percent-encoding

A byte string as a text in which some bytes stand for themselves, as ASCII characters,
and each other is written `%XX`.

* `encode_of_keep`: a text of kept characters is written as it is.
* `mem_encode`: which characters a written text has.
* `decode_bytes`, `decode_encode`: the bytes are read back.
* `encode_eq_self_iff`, `suffix_encode_iff`: which texts are written as they are, and which words end one.
-/

namespace Percent

/-- A digit of a byte, in upper case. -/
def hexDigit (n : Nat) : Char := if n < 10 then Char.ofNat (48 + n) else Char.ofNat (55 + n)

def escape (b : UInt8) : List Char := ['%', hexDigit (b.toNat / 16), hexDigit (b.toNat % 16)]

/-- A byte as it is written. -/
def byte (keep : UInt8 → Bool) (b : UInt8) : List Char := if keep b then [Char.ofNat b.toNat] else escape b

/-- A text as its UTF-8 bytes are written. -/
def encode (keep : UInt8 → Bool) (t : List Char) : List Char := (Utf8.encode t).flatMap (byte keep)

/-- Letters, digits and the four marks that every part of an address may have. -/
def isUnreserved (b : UInt8) : Bool :=
  (48 ≤ b && b ≤ 57) || (65 ≤ b && b ≤ 90) || (97 ≤ b && b ≤ 122) || b == 45 || b == 46 || b == 95 || b == 126

variable {keep : UInt8 → Bool}

@[simp] theorem encode_nil : encode keep [] = [] := rfl

theorem encode_cons (c : Char) (t : List Char) :
    encode keep (c :: t) = (String.utf8EncodeChar c).flatMap (byte keep) ++ encode keep t := by
  rw [encode, Utf8.encode_cons, List.flatMap_append]
  rfl

theorem encode_append (a b : List Char) : encode keep (a ++ b) = encode keep a ++ encode keep b := by
  rw [encode, Utf8.encode, List.flatMap_append, List.flatMap_append]
  rfl

theorem utf8EncodeChar_ascii {c : Char} (hc : c.toNat < 128) : String.utf8EncodeChar c = [UInt8.ofNat c.toNat] := by
  have hle : c.val.toNat ≤ 0x7F := Nat.le_of_lt_succ hc
  unfold String.utf8EncodeChar
  exact if_pos hle

theorem encode_cons_keep {c : Char} (hc : c.toNat < 128) (hkeep : keep (UInt8.ofNat c.toNat) = true) (t : List Char) :
    encode keep (c :: t) = c :: encode keep t := by
  have hnat : (UInt8.ofNat c.toNat).toNat = c.toNat := by
    rw [UInt8.toNat_ofNat']
    exact Nat.mod_eq_of_lt (by omega)
  rw [encode_cons, utf8EncodeChar_ascii hc, List.flatMap_singleton, byte, if_pos hkeep, hnat, Char.ofNat_toNat]
  rfl

theorem encode_of_keep {t : List Char} (h : ∀ c ∈ t, c.toNat < 128 ∧ keep (UInt8.ofNat c.toNat) = true) :
    encode keep t = t := by
  induction t with
  | nil => rfl
  | cons c t ih =>
    obtain ⟨⟨hc, hkeep⟩, ht⟩ := List.forall_mem_cons.1 h
    rw [encode_cons_keep hc hkeep, ih ht]

theorem hexDigit_mem : ∀ n < 16, hexDigit n ∈ "0123456789ABCDEF".toList := by decide

theorem mem_encode {c : Char} {t : List Char} (h : c ∈ encode keep t) :
    (∃ b, keep b = true ∧ c = Char.ofNat b.toNat) ∨ c = '%' ∨ c ∈ "0123456789ABCDEF".toList := by
  obtain ⟨b, -, hb⟩ := List.mem_flatMap.1 h
  unfold byte at hb
  by_cases hkeep : keep b = true
  · rw [if_pos hkeep, List.mem_singleton] at hb
    exact Or.inl ⟨b, hkeep, hb⟩
  · rw [if_neg hkeep] at hb
    have hlt := b.toNat_lt
    rcases List.mem_cons.1 hb with rfl | hb
    · exact Or.inr (Or.inl rfl)
    · rcases List.mem_cons.1 hb with rfl | hb
      · exact Or.inr (Or.inr (hexDigit_mem _ (by omega)))
      · rw [List.mem_singleton.1 hb]
        exact Or.inr (Or.inr (hexDigit_mem _ (by omega)))

/-! ## Reading -/

def isHex (c : Char) : Bool := c.isDigit || ('A' ≤ c && c ≤ 'F') || ('a' ≤ c && c ≤ 'f')

def hexValue (c : Char) : Nat :=
  if c.toNat < 58 then c.toNat - 48 else if c.toNat < 71 then c.toNat - 55 else c.toNat - 87

/-- The bytes a text stands for. -/
def decode : List Char → List UInt8
  | '%' :: a :: b :: t =>
      if isHex a && isHex b then UInt8.ofNat (16 * hexValue a + hexValue b) :: decode t
      else 37 :: decode (a :: b :: t)
  | c :: t => String.utf8EncodeChar c ++ decode t
  | [] => []

theorem decode_cons {c : Char} (hc : c ≠ '%') (t : List Char) :
    decode (c :: t) = String.utf8EncodeChar c ++ decode t := by
  rw [decode]
  intro a b u h
  exact absurd h hc

theorem decode_escape {a b : Char} (ha : isHex a = true) (hb : isHex b = true) (t : List Char) :
    decode ('%' :: a :: b :: t) = UInt8.ofNat (16 * hexValue a + hexValue b) :: decode t := by
  rw [decode, ha, hb]
  rfl

theorem hexValue_hexDigit : ∀ n < 16, isHex (hexDigit n) = true ∧ hexValue (hexDigit n) = n := by decide

theorem toNat_ofNat {n : Nat} (h : n < 128) : (Char.ofNat n).toNat = n := by
  rw [Char.ofNat, dif_pos (Or.inl (by omega))]
  rfl

/-- What is kept can be told from an escape. -/
def Readable (keep : UInt8 → Bool) : Prop := ∀ b, keep b = true → b.toNat < 128 ∧ b ≠ 37

theorem decode_byte (h : Readable keep) (b : UInt8) (t : List Char) : decode (byte keep b ++ t) = b :: decode t := by
  unfold byte
  by_cases hkeep : keep b = true
  · obtain ⟨hlt, hne⟩ := h b hkeep
    have hnat : (Char.ofNat b.toNat).toNat = b.toNat := toNat_ofNat hlt
    have hpercent : Char.ofNat b.toNat ≠ '%' := by
      intro hc
      have htwo := congrArg Char.toNat hc
      rw [hnat] at htwo
      exact hne (UInt8.toNat_inj.1 htwo)
    rw [if_pos hkeep, List.singleton_append, decode_cons hpercent, utf8EncodeChar_ascii (by rw [hnat]; exact hlt), hnat,
      UInt8.ofNat_toNat]
    rfl
  · have hlt := b.toNat_lt
    obtain ⟨hhi, hvhi⟩ := hexValue_hexDigit (b.toNat / 16) (by omega)
    obtain ⟨hlo, hvlo⟩ := hexValue_hexDigit (b.toNat % 16) (by omega)
    rw [if_neg hkeep, escape]
    simp only [List.cons_append, List.nil_append]
    rw [decode_escape hhi hlo, hvhi, hvlo, Nat.div_add_mod, UInt8.ofNat_toNat]

theorem decode_bytes (h : Readable keep) (bs : List UInt8) : decode (bs.flatMap (byte keep)) = bs := by
  induction bs with
  | nil => rfl
  | cons b bs ih => rw [List.flatMap_cons, decode_byte h, ih]

theorem decode_encode (h : Readable keep) (t : List Char) : decode (encode keep t) = Utf8.encode t :=
  decode_bytes h (Utf8.encode t)

theorem eq_of_decode (h : Readable keep) {t u : List Char} (htu : decode (encode keep t) = Utf8.encode u) : t = u := by
  rw [decode_encode h] at htu
  rw [← Utf8.lossy_encode t, htu, Utf8.lossy_encode]

/-! ## Bytes with escapes -/

/-- The bytes a byte string stands for; a percent sign without two digits is itself. -/
def decodeBytes : List UInt8 → List UInt8
  | 37 :: a :: b :: t =>
      if isHex (Char.ofNat a.toNat) && isHex (Char.ofNat b.toNat) then
        UInt8.ofNat (16 * hexValue (Char.ofNat a.toNat) + hexValue (Char.ofNat b.toNat)) :: decodeBytes t
      else 37 :: decodeBytes (a :: b :: t)
  | c :: t => c :: decodeBytes t
  | [] => []

theorem decodeBytes_cons {c : UInt8} (hc : c ≠ 37) (t : List UInt8) : decodeBytes (c :: t) = c :: decodeBytes t := by
  rw [decodeBytes]
  intro a b u h
  exact absurd h hc

theorem decodeBytes_short {c : UInt8} {t : List UInt8} (ht : t.length < 2) : decodeBytes (c :: t) = c :: decodeBytes t := by
  rw [decodeBytes]
  intro a b u _ hu
  rw [hu] at ht
  simp only [List.length_cons] at ht
  omega

/-! ## Characters that are written as they are -/

def Keeps (keep : UInt8 → Bool) (c : Char) : Prop := c.toNat < 128 ∧ keep (UInt8.ofNat c.toNat) = true

instance (keep : UInt8 → Bool) (c : Char) : Decidable (Keeps keep c) := inferInstanceAs (Decidable (_ ∧ _))

/-- Neither kept nor of an escape. -/
def IsEscape (c : Char) : Prop := c = '%' ∨ c ∈ "0123456789ABCDEF".toList

instance (c : Char) : Decidable (IsEscape c) := inferInstanceAs (Decidable (_ ∨ _))

variable {c : Char} {t w : List Char}

theorem mem_byte {b : UInt8} (h : c ∈ byte keep b) : (keep b = true ∧ c = Char.ofNat b.toNat) ∨ IsEscape c := by
  unfold byte at h
  split at h
  · next hkeep => exact Or.inl ⟨hkeep, List.mem_singleton.1 h⟩
  · have hlt := b.toNat_lt
    refine Or.inr ?_
    rcases List.mem_cons.1 h with rfl | h
    · exact Or.inl rfl
    · rcases List.mem_cons.1 h with rfl | h
      · exact Or.inr (hexDigit_mem _ (by omega))
      · rw [List.mem_singleton.1 h]
        exact Or.inr (hexDigit_mem _ (by omega))

theorem escape_first {b : UInt8} {a r : List Char} (h : escape b = a ++ '%' :: r) : a = [] := by
  have hdigit : ∀ n < 16, hexDigit n ≠ '%' := by decide
  have hlt := b.toNat_lt
  cases a with
  | nil => rfl
  | cons x a =>
    exfalso
    rw [escape, List.cons_append, List.cons.injEq] at h
    have hmem : '%' ∈ [hexDigit (b.toNat / 16), hexDigit (b.toNat % 16)] := by
      rw [h.2]
      exact List.mem_append_right a List.mem_cons_self
    rcases List.mem_cons.1 hmem with heq | hmem
    · exact hdigit _ (by omega) heq.symm
    · exact hdigit _ (by omega) (List.mem_singleton.1 hmem).symm

theorem encode_kept (hc : Keeps keep c) : encode keep [c] = [c] := encode_cons_keep hc.1 hc.2 []

theorem encode_escaped (h : Readable keep) (hc : ¬ Keeps keep c) :
    3 ≤ (encode keep [c]).length ∧ ∀ x ∈ encode keep [c], IsEscape x := by
  have hno : ∀ b ∈ Utf8.encode [c], keep b = false := by
    intro b hb
    by_contra hkeep
    rw [Bool.not_eq_false] at hkeep
    have hlt := (h b hkeep).1
    have hchar : Char.ofNat b.toNat = c := by
      by_contra hne
      exact Utf8.not_mem_encode (by omega) (fun hmem => hne (List.mem_singleton.1 hmem)) hb
    have hnat : c.toNat = b.toNat := by rw [← hchar, toNat_ofNat hlt]
    refine hc ⟨by omega, ?_⟩
    rw [hnat, UInt8.ofNat_toNat]
    exact hkeep
  constructor
  · obtain ⟨b, rest, hb, -⟩ := Utf8.encodeChar_eq_cons c
    have hfirst : Utf8.encode [c] = b :: rest := by rw [Utf8.encode_cons, hb, Utf8.encode_nil, List.append_nil]
    rw [hfirst] at hno
    rw [encode, hfirst, List.flatMap_cons, List.length_append, byte, hno b List.mem_cons_self]
    exact Nat.le_add_right 3 _
  · intro x hx
    obtain ⟨b, hb, hxb⟩ := List.mem_flatMap.1 hx
    have hlt := b.toNat_lt
    rw [byte, hno b hb] at hxb
    rcases List.mem_cons.1 hxb with rfl | hxb
    · exact Or.inl rfl
    · rcases List.mem_cons.1 hxb with rfl | hxb
      · exact Or.inr (hexDigit_mem _ (by omega))
      · rw [List.mem_singleton.1 hxb]
        exact Or.inr (hexDigit_mem _ (by omega))

theorem length_le_encode (h : Readable keep) (t : List Char) : t.length ≤ (encode keep t).length := by
  induction t with
  | nil => exact Nat.le_refl _
  | cons c t ih =>
    have hone : 1 ≤ (encode keep [c]).length := by
      by_cases hc : Keeps keep c
      · rw [encode_kept hc]
        exact Nat.le_refl _
      · exact Nat.le_trans (by decide) (encode_escaped h hc).1
    rw [← List.singleton_append, encode_append, List.length_append, List.length_append, List.length_singleton]
    omega

theorem encode_eq_self_iff (h : Readable keep) : encode keep t = t ↔ ∀ c ∈ t, Keeps keep c := by
  constructor
  · intro heq
    by_contra hall
    push Not at hall
    obtain ⟨c, hmem, hc⟩ := hall
    -- one escape makes the text longer
    obtain ⟨a, b, rfl⟩ := List.append_of_mem hmem
    have hlen := congrArg List.length heq
    have ha := length_le_encode h a
    have hb := length_le_encode h b
    have hthree := (encode_escaped h hc).1
    rw [← List.singleton_append, encode_append, encode_append] at hlen
    simp only [List.length_append, List.length_singleton] at hlen
    omega
  · exact encode_of_keep

/-- A word without the characters of an escape ends the encoded text if it ends the text. -/
theorem suffix_encode_iff (h : Readable keep) (hw : ∀ x ∈ w, Keeps keep x ∧ ¬ IsEscape x) :
    w <:+ encode keep t ↔ w <:+ t := by
  constructor
  · intro hsuf
    induction w using List.reverseRecOn generalizing t with
    | nil => exact List.nil_suffix
    | append_singleton w x ih =>
      rcases List.eq_nil_or_concat t with rfl | ⟨t, c, rfl⟩
      · rw [encode_nil, List.suffix_nil] at hsuf
        simp at hsuf
      · rw [List.concat_eq_append] at hsuf ⊢
        obtain ⟨hkeep, hescape⟩ := hw x (by simp)
        rw [encode_append] at hsuf
        by_cases hc : Keeps keep c
        · rw [encode_kept hc] at hsuf
          obtain ⟨s, hs⟩ := hsuf
          rw [← List.append_assoc] at hs
          obtain ⟨hfront, hlast⟩ := List.append_inj' hs rfl
          obtain ⟨u, hu⟩ := ih (t := t) (fun y hy => hw y (by simp [hy])) ⟨s, hfront⟩
          rw [← hu, ← hlast, List.append_assoc]
          exact List.suffix_append u (w ++ [x])
        · exfalso
          obtain ⟨hlen, hall⟩ := encode_escaped h hc
          obtain ⟨s, hs⟩ := hsuf
          rcases List.eq_nil_or_concat (encode keep [c]) with hnil | ⟨e, y, he⟩
          · rw [hnil] at hlen
            exact absurd hlen (by decide)
          · rw [List.concat_eq_append] at he
            rw [he, ← List.append_assoc, ← List.append_assoc] at hs
            have hxy : x = y := List.singleton_inj.1 (List.append_inj' hs rfl).2
            exact hescape (hall x (by rw [he, hxy]; simp))
  · rintro ⟨s, rfl⟩
    rw [encode_append, encode_of_keep fun x hx => (hw x hx).1]
    exact List.suffix_append _ w

theorem trimMatches_encode {p : Char → Bool} (h : Readable keep) (hp : ∀ c, IsEscape c → p c = false)
    (ht : Text.trimMatches p t = t) : Text.trimMatches p (encode keep t) = encode keep t := by
  rw [Text.trimMatches_eq_self_iff] at ht ⊢
  have hone : ∀ c, p c = false → ∀ x ∈ encode keep [c], p x = false := by
    intro c hpc x hx
    by_cases hc : Keeps keep c
    · rw [encode_kept hc, List.mem_singleton] at hx
      rw [hx]
      exact hpc
    · exact hp x ((encode_escaped h hc).2 x hx)
  constructor
  · intro x hx
    cases t with
    | nil => cases hx
    | cons c t =>
      have hc := ht.1 c (by simp)
      have hne : encode keep [c] ≠ [] := by
        have hle := length_le_encode h [c]
        exact List.length_pos_iff.1 hle
      rw [← List.singleton_append, encode_append, List.head?_append_of_ne_nil _ hne] at hx
      exact hone c hc x (List.mem_of_mem_head? hx)
  · intro x hx
    rcases List.eq_nil_or_concat t with rfl | ⟨t, c, rfl⟩
    · cases hx
    · rw [List.concat_eq_append] at ht hx
      have hc := ht.2 c (by simp)
      have hne : encode keep [c] ≠ [] := by
        have hle := length_le_encode h [c]
        exact List.length_pos_iff.1 hle
      rw [encode_append, List.getLast?_append_of_ne_nil _ hne] at hx
      exact hone c hc x (List.mem_of_mem_getLast? hx)

end Percent
