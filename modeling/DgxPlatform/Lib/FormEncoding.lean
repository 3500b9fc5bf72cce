import DgxPlatform.Lib.Multipart
import DgxPlatform.Lib.Percent

/-! # A form as it is sent

The named values of a form, in the two encodings a request has for them: `multipart/form-data`,
a part for each value, and `application/x-www-form-urlencoded`, one line of escaped pairs.

* `writtenName_eq_iff`: a plain name is told from every other one in the header of its part.
* `suffix_formEncode_iff`: the words that can end an escaped name.
* `plusToSpace_formEncode`, `written_eq_self_iff`: what an escaped value is when only its spaces
  are read back.
* `readText_formByte`, `readQuery_pair`: a pair with any bytes in its value is read back.
-/

namespace FormEncoding

open Text (trim)

structure Field where
  name : List Char
  value : List Char
deriving DecidableEq, Repr

/-- Distinct names, and values without white space at their ends. -/
structure Form where
  fields : List Field
  distinct : (fields.map Field.name).Nodup
  trimmed : ∀ p ∈ fields, trim p.value = p.value

/-- The value of a field that has the name, if there is one. -/
def lookup (name : List Char) (fields : List Field) : Option (List Char) :=
  (fields.find? fun p => decide (p.name = name)).map Field.value

def crlf : List Char := ['\r', '\n']

def dashes : List Char := ['-', '-']

/-! ## Parts -/

def quoted : Char → List Char
  | '"' => "%22".toList
  | '\r' => "%0D".toList
  | '\n' => "%0A".toList
  | c => [c]

/-- A name as it stands between the quotes of its header. -/
def writtenName (name : List Char) : List Char := name.flatMap quoted

/-- The text of a boundary. -/
def boundaryText (b : Multipart.Boundary) : List Char := b.chars.map fun c => Char.ofNat c.toNat

def disposition : List Char := "Content-Disposition: form-data; ".toList

def nameWord : List Char := "name=".toList

/-- A part: its boundary line, its header, an empty line and the value. -/
def part (b : Multipart.Boundary) (p : Field) : List Char :=
  dashes ++ boundaryText b ++ crlf ++ disposition ++ nameWord ++ ['"'] ++ writtenName p.name ++ ['"'] ++ crlf ++ crlf ++
    p.value ++ crlf

def multipart (b : Multipart.Boundary) (fields : List Field) : List Char :=
  fields.flatMap (part b) ++ dashes ++ boundaryText b ++ dashes ++ crlf

theorem not_mem_writtenName (name : List Char) :
    '"' ∉ writtenName name ∧ '\r' ∉ writtenName name ∧ '\n' ∉ writtenName name := by
  have hone : ∀ c x, x ∈ quoted c → x ≠ '"' ∧ x ≠ '\r' ∧ x ≠ '\n' := by
    intro c x hx
    unfold quoted at hx
    split at hx
    · revert x
      exact Text.forall_of_all (by decide)
    · revert x
      exact Text.forall_of_all (by decide)
    · revert x
      exact Text.forall_of_all (by decide)
    · next hquote hcr hlf =>
        rw [List.mem_singleton.1 hx]
        exact ⟨hquote, hcr, hlf⟩
  refine ⟨?_, ?_, ?_⟩
  · intro hmem
    obtain ⟨c, -, hx⟩ := List.mem_flatMap.1 hmem
    exact (hone c _ hx).1 rfl
  · intro hmem
    obtain ⟨c, -, hx⟩ := List.mem_flatMap.1 hmem
    exact (hone c _ hx).2.1 rfl
  · intro hmem
    obtain ⟨c, -, hx⟩ := List.mem_flatMap.1 hmem
    exact (hone c _ hx).2.2 rfl

theorem writtenName_eq_iff {name word : List Char} (hword : ∀ c ∈ word, c ≠ '%' ∧ c ≠ '"' ∧ c ≠ '\r' ∧ c ≠ '\n') :
    writtenName name = word ↔ name = word := by
  have hplain : ∀ c, c ≠ '"' → c ≠ '\r' → c ≠ '\n' → quoted c = [c] := by
    intro c hquote hcr hlf
    unfold quoted
    split
    · exact absurd rfl hquote
    · exact absurd rfl hcr
    · exact absurd rfl hlf
    · rfl
  have hself : ∀ t : List Char, (∀ c ∈ t, quoted c = [c]) → writtenName t = t := by
    intro t ht
    induction t with
    | nil => rfl
    | cons c t ih =>
      rw [List.forall_mem_cons] at ht
      rw [writtenName, List.flatMap_cons, ht.1, ← writtenName, ih ht.2]
      rfl
  constructor
  · intro h
    rw [← h]
    refine (hself name ?_).symm
    intro c hc
    have hin : ∀ x ∈ quoted c, x ≠ '%' := by
      intro x hx
      exact (hword x (by rw [← h]; exact List.mem_flatMap.2 ⟨c, hc, hx⟩)).1
    by_cases hquote : c = '"'
    · rw [hquote] at hin
      exact absurd rfl (hin '%' (by decide))
    · by_cases hcr : c = '\r'
      · rw [hcr] at hin
        exact absurd rfl (hin '%' (by decide))
      · by_cases hlf : c = '\n'
        · rw [hlf] at hin
          exact absurd rfl (hin '%' (by decide))
        · exact hplain c hquote hcr hlf
  · rintro rfl
    apply hself
    intro c hc
    obtain ⟨-, hquote, hcr, hlf⟩ := hword c hc
    exact hplain c hquote hcr hlf

theorem boundaryText_plain (b : Multipart.Boundary) :
    '"' ∉ boundaryText b ∧ '\r' ∉ boundaryText b ∧ '\n' ∉ boundaryText b := by
  have hall : ∀ n < 256, Multipart.isBoundaryChar (UInt8.ofNat n) = true →
      Char.ofNat n ≠ '"' ∧ Char.ofNat n ≠ '\r' ∧ Char.ofNat n ≠ '\n' := by
    decide +kernel
  have hone : ∀ x ∈ boundaryText b, x ≠ '"' ∧ x ≠ '\r' ∧ x ≠ '\n' := by
    intro x hx
    obtain ⟨c, hc, rfl⟩ := List.mem_map.1 hx
    refine hall c.toNat c.toNat_lt ?_
    rw [UInt8.ofNat_toNat]
    exact b.valid c hc
  exact ⟨fun h => (hone _ h).1 rfl, fun h => (hone _ h).2.1 rfl, fun h => (hone _ h).2.2 rfl⟩

/-! ## Pairs -/

/-- A byte that is not escaped. -/
def isFormByte (b : UInt8) : Bool :=
  (48 ≤ b && b ≤ 57) || (65 ≤ b && b ≤ 90) || (97 ≤ b && b ≤ 122) || b == 42 || b == 45 || b == 46 || b == 95

/-- A text with its bytes escaped, the spaces apart. -/
def written (t : List Char) : List Char := Percent.encode (fun b => isFormByte b || b == 32) t

/-- A name or a value: a plus sign stands for a space. -/
def formEncode (t : List Char) : List Char := (written t).map fun c => if c = ' ' then '+' else c

def pair (p : Field) : List Char := formEncode p.name ++ '=' :: formEncode p.value

def urlencoded (fields : List Field) : List Char := ['&'].intercalate (fields.map pair)

/-- `replace('+', " ")`. -/
def plusToSpace (t : List Char) : List Char := t.map fun c => if c = '+' then ' ' else c

/-- Letters, digits, the marks `*-._` and spaces. -/
def IsPlain (t : List Char) : Prop := ∀ c ∈ t, Percent.Keeps (fun b => isFormByte b || b == 32) c

theorem readable : Percent.Readable fun b => isFormByte b || b == 32 := by
  have hall : ∀ n < 256, (isFormByte (UInt8.ofNat n) || UInt8.ofNat n == 32) = true → n < 128 ∧ n ≠ 37 := by
    decide +kernel
  intro b hb
  have hb' := hall b.toNat b.toNat_lt (by rw [UInt8.ofNat_toNat]; exact hb)
  refine ⟨hb'.1, ?_⟩
  rintro rfl
  exact hb'.2 rfl

theorem written_eq_self_iff {t : List Char} : written t = t ↔ IsPlain t := Percent.encode_eq_self_iff readable

/-- The characters that mark the fields are not in a written text. -/
theorem not_mem_written {c : Char} (hc : c ∈ "+&=\"".toList) (t : List Char) : c ∉ written t := by
  have hall : ∀ n < 256, (isFormByte (UInt8.ofNat n) || UInt8.ofNat n == 32) = true →
      Char.ofNat n ∉ "+&=\"".toList := by
    decide +kernel
  have hdigits : ∀ x ∈ "+&=\"".toList, x ∉ "0123456789ABCDEF".toList := Text.forall_of_all (by decide)
  intro hmem
  rcases Percent.mem_encode hmem with ⟨b, hb, rfl⟩ | rfl | hhex
  · exact hall b.toNat b.toNat_lt (by rw [UInt8.ofNat_toNat]; exact hb) hc
  · exact absurd hc (by decide)
  · exact absurd hhex (hdigits c hc)

theorem not_mem_formEncode {c : Char} (hc : c ∈ "&=\"".toList) (t : List Char) : c ∉ formEncode t := by
  have hmarks : ∀ x ∈ "&=\"".toList, x ∈ "+&=\"".toList := Text.forall_of_all (by decide)
  intro hmem
  obtain ⟨x, hx, heq⟩ := List.mem_map.1 hmem
  split at heq
  · rw [← heq] at hc
    exact absurd hc (by decide)
  · rw [heq] at hx
    exact not_mem_written (hmarks c hc) t hx

theorem plusToSpace_formEncode (t : List Char) : plusToSpace (formEncode t) = written t := by
  have hplus := not_mem_written (c := '+') (by decide) t
  unfold plusToSpace formEncode
  rw [List.map_map]
  calc (written t).map _ = (written t).map id := by
        apply List.map_congr_left
        intro c hc
        have hne : c ≠ '+' := fun h => hplus (h ▸ hc)
        show (if (if c = ' ' then '+' else c) = '+' then ' ' else if c = ' ' then '+' else c) = c
        by_cases hspace : c = ' '
        · rw [if_pos hspace, if_pos rfl, hspace]
        · rw [if_neg hspace, if_neg hne]
    _ = written t := List.map_id _

theorem small_letter : ∀ n < 123, 97 ≤ n →
    Percent.Keeps (fun b => isFormByte b || b == 32) (Char.ofNat n) ∧ ¬ Percent.IsEscape (Char.ofNat n) ∧
      Char.ofNat n ≠ ' ' ∧ Char.ofNat n ≠ '+' := by
  decide +kernel

/-- A word of small letters ends the encoded text if it ends the text. -/
theorem suffix_formEncode_iff {word t : List Char} (hword : ∀ c ∈ word, 97 ≤ c.toNat ∧ c.toNat < 123) :
    word <:+ formEncode t ↔ word <:+ t := by
  have hsmall : ∀ c ∈ word, Percent.Keeps (fun b => isFormByte b || b == 32) c ∧ ¬ Percent.IsEscape c ∧
      c ≠ ' ' ∧ c ≠ '+' := by
    intro c hc
    have h := small_letter c.toNat (hword c hc).2 (hword c hc).1
    rw [Char.ofNat_toNat] at h
    exact h
  have hspace : word.map (fun c => if c = ' ' then '+' else c) = word := by
    rw [List.map_congr_left fun c hc => if_neg (hsmall c hc).2.2.1, List.map_id']
  have hplus : word.map (fun c => if c = '+' then ' ' else c) = word := by
    rw [List.map_congr_left fun c hc => if_neg (hsmall c hc).2.2.2, List.map_id']
  have hmap : word <:+ formEncode t ↔ word <:+ written t := by
    constructor
    · rintro ⟨s, hs⟩
      rw [← plusToSpace_formEncode, ← hs, plusToSpace, List.map_append, hplus]
      exact List.suffix_append _ word
    · rintro ⟨s, hs⟩
      rw [formEncode, ← hs, List.map_append, hspace]
      exact List.suffix_append _ word
  exact hmap.trans (Percent.suffix_encode_iff readable fun c hc => ⟨(hsmall c hc).1, (hsmall c hc).2.1⟩)

theorem isWhitespace_escape {c : Char} (h : Percent.IsEscape c) : Text.isWhitespace c = false := by
  have hdigits : ∀ x ∈ "0123456789ABCDEF".toList, Text.isWhitespace x = false := Text.forall_of_all (by decide)
  rcases h with rfl | h
  · rfl
  · exact hdigits c h

theorem trim_written {t : List Char} (ht : trim t = t) : trim (written t) = written t := by
  exact Percent.trimMatches_encode readable (fun _ => isWhitespace_escape) ht

/-! ## Reading a query -/

/-- A byte of a value, a space as a plus sign. -/
def formByte (keep : UInt8 → Bool) (b : UInt8) : List Char := if b = 32 then ['+'] else Percent.byte keep b

/-- The bytes of a name or of a value. -/
def readText (t : List Char) : List UInt8 := Percent.decode (plusToSpace t)

/-- A pair that is split at its first equals sign. -/
def readPair (t : List Char) : List UInt8 × List UInt8 :=
  let (name, value) := (Text.splitOnce ['='] t).getD (t, [])
  (readText name, readText value)

/-- The pairs of a query, in order. -/
def readQuery (query : List Char) : List (List UInt8 × List UInt8) :=
  ((query.splitOn '&').filter fun t => !t.isEmpty).map readPair

section Query

variable {keep : UInt8 → Bool}

theorem plusToSpace_append (s t : List Char) : plusToSpace (s ++ t) = plusToSpace s ++ plusToSpace t := List.map_append

theorem plusToSpace_of_notMem {t : List Char} (h : '+' ∉ t) : plusToSpace t = t := by
  unfold plusToSpace
  calc t.map _ = t.map id := by
        apply List.map_congr_left
        intro c hc
        have hne : c ≠ '+' := by
          rintro rfl
          exact h hc
        exact if_neg hne
    _ = t := List.map_id t

theorem plusToSpace_formByte (hplus : keep 43 = false) (hkeep : Percent.Readable keep) (b : UInt8) :
    plusToSpace (formByte keep b) = Percent.byte (fun b => keep b || b == 32) b := by
  unfold formByte
  by_cases hspace : b = 32
  · subst hspace
    rw [if_pos rfl, Percent.byte, if_pos (by simp)]
    rfl
  · rw [if_neg hspace, Percent.byte, Percent.byte]
    have hsame : (keep b || b == 32) = keep b := by simp [hspace]
    rw [hsame]
    by_cases hb : keep b = true
    · rw [if_pos hb]
      apply plusToSpace_of_notMem
      intro hmem
      have hchar := congrArg Char.toNat (List.mem_singleton.1 hmem)
      rw [Percent.toNat_ofNat (hkeep b hb).1] at hchar
      have heq : b = 43 := UInt8.toNat_inj.1 hchar.symm
      rw [heq, hplus] at hb
      exact absurd hb (by decide)
    · rw [if_neg hb]
      apply plusToSpace_of_notMem
      have hdigit : ∀ n < 16, Percent.hexDigit n ≠ '+' := by decide
      have hlt := b.toNat_lt
      intro hmem
      rcases List.mem_cons.1 hmem with heq | hmem
      · exact absurd heq (by decide)
      · rcases List.mem_cons.1 hmem with heq | hmem
        · exact hdigit _ (by omega) heq.symm
        · exact hdigit _ (by omega) (List.mem_singleton.1 hmem).symm

theorem readText_formByte (hplus : keep 43 = false) (hkeep : Percent.Readable keep) (bs : List UInt8) :
    readText (bs.flatMap (formByte keep)) = bs := by
  have hspace : Percent.Readable fun b => keep b || b == 32 := by
    intro b hb
    rw [Bool.or_eq_true] at hb
    rcases hb with hb | hb
    · exact hkeep b hb
    · rw [eq_of_beq hb]
      decide
  have hread : plusToSpace (bs.flatMap (formByte keep)) = bs.flatMap (Percent.byte fun b => keep b || b == 32) := by
    induction bs with
    | nil => rfl
    | cons b bs ih => rw [List.flatMap_cons, List.flatMap_cons, plusToSpace_append, plusToSpace_formByte hplus hkeep, ih]
  rw [readText, hread, Percent.decode_bytes hspace]

theorem mem_formByte {c : Char} {bs : List UInt8} (h : c ∈ bs.flatMap (formByte keep)) :
    (∃ b, keep b = true ∧ c = Char.ofNat b.toNat) ∨ c = '+' ∨ Percent.IsEscape c := by
  rcases List.mem_flatMap.1 h with ⟨b, -, hb⟩
  unfold formByte at hb
  split at hb
  · exact Or.inr (Or.inl (List.mem_singleton.1 hb))
  · rcases Percent.mem_byte hb with hkept | hescape
    · exact Or.inl ⟨b, hkept⟩
    · exact Or.inr (Or.inr hescape)

theorem percent_formByte (hkeep : Percent.Readable keep) {bs : List UInt8} {a r : List Char}
    (h : bs.flatMap (formByte keep) = a ++ '%' :: r) :
    ∃ b r', keep b = false ∧ '%' :: r = Percent.escape b ++ r' := by
  induction bs generalizing a with
  | nil => simp at h
  | cons b bs ih =>
    rw [List.flatMap_cons] at h
    rcases List.append_eq_append_iff.1 h with ⟨m, rfl, hm⟩ | ⟨m, hm, hrest⟩
    · exact ih hm
    · cases m with
      | nil =>
        rw [List.nil_append] at hrest
        exact ih (a := []) hrest.symm
      | cons x m =>
        rw [List.cons_append, List.cons.injEq] at hrest
        rcases hrest with ⟨rfl, rfl⟩
        -- the sign is a character of this byte: of its escape, and the first one
        have hmem : '%' ∈ formByte keep b := by
          rw [hm]
          exact List.mem_append_right a List.mem_cons_self
        unfold formByte at hm hmem
        split at hmem
        · exact absurd (List.mem_singleton.1 hmem) (by decide)
        · next hspace =>
            rw [if_neg hspace] at hm
            by_cases hb : keep b = true
            · rw [Percent.byte, if_pos hb] at hmem
              have hchar := congrArg Char.toNat (List.mem_singleton.1 hmem)
              rw [Percent.toNat_ofNat (hkeep b hb).1] at hchar
              exact absurd (UInt8.toNat_inj.1 hchar.symm) (hkeep b hb).2
            · rw [Percent.byte, if_neg hb] at hm
              have ha : a = [] := Percent.escape_first hm
              rw [ha, List.nil_append] at hm
              refine ⟨b, bs.flatMap (formByte keep), by simpa using hb, ?_⟩
              rw [hm]
              rfl

theorem readQuery_pair {name value : List Char} (hname : '&' ∉ name ∧ '=' ∉ name) (hvalue : '&' ∉ value) :
    readQuery (name ++ '=' :: value) = [(readText name, readText value)] := by
  have hone : (name ++ '=' :: value).splitOn '&' = [name ++ '=' :: value] := by
    apply List.splitOn_eq_singleton
    rw [List.mem_append, List.mem_cons]
    rintro (hmem | hmem | hmem)
    · exact hname.1 hmem
    · exact absurd hmem (by decide)
    · exact hvalue hmem
  have hkept : [name ++ '=' :: value].filter (fun t => !t.isEmpty) = [name ++ '=' :: value] := by
    cases name <;> rfl
  rw [readQuery, hone, hkept, List.map_singleton, readPair, Text.splitOnce_singleton hname.2]
  rfl

end Query

end FormEncoding
