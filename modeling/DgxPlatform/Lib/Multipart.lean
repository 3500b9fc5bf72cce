import Mathlib.Data.List.DropRight
import DgxPlatform.Lib.Framing

/-! # Forms of several parts

A body of the type `multipart/form-data`: parts between lines that begin with a
boundary, each with header lines, an empty line and any bytes. The header
`Content-Disposition` has parameters, written as a token or between quotes.

* `layout`: the parts as they are written, the header lines unfolded.
* `readParam`, `readHeader`, `readPart`: what a written piece says.
* `parse`: the parts of a well-formed body.
-/

namespace Multipart

abbrev Octets := List UInt8

/-- The bytes of an ASCII text. -/
def ascii (t : List Char) : Octets := t.map fun c => UInt8.ofNat c.toNat

def quote : UInt8 := 34
def backslash : UInt8 := 92
def equals : UInt8 := 61
def semicolon : UInt8 := 59
def colon : UInt8 := 58
def crlf : Octets := [13, 10]

/-- A blank or a tab. -/
def isBlank (c : UInt8) : Bool := c == 32 || c == 9

def isAlnum (c : UInt8) : Bool :=
  (48 ≤ c && c ≤ 57) || (65 ≤ c && c ≤ 90) || (97 ≤ c && c ≤ 122)

def lower (t : Octets) : Octets := t.map fun c => if 65 ≤ c && c ≤ 90 then c + 32 else c

def trim (t : Octets) : Octets := (t.dropWhile isBlank).rdropWhile isBlank

theorem exists_trim (t : Octets) :
    ∃ a b, t = a ++ (trim t ++ b) ∧ a.all isBlank = true ∧ b.all isBlank = true := by
  refine ⟨t.takeWhile isBlank, (t.dropWhile isBlank).rtakeWhile isBlank, ?_, ?_, ?_⟩
  · rw [trim, List.rdropWhile_append_rtakeWhile, List.takeWhile_append_dropWhile]
  · exact List.all_takeWhile
  · rw [List.rtakeWhile, List.all_reverse]
    exact List.all_takeWhile

theorem trim_eq {c d : UInt8} {m m' z : Octets} (hc : isBlank c = false) (hd : isBlank d = false)
    (hm : c :: m = m' ++ [d]) (hz : z.all isBlank = true) : trim (c :: m ++ z) = c :: m := by
  have hdrop : (c :: m ++ z).dropWhile isBlank = c :: m ++ z := by
    rw [List.cons_append, List.dropWhile_cons_of_neg (by rw [hc]; exact Bool.false_ne_true)]
  rw [trim, hdrop, hm]
  clear hdrop
  induction z using List.reverseRecOn with
  | nil => rw [List.append_nil, List.rdropWhile_concat_neg _ _ _ (by rw [hd]; exact Bool.false_ne_true)]
  | append_singleton z x ih =>
    rw [List.all_append, Bool.and_eq_true] at hz
    rw [← List.append_assoc, List.rdropWhile_concat_pos _ _ _ (by simpa using hz.2)]
    exact ih hz.1

theorem mem_trim {c : UInt8} {t : Octets} (hc : isBlank c = false) (h : c ∈ t) : c ∈ trim t := by
  obtain ⟨a, b, heq, ha, hb⟩ := exists_trim t
  have hblank : ∀ {s : Octets}, s.all isBlank = true → c ∉ s := by
    intro s hs hmem
    rw [List.all_eq_true.1 hs c hmem] at hc
    cases hc
  rw [heq] at h
  rcases List.mem_append.1 h with h | h
  · exact absurd h (hblank ha)
  · rcases List.mem_append.1 h with h | h
    · exact h
    · exact absurd h (hblank hb)

/-- No control character, blank, separator or byte above ASCII. -/
def isTokenChar (c : UInt8) : Bool :=
  33 ≤ c && c ≤ 126 && !(ascii "()<>@,;:\\\"/[]?=".toList).contains c

def isToken (t : Octets) : Bool := !t.isEmpty && t.all isTokenChar

/-! ## Boundary lines -/

def isBoundaryChar (c : UInt8) : Bool := isAlnum c || (ascii "'()+_,-./:=? ".toList).contains c

structure Boundary where
  chars : Octets
  length_pos : 0 < chars.length
  length_le : chars.length ≤ 70
  valid : ∀ c ∈ chars, isBoundaryChar c = true
  last : chars.getLast? ≠ some 32

/-- What a boundary line begins with. -/
def Boundary.mark (b : Boundary) : Octets := ascii "--".toList ++ b.chars

/-- The lines before the first boundary line, then each boundary line with the lines behind it. -/
def sections (mark : Octets) : List Octets → List Octets × List (Octets × List Octets)
  | [] => ([], [])
  | l :: ls =>
      let s := sections mark ls
      if mark <+: l then ([], (l, s.1) :: s.2) else (l :: s.1, s.2)

/-- A boundary line before a part. -/
def opens (mark l : Octets) : Bool := (l.drop mark.length).all isBlank

/-- The boundary line behind the last part. -/
def closes (mark l : Octets) : Bool :=
  decide (ascii "--".toList <+: l.drop mark.length) && (l.drop (mark.length + 2)).all isBlank

/-! ## Parts as they are written -/

/-- A line that begins with a blank goes on with the line before it. -/
def joinFold (l : Octets) (ls : List Octets) : List Octets :=
  if ls.headI.head?.any isBlank then (l ++ ls.headI) :: ls.tail else l :: ls

def unfoldLines (ls : List Octets) : List Octets := ls.foldr joinFold []

theorem unfoldLines_cons (l : Octets) (ls : List Octets) :
    unfoldLines (l :: ls) = joinFold l (unfoldLines ls) := rfl

structure RawPart where
  lines : List Octets
  data : Octets
deriving DecidableEq

/-- The header lines, an empty line and the data. -/
def rawPart (ls : List Octets) : Option RawPart :=
  if [] ∈ ls then
    some ⟨unfoldLines (ls.takeWhile fun l => !l.isEmpty),
      crlf.intercalate (ls.dropWhile fun l => !l.isEmpty).tail⟩
  else none

/-- The parts up to the closing line; what comes behind it is not read. -/
def rawParts (mark : Octets) : List (Octets × List Octets) → Option (List RawPart)
  | [] => none
  | s :: rest =>
      if closes mark s.1 then some []
      else if opens mark s.1 then (rawPart s.2).bind fun p => (rawParts mark rest).map (p :: ·)
      else none

def layout (b : Boundary) (body : Octets) : Option (List RawPart) :=
  rawParts b.mark (sections b.mark (Framing.split crlf body)).2

/-! ## Parameters -/

/-- Where a reader of parameters stands. -/
inductive Mode where
  | plain
  | quoted
  | escaped
deriving DecidableEq

def Mode.next : Mode → UInt8 → Mode
  | .plain, c => if c = quote then .quoted else .plain
  | .quoted, c => if c = quote then .plain else if c = backslash then .escaped else .quoted
  | .escaped, _ => .quoted

/-- The pieces between the semicolons that no quotes enclose. -/
def segments : Mode → Octets → List Octets
  | _, [] => [[]]
  | m, c :: t =>
      if m = .plain ∧ c = semicolon then [] :: segments m t
      else (c :: (segments (m.next c) t).headI) :: (segments (m.next c) t).tail

theorem segments_eq (m : Mode) (t : Octets) :
    (segments m t).headI :: (segments m t).tail = segments m t := by
  cases t with
  | nil => cases m <;> rfl
  | cons c t =>
    rw [segments]
    split <;> rfl

theorem segments_append {s : Octets} (h : semicolon ∉ s) (m : Mode) (t : Octets) :
    segments m (s ++ t) =
      (s ++ (segments (s.foldl Mode.next m) t).headI) :: (segments (s.foldl Mode.next m) t).tail := by
  induction s generalizing m with
  | nil => exact (segments_eq m t).symm
  | cons c s ih =>
    rw [List.mem_cons, not_or] at h
    rw [List.cons_append, segments, if_neg fun hc => h.1 hc.2.symm, ih h.2]
    rfl

theorem headI_segments_prefix (m : Mode) (t : Octets) : (segments m t).headI <+: t := by
  induction t generalizing m with
  | nil => cases m <;> exact List.nil_prefix
  | cons c t ih =>
    rw [segments]
    split
    · exact List.nil_prefix
    · exact List.cons_prefix_cons.2 ⟨rfl, ih (m.next c)⟩

/-- What stands between quotes, from behind the first one to the end. -/
def unquote : Bool → Octets → Option Octets
  | _, [] => none
  | true, c :: t => (unquote false t).map (c :: ·)
  | false, c :: t =>
      if c = quote then if t = [] then some [] else none
      else if c = backslash then unquote true t
      else (unquote false t).map (c :: ·)

theorem unquote_quote (t : Octets) : unquote false (quote :: t) = if t = [] then some [] else none := rfl

theorem unquote_append {s : Octets} (hq : quote ∉ s) (hb : backslash ∉ s) (t : Octets) :
    unquote false (s ++ t) = (unquote false t).map (s ++ ·) := by
  induction s with
  | nil => simp
  | cons c s ih =>
    rw [List.mem_cons, not_or] at hq hb
    rw [List.cons_append, unquote, if_neg (Ne.symm hq.1), if_neg (Ne.symm hb.1), ih hq.2 hb.2,
      Option.map_map]
    rfl

theorem exists_unquote {esc : Bool} {c : UInt8} {t v : Octets} (ht : t ≠ [])
    (h : unquote esc (c :: t) = some v) : ∃ esc' v', unquote esc' t = some v' := by
  cases esc with
  | true =>
    obtain ⟨v', hv', -⟩ := Option.map_eq_some_iff.1 h
    exact ⟨false, v', hv'⟩
  | false =>
    rw [unquote, if_neg ht] at h
    split at h
    · cases h
    · split at h
      · exact ⟨true, v, h⟩
      · obtain ⟨v', hv', -⟩ := Option.map_eq_some_iff.1 h
        exact ⟨false, v', hv'⟩

theorem eq_nil_of_unquote {esc : Bool} {u t v : Octets}
    (h : unquote esc (u ++ equals :: quote :: t) = some v) : t = [] := by
  induction u generalizing esc v with
  | nil =>
    obtain ⟨v', hv'⟩ : ∃ v', unquote false (quote :: t) = some v' := by
      cases esc with
      | true =>
        obtain ⟨v', hv', -⟩ := Option.map_eq_some_iff.1 h
        exact ⟨v', hv'⟩
      | false =>
        have hcons := unquote_append (s := [equals]) (by decide) (by decide) (quote :: t)
        obtain ⟨v', hv', -⟩ := Option.map_eq_some_iff.1 (hcons.symm.trans h)
        exact ⟨v', hv'⟩
    rw [unquote_quote] at hv'
    split at hv'
    · next ht => exact ht
    · cases hv'
  | cons c u ih =>
    obtain ⟨esc', v', hv'⟩ := exists_unquote (by simp) h
    exact ih hv'

def readValue (v : Octets) : Option Octets :=
  if v.head? = some quote then unquote false v.tail else if isToken v then some v else none

structure Param where
  key : Octets
  value : Octets
deriving DecidableEq

/-- The form's own name for a part, not the file's. -/
def Param.IsName (p : Param) : Prop := lower p.key = ascii "name".toList

instance : DecidablePred Param.IsName := fun p => inferInstanceAs (Decidable (lower p.key = _))

def readParam (seg : Octets) : Option Param :=
  (Framing.cut [equals] seg).bind fun s =>
    if isToken (trim s.1) then (readValue (trim s.2)).map (Param.mk (trim s.1)) else none

/-! ## Headers and parts -/

inductive Header where
  | disposition (params : List Param)
  | other (name value : Octets)
deriving DecidableEq

/-- The name and the value of a header line. -/
def field (line : Octets) : Option (Octets × Octets) :=
  (Framing.cut [colon] line).bind fun h => if isToken h.1 then some h else none

def IsDisposition (name : Octets) : Prop := lower name = ascii "content-disposition".toList

instance : DecidablePred IsDisposition := fun name => inferInstanceAs (Decidable (lower name = _))

/-- The parameters of a value as they are written, behind its type. -/
def paramTexts (value : Octets) : List Octets := (segments .plain value).tail

def readDisposition (value : Octets) : Option (List Param) :=
  if lower (trim (segments .plain value).headI) = ascii "form-data".toList then
    (paramTexts value).mapM readParam
  else none

def readHeader (line : Octets) : Option Header :=
  (field line).bind fun h =>
    if IsDisposition h.1 then (readDisposition h.2).map .disposition else some (.other h.1 h.2)

structure Part where
  headers : List Header
  data : Octets
deriving DecidableEq

def Header.params : Header → List Param
  | .disposition ps => ps
  | .other .. => []

def Part.params (p : Part) : List Param := p.headers.flatMap Header.params

/-- A part has one name. -/
def Part.Named (p : Part) : Prop := (p.params.filter fun q => decide q.IsName).length = 1

instance : DecidablePred Part.Named := fun _ => inferInstanceAs (Decidable (List.length _ = 1))

def readPart (raw : RawPart) : Option Part :=
  (raw.lines.mapM readHeader).bind fun hs =>
    if Part.Named ⟨hs, raw.data⟩ then some ⟨hs, raw.data⟩ else none

/-- The parts of a well-formed body. -/
def parse (b : Boundary) (body : Octets) : Option (List Part) :=
  (layout b body).bind fun raws => raws.mapM readPart

end Multipart
