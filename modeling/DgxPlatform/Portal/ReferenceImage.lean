import DgxPlatform.Lib.Bytes
import DgxPlatform.Lib.Text

/-! # The reference image of a video

`image_dimensions` reads the width and the height from the header of a PNG, a JPEG or
a WebP; `reference_image` refuses an image of too many pixels. In a JPEG the frame
header stands behind any number of segments, and the walk over them goes by the
lengths they state.

An index out of range, or a product beyond `u64`, is an outcome of the model, and so
is a walk that does not come to its end (`Outcome`). An index here is at most 65537
beyond the length of the buffer, so the sums of `usize` do not overflow.
-/

namespace Portal.ReferenceImage

open Bytes

inductive Outcome (α : Type) where
  | panicked
  | unfinished
  | done (result : α)
deriving DecidableEq, Repr

abbrev Dimensions := Nat × Nat

def MAX_UPLOAD_BYTES : Nat := 15 * 1024 * 1024
def MAX_IMAGE_PIXELS : Nat := 40000000

def bytes (t : List Char) : Buffer := t.map fun c => UInt8.ofNat c.toNat

def PNG_SIGNATURE : Buffer := [0x89, 0x50, 0x4E, 0x47, 0x0D, 0x0A, 0x1A, 0x0A]

def SOF_MARKERS : List UInt8 :=
  [0xC0, 0xC1, 0xC2, 0xC3, 0xC5, 0xC6, 0xC7, 0xC9, 0xCA, 0xCB, 0xCD, 0xCE, 0xCF]

def SOS : UInt8 := 0xDA

/-- `marker == 0x01 || (0xD0..=0xD8).contains(&marker)`. -/
def standsAlone (marker : UInt8) : Bool := marker == 0x01 || (0xD0 ≤ marker && marker ≤ 0xD8)

def pair (w h : Option Nat) : Option Dimensions := w.bind fun w => h.map fun h => (w, h)

/-! ## `image_dimensions` -/

def pngDimensions (d : Buffer) : Option Dimensions :=
  if slice d 0 8 = some PNG_SIGNATURE ∧ slice d 12 4 = some (bytes "IHDR".toList) then
    pair (numberBE 4 d 16) (numberBE 4 d 20)
  else none

/-- The loop over the markers of a JPEG, from the index `i`. -/
def jpegLoop (d : Buffer) : Nat → Nat → Outcome (Option Dimensions)
  | 0, _ => .unfinished
  | fuel + 1, i =>
      if i + 9 < d.length then
        match d[i]?, d[i + 1]? with
        | some lead, some marker =>
            if lead ≠ 0xFF then .done none
            else if standsAlone marker then jpegLoop d fuel (i + 2)
            else
              match numberBE 2 d (i + 2) with
              | none => .done none
              | some size =>
                  if marker ∈ SOF_MARKERS then .done (pair (numberBE 2 d (i + 7)) (numberBE 2 d (i + 5)))
                  else if marker = SOS then .done none
                  else jpegLoop d fuel (i + 2 + size)
        | _, _ => .panicked
      else .done none

/-- A marker has two bytes at least, so that many rounds are enough. -/
def jpegDimensions (d : Buffer) : Outcome (Option Dimensions) := jpegLoop d (d.length + 1) 2

def webpDimensions (d : Buffer) : Option Dimensions :=
  if slice d 0 4 = some (bytes "RIFF".toList) ∧ slice d 8 4 = some (bytes "WEBP".toList) then
    if slice d 12 4 = some (bytes "VP8X".toList) then
      pair ((number 3 d 24).map (· + 1)) ((number 3 d 27).map (· + 1))
    else if slice d 12 4 = some (bytes "VP8 ".toList) then
      pair ((number 2 d 26).map (· &&& 0x3FFF)) ((number 2 d 28).map (· &&& 0x3FFF))
    else if slice d 12 4 = some (bytes "VP8L".toList) then
      (number 4 d 21).map fun bits => ((bits &&& 0x3FFF) + 1, ((bits >>> 14) &&& 0x3FFF) + 1)
    else none
  else none

/-- `image_dimensions`. -/
def imageDimensions (d : Buffer) (mime : List Char) : Outcome (Option Dimensions) :=
  if mime = "image/png".toList then .done (pngDimensions d)
  else if mime = "image/jpeg".toList then jpegDimensions d
  else if mime = "image/webp".toList then .done (webpDimensions d)
  else .done none

/-- A product of `u64`. -/
def checkedMul (a b : Nat) : Outcome Nat := if a * b < 2 ^ 64 then .done (a * b) else .panicked

def MIMES : List (List Char) := ["image/png".toList, "image/jpeg".toList, "image/webp".toList]

def number10 (n : Nat) : List Char := (toString n).toList

def tooManyPixels (w h : Nat) : List Char :=
  "Image trop grande : ".toList ++ number10 w ++ "×".toList ++ number10 h ++ " pixels (".toList ++
    number10 (MAX_IMAGE_PIXELS / 1000000) ++ " Mpx max).".toList

/-- `reference_image`: accepted, or the refusal. -/
def referenceImage (name mime : List Char) (data : Buffer) : Outcome (Except (List Char) Unit) :=
  if name = [] then .done (.error "Aucune image fournie.".toList)
  else if mime ∉ MIMES then .done (.error "Format d'image non supporté (PNG/JPEG/WebP uniquement).".toList)
  else if data.length > MAX_UPLOAD_BYTES then .done (.error "Image trop volumineuse (15 Mo max).".toList)
  else
    match imageDimensions data mime with
    | .panicked => .panicked
    | .unfinished => .unfinished
    | .done none => .done (.error "Image illisible (en-tête PNG/JPEG/WebP non reconnu).".toList)
    | .done (some (w, h)) =>
        match checkedMul w h with
        | .panicked => .panicked
        | .unfinished => .unfinished
        | .done pixels =>
            if pixels > MAX_IMAGE_PIXELS then .done (.error (tooManyPixels w h)) else .done (.ok ())

/-! ## What a file declares -/

/-- What may stand before the frame header of a JPEG: a marker alone, or a segment that
states its length. -/
inductive Piece where
  | alone (marker : UInt8) (h : standsAlone marker = true)
  | segment (marker : UInt8) (payload : Buffer) (halone : standsAlone marker = false)
      (hsof : marker ∉ SOF_MARKERS) (hsos : marker ≠ SOS) (hlen : payload.length + 2 < 65536)

def Piece.bytes : Piece → Buffer
  | .alone marker _ => [0xFF, marker]
  | .segment marker payload _ _ _ _ => 0xFF :: marker :: (ofNatBE 2 (payload.length + 2) ++ payload)

/-- The frame header of a JPEG. -/
structure FrameHeader where
  marker : UInt8
  precision : UInt8
  width : Nat
  height : Nat
  /-- The number of components, and what is said of each. -/
  components : Buffer
  isSof : marker ∈ SOF_MARKERS
  width_lt : width < 65536
  height_lt : height < 65536
  components_pos : 0 < components.length
  components_lt : components.length + 7 < 65536

def FrameHeader.bytes (f : FrameHeader) : Buffer :=
  0xFF :: f.marker :: (ofNatBE 2 (f.components.length + 7) ++
    (f.precision :: (ofNatBE 2 f.height ++ (ofNatBE 2 f.width ++ f.components))))

/-- The files of a type and the width and height they declare. -/
inductive Declares : List Char → Buffer → Nat → Nat → Prop where
  | png {chunkLength rest : Buffer} {w h : Nat} (hlen : chunkLength.length = 4) (hw : w < 2 ^ 32) (hh : h < 2 ^ 32) :
      Declares "image/png".toList
        [PNG_SIGNATURE, chunkLength, bytes "IHDR".toList, ofNatBE 4 w, ofNatBE 4 h, rest].flatten w h
  | jpeg (pieces : List Piece) (f : FrameHeader) (rest : Buffer) :
      Declares "image/jpeg".toList ([0xFF, 0xD8] ++ (pieces.flatMap Piece.bytes ++ (f.bytes ++ rest))) f.width f.height
  /-- A key frame: each of the two numbers has its scale above it. -/
  | vp8 {size chunkSize tag rest : Buffer} {w h xscale yscale : Nat} (hsize : size.length = 4)
      (hchunk : chunkSize.length = 4) (htag : tag.length = 3) (hw : w < 2 ^ 14) (hh : h < 2 ^ 14) (hx : xscale < 4)
      (hy : yscale < 4) :
      Declares "image/webp".toList
        [bytes "RIFF".toList, size, bytes "WEBP".toList, bytes "VP8 ".toList, chunkSize, tag, [0x9D, 0x01, 0x2A],
          ofNat 2 (w + 2 ^ 14 * xscale), ofNat 2 (h + 2 ^ 14 * yscale), rest].flatten w h
  /-- The two numbers, each less one, and four bits in one number. -/
  | vp8l {size chunkSize rest : Buffer} {w h flags : Nat} (hsize : size.length = 4) (hchunk : chunkSize.length = 4)
      (hw : w < 2 ^ 14) (hh : h < 2 ^ 14) (hflags : flags < 2 ^ 4) :
      Declares "image/webp".toList
        [bytes "RIFF".toList, size, bytes "WEBP".toList, bytes "VP8L".toList, chunkSize, [0x2F],
          ofNat 4 (w + 2 ^ 14 * (h + 2 ^ 14 * flags)), rest].flatten (w + 1) (h + 1)
  | vp8x {size chunkSize flags rest : Buffer} {w h : Nat} (hsize : size.length = 4) (hchunk : chunkSize.length = 4)
      (hflags : flags.length = 4) (hw : w < 2 ^ 24) (hh : h < 2 ^ 24) :
      Declares "image/webp".toList
        [bytes "RIFF".toList, size, bytes "WEBP".toList, bytes "VP8X".toList, chunkSize, flags, ofNat 3 w, ofNat 3 h,
          rest].flatten (w + 1) (h + 1)

/-! ## The walk ends within the buffer -/

/-- The walk ends: each round goes on by two bytes at least, and reads within the buffer. -/
theorem jpegLoop_done (d : Buffer) {fuel i : Nat} (h : d.length - i < fuel) : ∃ r, jpegLoop d fuel i = .done r := by
  induction fuel generalizing i with
  | zero => exact absurd h (Nat.not_lt_zero _)
  | succ fuel ih =>
    unfold jpegLoop
    by_cases hin : i + 9 < d.length
    · rw [if_pos hin, List.getElem?_eq_getElem (show i < d.length by omega),
        List.getElem?_eq_getElem (show i + 1 < d.length by omega)]
      dsimp only
      by_cases hlead : d[i] ≠ 0xFF
      · exact ⟨none, if_pos hlead⟩
      · rw [if_neg hlead]
        by_cases halone : standsAlone d[i + 1] = true
        · rw [if_pos halone]
          exact ih (by omega)
        · rw [if_neg halone]
          cases numberBE 2 d (i + 2) with
          | none => exact ⟨none, rfl⟩
          | some size =>
            dsimp only
            split_ifs
            · exact ⟨_, rfl⟩
            · exact ⟨none, rfl⟩
            · exact ih (by omega)
    · exact ⟨none, if_neg hin⟩

theorem imageDimensions_done (d : Buffer) (mime : List Char) : ∃ r, imageDimensions d mime = .done r := by
  unfold imageDimensions
  split_ifs
  · exact ⟨_, rfl⟩
  · exact jpegLoop_done d (by omega)
  · exact ⟨_, rfl⟩
  · exact ⟨none, rfl⟩

/-! ## Rounds of the walk -/

section Rounds

variable {front t : Buffer} {marker : UInt8} {fuel : Nat}

theorem getElem?_front (front t : Buffer) (k : Nat) : (front ++ t)[front.length + k]? = t[k]? := by
  rw [List.getElem?_append_right (Nat.le_add_right _ _), Nat.add_sub_cancel_left]

theorem jpegLoop_alone (hmarker : standsAlone marker = true) (hlen : 8 ≤ t.length) :
    jpegLoop (front ++ (0xFF :: marker :: t)) (fuel + 1) front.length =
      jpegLoop (front ++ (0xFF :: marker :: t)) fuel (front.length + 2) := by
  have hlead : (front ++ (0xFF :: marker :: t))[front.length]? = some 0xFF := getElem?_front front _ 0
  have hnext : (front ++ (0xFF :: marker :: t))[front.length + 1]? = some marker := getElem?_front front _ 1
  rw [jpegLoop, if_pos (by simp only [List.length_append, List.length_cons]; omega), hlead, hnext]
  dsimp only
  rw [if_neg (not_not_intro rfl), if_pos hmarker]

theorem jpegLoop_length {size : Nat} (hsize : size < 65536) (hmarker : standsAlone marker = false)
    (hlen : 6 ≤ t.length) :
    jpegLoop (front ++ (0xFF :: marker :: (ofNatBE 2 size ++ t))) (fuel + 1) front.length =
      if marker ∈ SOF_MARKERS then
        .done (pair (numberBE 2 (front ++ (0xFF :: marker :: (ofNatBE 2 size ++ t))) (front.length + 7))
          (numberBE 2 (front ++ (0xFF :: marker :: (ofNatBE 2 size ++ t))) (front.length + 5)))
      else if marker = SOS then .done none
      else jpegLoop (front ++ (0xFF :: marker :: (ofNatBE 2 size ++ t))) fuel (front.length + 2 + size) := by
  have hlead : (front ++ (0xFF :: marker :: (ofNatBE 2 size ++ t)))[front.length]? = some 0xFF :=
    getElem?_front front _ 0
  have hnext : (front ++ (0xFF :: marker :: (ofNatBE 2 size ++ t)))[front.length + 1]? = some marker :=
    getElem?_front front _ 1
  have hsplit : front ++ (0xFF :: marker :: (ofNatBE 2 size ++ t)) =
      (front ++ [0xFF, marker]) ++ (ofNatBE 2 size ++ t) := by
    rw [List.append_assoc]
    rfl
  have hnumber : numberBE 2 (front ++ (0xFF :: marker :: (ofNatBE 2 size ++ t))) (front.length + 2) = some size := by
    rw [hsplit]
    exact numberBE_at hsize (by rw [List.length_append]; rfl)
  rw [jpegLoop, if_pos (by simp only [List.length_append, List.length_cons, length_ofNatBE]; omega), hlead, hnext]
  dsimp only
  rw [if_neg (not_not_intro rfl), if_neg (by rw [hmarker]; exact Bool.false_ne_true), hnumber]

theorem standsAlone_of_sof (h : marker ∈ SOF_MARKERS) : standsAlone marker = false := by
  have hall : ∀ m ∈ SOF_MARKERS, standsAlone m = false := by decide +kernel
  exact hall marker h

theorem jpegLoop_frame (front rest : Buffer) (f : FrameHeader) (fuel : Nat) :
    jpegLoop (front ++ (f.bytes ++ rest)) (fuel + 1) front.length = .done (some (f.width, f.height)) := by
  have hpos := f.components_pos
  have hbytes : f.bytes ++ rest = 0xFF :: f.marker :: (ofNatBE 2 (f.components.length + 7) ++
      (f.precision :: (ofNatBE 2 f.height ++ (ofNatBE 2 f.width ++ (f.components ++ rest))))) := by
    simp only [FrameHeader.bytes, List.cons_append, List.append_assoc]
  -- the height stands behind five bytes, the width behind it
  have hheight : numberBE 2 (front ++ (f.bytes ++ rest)) (front.length + 5) = some f.height := by
    have hsplit : front ++ (f.bytes ++ rest) =
        (front ++ ([0xFF, f.marker] ++ (ofNatBE 2 (f.components.length + 7) ++ [f.precision]))) ++
          (ofNatBE 2 f.height ++ (ofNatBE 2 f.width ++ (f.components ++ rest))) := by
      simp only [hbytes, List.cons_append, List.nil_append, List.append_assoc]
    rw [hsplit]
    exact numberBE_at f.height_lt (by simp only [List.length_append, length_ofNatBE, List.length_cons, List.length_nil])
  have hwidth : numberBE 2 (front ++ (f.bytes ++ rest)) (front.length + 7) = some f.width := by
    have hsplit : front ++ (f.bytes ++ rest) =
        (front ++ ([0xFF, f.marker] ++ (ofNatBE 2 (f.components.length + 7) ++ ([f.precision] ++
          ofNatBE 2 f.height)))) ++ (ofNatBE 2 f.width ++ (f.components ++ rest)) := by
      simp only [hbytes, List.cons_append, List.nil_append, List.append_assoc]
    rw [hsplit]
    exact numberBE_at f.width_lt (by simp only [List.length_append, length_ofNatBE, List.length_cons, List.length_nil])
  rw [hbytes] at hheight hwidth ⊢
  rw [jpegLoop_length f.components_lt (standsAlone_of_sof f.isSof)
    (by simp only [List.length_cons, List.length_append, length_ofNatBE]; omega), if_pos f.isSof, hwidth, hheight]
  rfl

theorem length_frame (f : FrameHeader) : 10 ≤ f.bytes.length := by
  have hpos := f.components_pos
  simp only [FrameHeader.bytes, List.length_cons, List.length_append, length_ofNatBE]
  omega

/-- The walk passes a piece, as long as there is a frame header behind it. -/
theorem jpegLoop_piece (front : Buffer) (p : Piece) {t : Buffer} (ht : 10 ≤ t.length) (fuel : Nat) :
    jpegLoop (front ++ (p.bytes ++ t)) (fuel + 1) front.length =
      jpegLoop (front ++ p.bytes ++ t) fuel (front ++ p.bytes).length := by
  rw [List.append_assoc]
  cases p with
  | alone marker h =>
    rw [List.length_append]
    exact jpegLoop_alone h (show 8 ≤ t.length by omega)
  | segment marker payload halone hsof hsos hlen =>
    have hbytes : (Piece.segment marker payload halone hsof hsos hlen).bytes ++ t =
        0xFF :: marker :: (ofNatBE 2 (payload.length + 2) ++ (payload ++ t)) := by
      simp only [Piece.bytes, List.cons_append, List.append_assoc]
    have hlength : (front ++ (Piece.segment marker payload halone hsof hsos hlen).bytes).length =
        front.length + 2 + (payload.length + 2) := by
      simp only [Piece.bytes, List.length_append, List.length_cons, length_ofNatBE]
      omega
    rw [hlength, hbytes, jpegLoop_length hlen halone (by rw [List.length_append]; omega), if_neg hsof, if_neg hsos]

theorem length_piece (p : Piece) : 2 ≤ p.bytes.length := by
  cases p with
  | alone marker h => exact Nat.le_refl 2
  | segment marker payload halone hsof hsos hlen =>
    simp only [Piece.bytes, List.length_cons]
    omega

theorem jpegLoop_pieces (front : Buffer) (pieces : List Piece) (f : FrameHeader) (rest : Buffer) {fuel : Nat}
    (h : (front ++ (pieces.flatMap Piece.bytes ++ (f.bytes ++ rest))).length - front.length < fuel) :
    jpegLoop (front ++ (pieces.flatMap Piece.bytes ++ (f.bytes ++ rest))) fuel front.length =
      .done (some (f.width, f.height)) := by
  obtain ⟨fuel, rfl⟩ : ∃ n, fuel = n + 1 := ⟨fuel - 1, by omega⟩
  induction pieces generalizing front fuel with
  | nil => exact jpegLoop_frame front rest f fuel
  | cons p pieces ih =>
    have hframe := length_frame f
    have hpiece := length_piece p
    rw [List.flatMap_cons, List.append_assoc] at h ⊢
    rw [jpegLoop_piece front p (by simp only [List.length_append]; omega)]
    simp only [List.length_append] at h
    obtain ⟨fuel, rfl⟩ : ∃ n, fuel = n + 1 := ⟨fuel - 1, by omega⟩
    refine ih (front ++ p.bytes) fuel ?_
    simp only [List.length_append]
    omega

end Rounds

/-! ## What is declared is measured -/

theorem pair_some (w h : Nat) : pair (some w) (some h) = some (w, h) := rfl

theorem pngDimensions_declared {chunkLength rest : Buffer} {w h : Nat} (hlen : chunkLength.length = 4)
    (hw : w < 2 ^ 32) (hh : h < 2 ^ 32) :
    pngDimensions [PNG_SIGNATURE, chunkLength, bytes "IHDR".toList, ofNatBE 4 w, ofNatBE 4 h, rest].flatten =
      some (w, h) := by
  generalize hparts : [PNG_SIGNATURE, chunkLength, bytes "IHDR".toList, ofNatBE 4 w, ofNatBE 4 h, rest] = parts
  have hsignature : slice parts.flatten 0 8 = some PNG_SIGNATURE := by
    subst hparts
    exact slice_flatten 0 rfl rfl rfl
  have htype : slice parts.flatten 12 4 = some (bytes "IHDR".toList) := by
    subst hparts
    exact slice_flatten 2 rfl (by simp [hlen, PNG_SIGNATURE]) rfl
  have hwidth : numberBE 4 parts.flatten 16 = some w := by
    subst hparts
    exact numberBE_flatten 3 rfl (by simp [hlen, PNG_SIGNATURE, bytes]) hw
  have hheight : numberBE 4 parts.flatten 20 = some h := by
    subst hparts
    exact numberBE_flatten 4 rfl (by simp [hlen, PNG_SIGNATURE, bytes]) hh
  rw [pngDimensions, if_pos ⟨hsignature, htype⟩, hwidth, hheight, pair_some]

section Webp

variable {size chunkSize tag flags rest : Buffer} {w h xscale yscale : Nat}

theorem and_low (hw : w < 2 ^ 14) (n : Nat) : (w + 2 ^ 14 * n) &&& 0x3FFF = w := by
  have hmask := Nat.and_two_pow_sub_one_eq_mod (w + 2 ^ 14 * n) 14
  rw [Nat.add_mul_mod_self_left, Nat.mod_eq_of_lt hw] at hmask
  exact hmask

theorem webp_words (kind : Buffer) {parts : List Buffer} (hsize : size.length = 4) (hkind : kind.length = 4)
    (h : [bytes "RIFF".toList, size, bytes "WEBP".toList, kind] <+: parts) :
    slice parts.flatten 0 4 = some (bytes "RIFF".toList) ∧ slice parts.flatten 8 4 = some (bytes "WEBP".toList) ∧
      slice parts.flatten 12 4 = some kind := by
  obtain ⟨rest, rfl⟩ := h
  refine ⟨slice_flatten 0 rfl rfl rfl, slice_flatten 2 rfl ?_ rfl, slice_flatten 3 rfl ?_ hkind⟩
  · simp [hsize, bytes]
  · simp [hsize, bytes]

theorem webpDimensions_vp8 (hsize : size.length = 4) (hchunk : chunkSize.length = 4) (htag : tag.length = 3)
    (hw : w < 2 ^ 14) (hh : h < 2 ^ 14) (hx : xscale < 4) (hy : yscale < 4) :
    webpDimensions [bytes "RIFF".toList, size, bytes "WEBP".toList, bytes "VP8 ".toList, chunkSize, tag,
      [0x9D, 0x01, 0x2A], ofNat 2 (w + 2 ^ 14 * xscale), ofNat 2 (h + 2 ^ 14 * yscale), rest].flatten =
        some (w, h) := by
  generalize hparts : [bytes "RIFF".toList, size, bytes "WEBP".toList, bytes "VP8 ".toList, chunkSize, tag,
    [0x9D, 0x01, 0x2A], ofNat 2 (w + 2 ^ 14 * xscale), ofNat 2 (h + 2 ^ 14 * yscale), rest] = parts
  obtain ⟨hriff, hwebp, hkind⟩ := webp_words (bytes "VP8 ".toList) hsize rfl ⟨_, hparts⟩
  have hwidth : number 2 parts.flatten 26 = some (w + 2 ^ 14 * xscale) := by
    subst hparts
    exact number_flatten 7 rfl (by simp [hsize, hchunk, htag, bytes]) (by omega)
  have hheight : number 2 parts.flatten 28 = some (h + 2 ^ 14 * yscale) := by
    subst hparts
    exact number_flatten 8 rfl (by simp [hsize, hchunk, htag, bytes]) (by omega)
  rw [webpDimensions, if_pos ⟨hriff, hwebp⟩, hkind, if_neg (by decide), if_pos rfl, hwidth, hheight, Option.map_some,
    Option.map_some, and_low hw, and_low hh, pair_some]

theorem webpDimensions_vp8l {flags : Nat} (hsize : size.length = 4) (hchunk : chunkSize.length = 4)
    (hw : w < 2 ^ 14) (hh : h < 2 ^ 14) (hflags : flags < 2 ^ 4) :
    webpDimensions [bytes "RIFF".toList, size, bytes "WEBP".toList, bytes "VP8L".toList, chunkSize, [0x2F],
      ofNat 4 (w + 2 ^ 14 * (h + 2 ^ 14 * flags)), rest].flatten = some (w + 1, h + 1) := by
  generalize hparts : [bytes "RIFF".toList, size, bytes "WEBP".toList, bytes "VP8L".toList, chunkSize, [0x2F],
    ofNat 4 (w + 2 ^ 14 * (h + 2 ^ 14 * flags)), rest] = parts
  obtain ⟨hriff, hwebp, hkind⟩ := webp_words (bytes "VP8L".toList) hsize rfl ⟨_, hparts⟩
  have hbits : number 4 parts.flatten 21 = some (w + 2 ^ 14 * (h + 2 ^ 14 * flags)) := by
    subst hparts
    exact number_flatten 6 rfl (by simp [hsize, hchunk, bytes]) (by omega)
  have hshift : (w + 2 ^ 14 * (h + 2 ^ 14 * flags)) >>> 14 = h + 2 ^ 14 * flags := by
    rw [Nat.shiftRight_eq_div_pow, Nat.add_mul_div_left _ _ (by decide), Nat.div_eq_of_lt hw, Nat.zero_add]
  rw [webpDimensions, if_pos ⟨hriff, hwebp⟩, hkind, if_neg (by decide), if_neg (by decide), if_pos rfl, hbits,
    Option.map_some, hshift, and_low hw, and_low hh]

theorem webpDimensions_vp8x (hsize : size.length = 4) (hchunk : chunkSize.length = 4) (hflags : flags.length = 4)
    (hw : w < 2 ^ 24) (hh : h < 2 ^ 24) :
    webpDimensions [bytes "RIFF".toList, size, bytes "WEBP".toList, bytes "VP8X".toList, chunkSize, flags, ofNat 3 w,
      ofNat 3 h, rest].flatten = some (w + 1, h + 1) := by
  generalize hparts : [bytes "RIFF".toList, size, bytes "WEBP".toList, bytes "VP8X".toList, chunkSize, flags,
    ofNat 3 w, ofNat 3 h, rest] = parts
  obtain ⟨hriff, hwebp, hkind⟩ := webp_words (bytes "VP8X".toList) hsize rfl ⟨_, hparts⟩
  have hwidth : number 3 parts.flatten 24 = some w := by
    subst hparts
    exact number_flatten 6 rfl (by simp [hsize, hchunk, hflags, bytes]) hw
  have hheight : number 3 parts.flatten 27 = some h := by
    subst hparts
    exact number_flatten 7 rfl (by simp [hsize, hchunk, hflags, bytes]) hh
  rw [webpDimensions, if_pos ⟨hriff, hwebp⟩, hkind, if_pos rfl, hwidth, hheight, Option.map_some, Option.map_some,
    pair_some]

end Webp

theorem imageDimensions_webp (d : Buffer) :
    imageDimensions d "image/webp".toList = .done (webpDimensions d) := by
  unfold imageDimensions
  rw [if_neg (by decide), if_neg (by decide), if_pos rfl]

variable {mime : List Char} {d : Buffer}

theorem imageDimensions_declared {w h : Nat} (hd : Declares mime d w h) :
    imageDimensions d mime = .done (some (w, h)) := by
  cases hd with
  | png hlen hw hh =>
    unfold imageDimensions
    rw [if_pos rfl, pngDimensions_declared hlen hw hh]
  | jpeg pieces f rest =>
    unfold imageDimensions jpegDimensions
    rw [if_neg (by decide), if_pos rfl]
    exact jpegLoop_pieces [0xFF, 0xD8] pieces f rest (by omega)
  | vp8 hsize hchunk htag hw hh hx hy =>
    rw [imageDimensions_webp, webpDimensions_vp8 hsize hchunk htag hw hh hx hy]
  | vp8l hsize hchunk hw hh hflags =>
    rw [imageDimensions_webp, webpDimensions_vp8l hsize hchunk hw hh hflags]
  | vp8x hsize hchunk hflags hw hh =>
    rw [imageDimensions_webp, webpDimensions_vp8x hsize hchunk hflags hw hh]

/-! ## The guard -/

theorem pair_eq_some {x y : Option Nat} {w h : Nat} (hp : pair x y = some (w, h)) : x = some w ∧ y = some h := by
  cases x with
  | none => cases hp
  | some w' =>
    cases y with
    | none => cases hp
    | some h' =>
      cases hp
      exact ⟨rfl, rfl⟩

theorem pngDimensions_lt {w h : Nat} (hd : pngDimensions d = some (w, h)) : w < 2 ^ 32 ∧ h < 2 ^ 32 := by
  unfold pngDimensions at hd
  split_ifs at hd
  obtain ⟨hw, hh⟩ := pair_eq_some hd
  exact ⟨numberBE_lt hw, numberBE_lt hh⟩

theorem jpegLoop_lt {fuel i w h : Nat} (hd : jpegLoop d fuel i = .done (some (w, h))) :
    w < 2 ^ 16 ∧ h < 2 ^ 16 := by
  fun_induction jpegLoop d fuel i with
  | case1 => cases hd
  | case2 => cases hd
  | case3 fuel i hin lead marker hlead hmarker hff halone ih => exact ih hd
  | case4 => cases hd
  | case5 fuel i hin lead marker hlead hmarker hff halone size hsize hsof =>
    injection hd with hpair
    obtain ⟨hw, hh⟩ := pair_eq_some hpair
    exact ⟨numberBE_lt hw, numberBE_lt hh⟩
  | case6 => cases hd
  | case7 fuel i hin lead marker hlead hmarker hff halone size hsize hsof hsos ih => exact ih hd
  | case8 => cases hd
  | case9 => cases hd

theorem and_mask_lt (n : Nat) : n &&& 0x3FFF < 2 ^ 14 := Nat.and_lt_two_pow n (by decide)

theorem webpDimensions_lt {w h : Nat} (hd : webpDimensions d = some (w, h)) : w ≤ 2 ^ 24 ∧ h ≤ 2 ^ 24 := by
  unfold webpDimensions at hd
  split_ifs at hd
  · obtain ⟨hw, hh⟩ := pair_eq_some hd
    obtain ⟨w', hw', rfl⟩ := Option.map_eq_some_iff.1 hw
    obtain ⟨h', hh', rfl⟩ := Option.map_eq_some_iff.1 hh
    exact ⟨number_lt hw', number_lt hh'⟩
  · obtain ⟨hw, hh⟩ := pair_eq_some hd
    obtain ⟨w', -, rfl⟩ := Option.map_eq_some_iff.1 hw
    obtain ⟨h', -, rfl⟩ := Option.map_eq_some_iff.1 hh
    have hw' := and_mask_lt w'
    have hh' := and_mask_lt h'
    omega
  · obtain ⟨bits, -, hbits⟩ := Option.map_eq_some_iff.1 hd
    cases hbits
    have hlow := and_mask_lt bits
    have hhigh := and_mask_lt (bits >>> 14)
    omega

theorem imageDimensions_lt {w h : Nat}
    (hd : imageDimensions d mime = .done (some (w, h))) : w < 2 ^ 32 ∧ h < 2 ^ 32 := by
  unfold imageDimensions at hd
  split_ifs at hd
  · injection hd with hpng
    exact pngDimensions_lt hpng
  · have hjpeg := jpegLoop_lt hd
    omega
  · injection hd with hwebp
    have hle := webpDimensions_lt hwebp
    omega
  · cases hd

theorem checkedMul_dimensions {w h : Nat}
    (hd : imageDimensions d mime = .done (some (w, h))) : checkedMul w h = .done (w * h) := by
  obtain ⟨hw, hh⟩ := imageDimensions_lt hd
  have hprod : w * h < 2 ^ 32 * 2 ^ 32 := Nat.mul_lt_mul'' hw hh
  exact if_pos hprod

/-- What is left to decide once an image is measured: nothing fails there. -/
theorem referenceImage_measured {name mime : List Char} {data : Buffer} {r : Option Dimensions}
    (hr : imageDimensions data mime = .done r) :
    (∃ refusal, referenceImage name mime data = .done (.error refusal)) ∨
      referenceImage name mime data = .done (.ok ()) ∧ ∃ w h, r = some (w, h) ∧ w * h ≤ MAX_IMAGE_PIXELS := by
  unfold referenceImage
  by_cases hname : name = []
  · exact Or.inl ⟨_, if_pos hname⟩
  · rw [if_neg hname]
    by_cases hmime : mime ∉ MIMES
    · exact Or.inl ⟨_, if_pos hmime⟩
    · rw [if_neg hmime]
      by_cases hsize : data.length > MAX_UPLOAD_BYTES
      · exact Or.inl ⟨_, if_pos hsize⟩
      · rw [if_neg hsize, hr]
        cases r with
        | none => exact Or.inl ⟨_, rfl⟩
        | some dims =>
          obtain ⟨w, h⟩ := dims
          dsimp only
          rw [checkedMul_dimensions hr]
          dsimp only
          by_cases hlarge : w * h > MAX_IMAGE_PIXELS
          · exact Or.inl ⟨_, if_pos hlarge⟩
          · exact Or.inr ⟨if_neg hlarge, w, h, rfl, Nat.le_of_not_gt hlarge⟩

theorem referenceImage_done (name mime : List Char) (data : Buffer) : ∃ r, referenceImage name mime data = .done r := by
  obtain ⟨r, hr⟩ := imageDimensions_done data mime
  rcases referenceImage_measured hr with ⟨refusal, h⟩ | ⟨h, -⟩
  · exact ⟨_, h⟩
  · exact ⟨_, h⟩

theorem referenceImage_accepted {name mime : List Char} {data : Buffer} {w h : Nat}
    (hd : imageDimensions data mime = .done (some (w, h))) (hok : referenceImage name mime data = .done (.ok ())) :
    w * h ≤ MAX_IMAGE_PIXELS := by
  rcases referenceImage_measured hd with ⟨refusal, hrefused⟩ | ⟨-, w', h', hdims, hle⟩
  · rw [hok] at hrefused
    cases hrefused
  · cases hdims
    exact hle

/-- Every byte string is measured without an access out of range, and every product fits;
of a file that declares its dimensions exactly these are measured, and it is accepted only
if they are not too large. -/
theorem reference_image_measured : (∀ d mime, ∃ r, imageDimensions d mime = .done r) ∧
    (∀ name mime data, ∃ r, referenceImage name mime data = .done r) ∧
    (∀ mime d w h, Declares mime d w h → imageDimensions d mime = .done (some (w, h))) ∧
    (∀ name mime data w h, Declares mime data w h → referenceImage name mime data = .done (.ok ()) →
      w * h ≤ MAX_IMAGE_PIXELS) := by
  refine ⟨imageDimensions_done, referenceImage_done, fun mime d w h => imageDimensions_declared, ?_⟩
  intro name mime data w h hd hok
  exact referenceImage_accepted (imageDimensions_declared hd) hok

/-! ## Two files -/

def sampleFrame : FrameHeader where
  marker := 0xC0
  precision := 8
  width := 32
  height := 16
  components := [1, 1, 0x11, 0]
  isSof := by decide
  width_lt := by decide
  height_lt := by decide
  components_pos := by decide
  components_lt := by decide

def sampleSegment : Piece :=
  .segment 0xE0 [0x4A, 0x46, 0x49, 0x46, 0] (by decide) (by decide) (by decide) (by decide)

theorem reference_image_measured_jpeg :
    imageDimensions ([0xFF, 0xD8] ++ ([sampleSegment].flatMap Piece.bytes ++ (sampleFrame.bytes ++ [])))
      "image/jpeg".toList = .done (some (32, 16)) :=
  reference_image_measured.2.2.1 _ _ 32 16 (Declares.jpeg [sampleSegment] sampleFrame [])

/-- An end of image has no length either, but the walk reads one and misses the frame header. -/
theorem not_measured_behind_end :
    imageDimensions ([0xFF, 0xD8] ++ ([0xFF, 0xD9] ++ sampleFrame.bytes)) "image/jpeg".toList ≠
      .done (some (sampleFrame.width, sampleFrame.height)) := by
  decide +kernel

end Portal.ReferenceImage
