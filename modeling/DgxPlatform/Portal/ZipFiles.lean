import DgxPlatform.Lib.Crc32
import DgxPlatform.Lib.Utf8
import DgxPlatform.Lib.WordOps
import DgxPlatform.Lib.ZipArchive
import DgxPlatform.Portal.PageParsers

/-! # The archive of a conversation's files

`zipFiles` writes the files that the page offers for download, stored, into one archive.

* `checksum_eq`: `crc32` is the check of the data, bit by bit.
-/

namespace Portal.ZipFiles

open Bytes
open Rejoin (JsText)
open ZipArchive (Header Entry)

/-! ## The check -/

/-- One turn of the loop that fills the table. -/
def tableStep (c : Int) : Int :=
  if WordOps.and c 1 ≠ 0 then WordOps.xor 0xedb88320 (WordOps.ushiftRight c 1) else WordOps.ushiftRight c 1

def CRC_TABLE : List Int := (List.range 256).map fun n : Nat => WordOps.ushiftRight (tableStep^[8] (n : Int)) 0

def crcStep (c : Int) (b : UInt8) : Int :=
  WordOps.xor (CRC_TABLE.getD (WordOps.and (WordOps.xor c b.toNat) 0xff).toNat 0) (WordOps.ushiftRight c 8)

def crc32 (data : Buffer) : Int := WordOps.ushiftRight (WordOps.xor (data.foldl crcStep 0xffffffff) 0xffffffff) 0

/-! ## The archive -/

/-- `TextEncoder`: half a character is a replacement character. -/
def encode (t : JsText) : Buffer := Utf8.encode (Playground.ofUnits t)

/-- The low bytes of a number: `setUint16` and `setUint32`. -/
def clip (width : Nat) (v : Int) : Nat := (v % (256 ^ width : Nat)).toNat

def u16 (v : Int) : Buffer := ofNat 2 (clip 2 v)

def u32 (v : Int) : Buffer := ofNat 4 (clip 4 v)

/-- A date in local time. -/
structure LocalDate where
  fullYear : Int
  month : Int
  date : Int
  hours : Int
  minutes : Int
  seconds : Int

def LocalDate.dosTime (d : LocalDate) : Int :=
  WordOps.or (WordOps.or (WordOps.shiftLeft d.hours 11) (WordOps.shiftLeft d.minutes 5))
    (WordOps.shiftRight d.seconds 1)

def LocalDate.dosDate (d : LocalDate) : Int :=
  WordOps.or (WordOps.or (WordOps.shiftLeft (d.fullYear - 1980) 9) (WordOps.shiftLeft (d.month + 1) 5)) d.date

structure File where
  name : JsText
  content : JsText

/-- A local header and the data. -/
def localBytes (dosTime dosDate : Int) (name data : Buffer) : Buffer :=
  setAll (List.replicate (30 + name.length + data.length) 0)
    [(0, u32 0x04034b50), (4, u16 20), (6, u16 0x0800), (8, u16 0), (10, u16 dosTime), (12, u16 dosDate),
      (14, u32 (crc32 data)), (18, u32 data.length), (22, u32 data.length), (26, u16 name.length),
      (30, name), (30 + name.length, data)]

def centralBytes (dosTime dosDate : Int) (name data : Buffer) (offset : Nat) : Buffer :=
  setAll (List.replicate (46 + name.length) 0)
    [(0, u32 0x02014b50), (4, u16 20), (6, u16 20), (8, u16 0x0800), (10, u16 0), (12, u16 dosTime), (14, u16 dosDate),
      (16, u32 (crc32 data)), (20, u32 data.length), (24, u32 data.length), (28, u16 name.length), (42, u32 offset),
      (46, name)]

def endBytes (count centralSize offset : Nat) : Buffer :=
  setAll (List.replicate 22 0)
    [(0, u32 0x06054b50), (8, u16 count), (10, u16 count), (12, u32 centralSize), (16, u32 offset)]

/-- What the loop over the files has written. -/
structure Parts where
  locals : List Buffer
  centrals : List Buffer
  offset : Nat

def addFile (date : LocalDate) (z : Parts) (f : File) : Parts :=
  let name := encode f.name
  let data := encode f.content
  let local_ := localBytes date.dosTime date.dosDate name data
  ⟨z.locals ++ [local_], z.centrals ++ [centralBytes date.dosTime date.dosDate name data z.offset],
    z.offset + local_.length⟩

/-- Parts that are put one behind the other. -/
def assemble (size : Nat) (parts : List Buffer) : Buffer :=
  (parts.foldl (fun (out : Buffer × Nat) part => (put out.1 out.2 part, out.2 + part.length))
    (List.replicate size 0, 0)).1

def zipFiles (files : List File) (date : LocalDate) : Buffer :=
  let z := files.foldl (addFile date) ⟨[], [], 0⟩
  let centralSize := (z.centrals.map List.length).sum
  assemble (z.offset + centralSize + 22) (z.locals ++ z.centrals ++ [endBytes files.length centralSize z.offset])

/-! ## The check, bit by bit -/

theorem and_one_ne_zero (c : Int) : WordOps.and c 1 ≠ 0 ↔ (WordOps.bits c).getLsbD 0 = true := by
  have hone : WordOps.bits 1 = 1#32 := rfl
  rw [WordOps.and, hone, BitVec.and_one_eq_setWidth_ofBool_getLsbD]
  cases (WordOps.bits c).getLsbD 0 <;> decide

theorem bits_tableStep (c : Int) : WordOps.bits (tableStep c) = Crc32.shift (WordOps.bits c) := by
  have hpoly : WordOps.bits 0xedb88320 = Crc32.poly := rfl
  unfold tableStep Crc32.shift
  by_cases hbit : (WordOps.bits c).getLsbD 0 = true
  · rw [if_pos ((and_one_ne_zero c).2 hbit), if_pos hbit, WordOps.bits_xor, WordOps.bits_ushiftRight, hpoly]
  · rw [if_neg fun h => hbit ((and_one_ne_zero c).1 h), if_neg hbit, WordOps.bits_ushiftRight]

theorem bits_tableSteps (k : Nat) (c : Int) : WordOps.bits (tableStep^[k] c) = Crc32.shift^[k] (WordOps.bits c) := by
  induction k with
  | zero => rfl
  | succ k ih => rw [Function.iterate_succ_apply', bits_tableStep, ih, Function.iterate_succ_apply']

theorem bits_table {n : Nat} (h : n < 256) :
    WordOps.bits (CRC_TABLE.getD n 0) = Crc32.shift^[8] (BitVec.ofNat 32 n) := by
  have hget : CRC_TABLE.getD n 0 = WordOps.ushiftRight (tableStep^[8] (n : Int)) 0 := by
    rw [CRC_TABLE, List.getD_eq_getElem?_getD, List.getElem?_map, List.getElem?_range h]
    rfl
  rw [hget, WordOps.bits_ushiftRight, BitVec.ushiftRight_zero, bits_tableSteps, WordOps.bits, BitVec.ofInt_natCast]

theorem toNat_and_255 (c : Int) : (WordOps.and c 0xff).toNat = (Crc32.low (WordOps.bits c)).toNat ∧
    (WordOps.and c 0xff).toNat < 256 := by
  have hlt : (Crc32.low (WordOps.bits c)).toNat < 256 := by
    rw [Crc32.low, BitVec.toNat_and]
    exact Nat.lt_succ_of_le Nat.and_le_right
  have hand : WordOps.and c 0xff = (Crc32.low (WordOps.bits c)).toNat := by
    have hsmall : 2 * (Crc32.low (WordOps.bits c)).toNat < 2 ^ 32 := by omega
    exact BitVec.toInt_eq_toNat_of_lt hsmall
  rw [hand, Int.toNat_natCast]
  exact ⟨rfl, hlt⟩

theorem bits_crcStep (c : Int) (b : UInt8) : WordOps.bits (crcStep c b) = Crc32.byte (WordOps.bits c) b := by
  obtain ⟨hlow, hlt⟩ := toNat_and_255 (WordOps.xor c b.toNat)
  have hbyte : WordOps.bits (b.toNat : Int) = b.toBitVec.setWidth 32 := by
    rw [WordOps.bits, BitVec.ofInt_natCast]
    exact BitVec.ofNat_toNat 32 b.toBitVec
  rw [crcStep, WordOps.bits_xor, bits_table hlt, hlow, BitVec.ofNat_toNat, BitVec.setWidth_eq, WordOps.bits_xor, hbyte,
    WordOps.bits_ushiftRight, Crc32.byte_eq_table]

theorem checksum_eq (data : Buffer) : crc32 data = (Crc32.checksum data).toNat := by
  have hloop : ∀ c : Int, WordOps.bits (data.foldl crcStep c) = data.foldl Crc32.byte (WordOps.bits c) := by
    induction data with
    | nil => exact fun c => rfl
    | cons b data ih =>
      intro c
      rw [List.foldl_cons, List.foldl_cons, ih, bits_crcStep]
  have hones : WordOps.bits 0xffffffff = BitVec.allOnes 32 := rfl
  rw [crc32, WordOps.ushiftRight_zero, WordOps.bits_xor, hloop, hones, Crc32.checksum, BitVec.xor_allOnes]

/-! ## The records -/

theorem clip_natCast (width n : Nat) : ofNat width (clip width n) = ofNat width n := by
  rw [clip, ← Int.natCast_emod, Int.toNat_natCast, ofNat_mod]

theorem u16_natCast (n : Nat) : u16 n = ofNat 2 n := clip_natCast 2 n

theorem u32_natCast (n : Nat) : u32 n = ofNat 4 n := clip_natCast 4 n

@[simp] theorem length_u16 (v : Int) : (u16 v).length = 2 := length_ofNat 2 _

@[simp] theorem length_u32 (v : Int) : (u32 v).length = 4 := length_ofNat 4 _

/-- What both headers tell of a file. -/
def headerOf (dosTime dosDate : Int) (name data : Buffer) : Header :=
  ⟨20, 0x0800, 0, clip 2 dosTime, clip 2 dosDate, (Crc32.checksum data).toNat, data.length, data.length, name⟩

theorem localBytes_eq (dosTime dosDate : Int) (name data : Buffer) :
    localBytes dosTime dosDate name data = ZipArchive.localRecord (headerOf dosTime dosDate name data) ++ data := by
  have hsignature : u32 0x04034b50 = ofNat 4 ZipArchive.LOCAL := u32_natCast ZipArchive.LOCAL
  have hversion : u16 20 = ofNat 2 20 := u16_natCast 20
  have hflags : u16 0x0800 = ofNat 2 0x0800 := u16_natCast 0x0800
  have hmethod : u16 0 = ofNat 2 0 := u16_natCast 0
  have hextra : List.replicate 2 (0 : UInt8) = ofNat 2 0 := rfl
  rw [localBytes, setAll_replicate]
  · simp only [lay, length_u16, length_u32, Nat.reduceSub, Nat.reduceAdd, Nat.sub_self, List.replicate_zero,
      List.nil_append, List.append_nil]
    rw [hsignature, hversion, hflags, hmethod, hextra, checksum_eq, u32_natCast, u32_natCast, u16_natCast]
    simp only [ZipArchive.localRecord, ZipArchive.localFields, headerOf, record, List.flatMap_cons, List.flatMap_nil,
      List.append_assoc, List.nil_append]
    rfl
  · simp only [InOrder, length_u16, length_u32]
    omega

theorem centralBytes_eq (dosTime dosDate : Int) (name data : Buffer) (offset : Nat) :
    centralBytes dosTime dosDate name data offset =
      ZipArchive.centralRecord 20 (headerOf dosTime dosDate name data) offset := by
  have hsignature : u32 0x02014b50 = ofNat 4 ZipArchive.CENTRAL := u32_natCast ZipArchive.CENTRAL
  have hversion : u16 20 = ofNat 2 20 := u16_natCast 20
  have hflags : u16 0x0800 = ofNat 2 0x0800 := u16_natCast 0x0800
  have hmethod : u16 0 = ofNat 2 0 := u16_natCast 0
  have hnone : List.replicate 12 (0 : UInt8) =
      ofNat 2 0 ++ (ofNat 2 0 ++ (ofNat 2 0 ++ (ofNat 2 0 ++ ofNat 4 0))) := rfl
  rw [centralBytes, setAll_replicate]
  · simp only [lay, length_u16, length_u32, Nat.reduceSub, Nat.reduceAdd, Nat.sub_self, List.replicate_zero,
      List.nil_append, List.append_nil]
    rw [hsignature, hversion, hflags, hmethod, hnone, checksum_eq, u32_natCast, u32_natCast, u16_natCast, u32_natCast]
    simp only [ZipArchive.centralRecord, ZipArchive.centralFields, headerOf, record, List.flatMap_cons,
      List.flatMap_nil, List.append_assoc, List.nil_append]
    rfl
  · simp only [InOrder, length_u16, length_u32]
    omega

theorem endBytes_eq (count centralSize offset : Nat) :
    endBytes count centralSize offset = ZipArchive.endRecord count centralSize offset := by
  have hsignature : u32 0x06054b50 = ofNat 4 ZipArchive.END := u32_natCast ZipArchive.END
  have hdisks : List.replicate 4 (0 : UInt8) = ofNat 2 0 ++ ofNat 2 0 := rfl
  have hcomment : List.replicate 2 (0 : UInt8) = ofNat 2 0 := rfl
  rw [endBytes, setAll_replicate]
  · simp only [lay, length_u16, length_u32, Nat.reduceSub, Nat.reduceAdd, Nat.sub_self, List.replicate_zero,
      List.nil_append]
    rw [hsignature, hdisks, hcomment, u16_natCast, u32_natCast, u32_natCast]
    simp only [ZipArchive.endRecord, ZipArchive.endFields, record, List.flatMap_cons, List.flatMap_nil,
      List.append_assoc, List.append_nil]
  · simp only [InOrder, length_u16, length_u32]
    omega

/-! ## The whole -/

theorem assemble_from (front : Buffer) (parts : List Buffer) :
    (parts.foldl (fun (out : Buffer × Nat) part => (put out.1 out.2 part, out.2 + part.length))
      (front ++ List.replicate (parts.map List.length).sum 0, front.length)).1 = front ++ parts.flatten := by
  induction parts generalizing front with
  | nil => rfl
  | cons part parts ih =>
    have hnext := ih (front ++ part)
    rw [List.length_append, List.append_assoc, List.append_assoc] at hnext
    have hput : put (front ++ List.replicate ((part :: parts).map List.length).sum 0) front.length part =
        front ++ (part ++ List.replicate (parts.map List.length).sum 0) := by
      rw [put_append, List.map_cons, List.sum_cons, List.drop_replicate, Nat.add_sub_cancel_left]
    rw [List.foldl_cons, hput, List.flatten_cons]
    exact hnext

theorem assemble_eq (parts : List Buffer) : assemble (parts.map List.length).sum parts = parts.flatten :=
  assemble_from [] parts

section Archive

variable (date : LocalDate)

def localOf (f : File) : Buffer := localBytes date.dosTime date.dosDate (encode f.name) (encode f.content)

def fileHeader (f : File) : Header := headerOf date.dosTime date.dosDate (encode f.name) (encode f.content)

/-- The records of the directory, for files whose local headers stand from `offset` on. -/
def centralsFrom : Nat → List File → List Buffer
  | _, [] => []
  | offset, f :: files =>
      centralBytes date.dosTime date.dosDate (encode f.name) (encode f.content) offset ::
        centralsFrom (offset + (localOf date f).length) files

def entryOf (f : File) : Entry := ⟨fileHeader date f, fileHeader date f, encode f.content⟩

def localsOf (files : List File) : Buffer := (files.map (localOf date)).flatten

def directoryFrom (offset : Nat) (files : List File) : Buffer := (centralsFrom date offset files).flatten

variable {date}

theorem localsOf_cons (f : File) (files : List File) :
    localsOf date (f :: files) = localOf date f ++ localsOf date files := rfl

theorem directoryFrom_cons (offset : Nat) (f : File) (files : List File) :
    directoryFrom date offset (f :: files) = ZipArchive.centralRecord 20 (fileHeader date f) offset ++
      directoryFrom date (offset + (localOf date f).length) files := by
  rw [directoryFrom, centralsFrom, List.flatten_cons, centralBytes_eq]
  rfl

theorem localOf_eq (f : File) :
    localOf date f = ZipArchive.localRecord (fileHeader date f) ++ encode f.content := localBytes_eq _ _ _ _

theorem length_content_le (f : File) : (encode f.content).length ≤ (localOf date f).length := by
  rw [localOf_eq, List.length_append]
  exact Nat.le_add_left _ _

theorem foldl_addFile (files : List File) (z : Parts) :
    files.foldl (addFile date) z = ⟨z.locals ++ files.map (localOf date),
      z.centrals ++ centralsFrom date z.offset files, z.offset + (localsOf date files).length⟩ := by
  induction files generalizing z with
  | nil =>
    rw [List.map_nil, List.append_nil, centralsFrom, List.append_nil]
    rfl
  | cons f files ih =>
    rw [List.foldl_cons, ih, localsOf_cons, List.length_append, List.map_cons, centralsFrom]
    simp only [addFile, localOf, List.append_assoc, List.singleton_append, Nat.add_assoc]

theorem zipFiles_eq (files : List File) (date : LocalDate) :
    zipFiles files date = localsOf date files ++ directoryFrom date 0 files ++
      ZipArchive.endRecord files.length (directoryFrom date 0 files).length (localsOf date files).length := by
  have hlocals : (localsOf date files).length = ((files.map (localOf date)).map List.length).sum := List.length_flatten
  have hcentrals : (directoryFrom date 0 files).length = ((centralsFrom date 0 files).map List.length).sum :=
    List.length_flatten
  unfold zipFiles
  rw [foldl_addFile]
  dsimp only
  rw [List.nil_append, List.nil_append, Nat.zero_add, ← hcentrals, endBytes_eq]
  generalize hend : ZipArchive.endRecord _ _ _ = last
  have hlast : last.length = 22 := by rw [← hend, ZipArchive.length_endRecord]
  have hsize : (localsOf date files).length + (directoryFrom date 0 files).length + 22 =
      ((files.map (localOf date) ++ centralsFrom date 0 files ++ [last]).map List.length).sum := by
    rw [List.map_append, List.map_append, List.sum_append, List.sum_append, ← hlocals, ← hcentrals,
      List.map_singleton, List.sum_singleton, hlast]
  rw [hsize, assemble_eq, List.flatten_append, List.flatten_append, List.flatten_singleton]
  rfl

theorem clip_lt (width : Nat) (v : Int) : clip width v < 256 ^ width := by
  have hpos : (0 : Int) < (256 ^ width : Nat) := by
    exact_mod_cast Nat.pow_pos (by decide : 0 < 256)
  have hlt := Int.emod_lt_of_pos v hpos
  have hge := Int.emod_nonneg v hpos.ne'
  unfold clip
  omega

theorem fits_fileHeader {f : File} (hname : (encode f.name).length ≤ 65535)
    (hdata : (encode f.content).length < 2 ^ 32) : (fileHeader date f).Fits where
  version := show 20 < 256 ^ 2 by decide
  flags := show 0x0800 < 256 ^ 2 by decide
  method := show 0 < 256 ^ 2 by decide
  time := clip_lt 2 _
  date := clip_lt 2 _
  crc := (Crc32.checksum (encode f.content)).isLt
  compressedSize := hdata
  size := hdata
  name := Nat.lt_succ_of_le hname

theorem readEntries_files {files : List File} {b front locals rest last : Buffer}
    (hnames : ∀ f ∈ files, (encode f.name).length ≤ 65535)
    (hsize : locals.length + (localsOf date files).length < 2 ^ 32)
    (hcentral : b = front ++ (directoryFrom date locals.length files ++ rest))
    (hlocal : b = locals ++ (localsOf date files ++ last)) :
    ZipArchive.readEntries b files.length front.length =
      some (files.map (entryOf date), front.length + (directoryFrom date locals.length files).length) := by
  induction files generalizing front locals with
  | nil => rfl
  | cons f files ih =>
    obtain ⟨hname, hnames⟩ := List.forall_mem_cons.1 hnames
    rw [localsOf_cons, List.length_append] at hsize
    rw [directoryFrom_cons, List.append_assoc] at hcentral
    rw [localsOf_cons, List.append_assoc] at hlocal
    have hcontent : (encode f.content).length < 2 ^ 32 := by
      have hle := @length_content_le date f
      omega
    have hfits := @fits_fileHeader date f hname hcontent
    have hoffset : locals.length < 256 ^ 4 := by omega
    have hhere := hlocal
    rw [localOf_eq, List.append_assoc] at hhere
    have hentry :=
      ZipArchive.readEntry_of_parts hfits (by decide : 20 < 256 ^ 2) hoffset rfl rfl rfl hcentral hhere rfl
    have hplace : (locals ++ localOf date f).length = locals.length + (localOf date f).length := List.length_append
    have hrest := @ih (front ++ ZipArchive.centralRecord 20 (fileHeader date f) locals.length)
      (locals ++ localOf date f) hnames (by rw [hplace]; omega)
      (by rw [hcentral, hplace, List.append_assoc]) (by rw [hlocal, List.append_assoc])
    rw [hplace, List.length_append] at hrest
    rw [List.length_cons, ZipArchive.readEntries, hentry, Option.bind_some]
    dsimp only
    rw [hrest, Option.map_some, directoryFrom_cons, List.length_append, List.map_cons, Nat.add_assoc]
    rfl

end Archive

theorem readZip_zipFiles {files : List File} {date : LocalDate}
    (hnames : ∀ f ∈ files, (encode f.name).length ≤ 65535) (hcount : files.length ≤ 65535)
    (hsize : (zipFiles files date).length < 2 ^ 32) :
    ZipArchive.readZip (zipFiles files date) = some (files.map (entryOf date)) := by
  have hparts := zipFiles_eq files date
  have htotal := congrArg List.length hparts
  rw [List.length_append, List.length_append] at htotal
  have hlocals : (localsOf date files).length < 256 ^ 4 := by omega
  have hdirectory : (directoryFrom date 0 files).length < 256 ^ 4 := by omega
  have hentries : files.length = (files.map (entryOf date)).length := (List.length_map _).symm
  rw [hparts, hentries]
  refine ZipArchive.readZip_of_parts (by rw [← hentries]; omega) hdirectory hlocals ?_
  rw [← hentries]
  refine @readEntries_files date files _ (localsOf date files) []
    (ZipArchive.endRecord files.length (directoryFrom date 0 files).length (localsOf date files).length)
    (directoryFrom date 0 files ++
      ZipArchive.endRecord files.length (directoryFrom date 0 files).length (localsOf date files).length)
    hnames ?_ ?_ ?_
  · rw [List.length_nil, Nat.zero_add]
    exact hlocals
  · exact List.append_assoc _ _ _
  · exact List.append_assoc _ _ _

/-! ## The archive is read back -/

/-- The size is that of the whole archive. The texts are those of the units: the encoder puts a
replacement character for half a character. -/
theorem zip_reads_back (files : List File) (date : LocalDate)
    (hnames : ∀ f ∈ files, (encode f.name).length ≤ 65535) (hcount : files.length ≤ 65535)
    (hsize : (zipFiles files date).length < 2 ^ 32) :
    ∃ entries, ZipArchive.readZip (zipFiles files date) = some entries ∧
      (entries.map fun e => (e.central.name, e.data)) = (files.map fun f => (encode f.name, encode f.content)) ∧
      (entries.map fun e => (Utf8.lossy e.central.name, Utf8.lossy e.data)) =
        (files.map fun f => (Playground.ofUnits f.name, Playground.ofUnits f.content)) ∧
      ∀ e ∈ entries, e.localHeader = e.central ∧ e.central.flags = 0x0800 ∧ e.central.size = e.data.length ∧
        e.central.time = clip 2 date.dosTime ∧ e.central.date = clip 2 date.dosDate ∧
        e.central.crc = (Crc32.checksum e.data).toNat := by
  refine ⟨files.map (entryOf date), readZip_zipFiles hnames hcount hsize, ?_, ?_, ?_⟩
  · rw [List.map_map]
    rfl
  · rw [List.map_map]
    refine List.map_congr_left fun f _ => ?_
    exact congrArg₂ Prod.mk (Utf8.lossy_encode _) (Utf8.lossy_encode _)
  · intro e he
    obtain ⟨f, -, rfl⟩ := List.mem_map.1 he
    exact ⟨rfl, rfl, rfl, rfl, rfl, rfl⟩

/-- Two files, with an accent and a character of two units. -/
theorem zip_reads_back_two :
    let files :=
      [⟨Playground.toUnits "résumé.md".toList, Playground.toUnits "Hi 🙂".toList⟩, ⟨Rejoin.units "a.txt", []⟩]
    let date := LocalDate.mk 2026 6 14 9 41 7
    ∃ entries, ZipArchive.readZip (zipFiles files date) = some entries ∧
      (entries.map fun e => (e.central.name, e.data)) = (files.map fun f => (encode f.name, encode f.content)) ∧
      (entries.map fun e => (Utf8.lossy e.central.name, Utf8.lossy e.data)) =
        (files.map fun f => (Playground.ofUnits f.name, Playground.ofUnits f.content)) ∧
      ∀ e ∈ entries, e.localHeader = e.central ∧ e.central.flags = 0x0800 ∧ e.central.size = e.data.length ∧
        e.central.time = clip 2 date.dosTime ∧ e.central.date = clip 2 date.dosDate ∧
        e.central.crc = (Crc32.checksum e.data).toNat :=
  zip_reads_back _ _ (by decide +kernel) (by decide) (by decide +kernel)

end Portal.ZipFiles
