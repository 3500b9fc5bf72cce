import DgxPlatform.Lib.Bytes

/-! # Reading an archive of stored files

By the rules of the format: the end record is looked for from the end on. It tells where the central
directory is, whose records tell where the files are.

* `readZip`: the entries, each with its two headers and its data.
* `readLocal_append`, `readCentral_append`, `findEnd_append`: the records are read as they were
  written, behind any front.
-/

namespace ZipArchive

open Bytes

/-- What both headers of an entry tell of it. -/
structure Header where
  version : Nat
  flags : Nat
  method : Nat
  time : Nat
  date : Nat
  crc : Nat
  compressedSize : Nat
  size : Nat
  name : Buffer
  deriving DecidableEq

structure Entry where
  central : Header
  localHeader : Header
  data : Buffer

def LOCAL : Nat := 0x04034b50

def CENTRAL : Nat := 0x02014b50

def END : Nat := 0x06054b50

/-! ## The reader -/

/-- The widths of the fields of a local header, a record of the directory and the end record. -/
def localWidths : List Nat := [4, 2, 2, 2, 2, 2, 4, 4, 4, 2, 2]

def centralWidths : List Nat := [4, 2, 2, 2, 2, 2, 2, 4, 4, 4, 2, 2, 2, 2, 2, 4, 4]

def endWidths : List Nat := [4, 2, 2, 2, 2, 4, 4, 2]

/-- The fields that both headers have, from the version on. -/
def header (f : List Nat) (name : Buffer) : Header :=
  ⟨f.getD 0 0, f.getD 1 0, f.getD 2 0, f.getD 3 0, f.getD 4 0, f.getD 5 0, f.getD 6 0, f.getD 7 0, name⟩

/-- A local header, and where the data stand: behind the name and the extra fields. -/
def readLocal (b : Buffer) (start : Nat) : Option (Header × Nat) :=
  (fields localWidths b start).bind fun f =>
    if f.getD 0 0 = LOCAL then
      (slice b (start + 30) (f.getD 9 0)).map fun name =>
        (header (f.drop 1) name, start + 30 + f.getD 9 0 + f.getD 10 0)
    else none

/-- A record of the directory, where its local header is, and where the next record is: behind the
name, the extra fields and the comment. -/
def readCentral (b : Buffer) (start : Nat) : Option (Header × Nat × Nat) :=
  (fields centralWidths b start).bind fun f =>
    if f.getD 0 0 = CENTRAL then
      (slice b (start + 46) (f.getD 10 0)).map fun name =>
        (header (f.drop 2) name, f.getD 16 0, start + 46 + f.getD 10 0 + f.getD 11 0 + f.getD 12 0)
    else none

/-- A stored entry, and where the next record is. -/
def readEntry (b : Buffer) (start : Nat) : Option (Entry × Nat) :=
  (readCentral b start).bind fun (central, offset, next) =>
    (readLocal b offset).bind fun (localHeader, dataStart) =>
      if central.method = 0 ∧ central.compressedSize = central.size then
        (slice b dataStart central.size).map fun data => (⟨central, localHeader, data⟩, next)
      else none

/-- The entries of the directory, and where it ends. -/
def readEntries (b : Buffer) : Nat → Nat → Option (List Entry × Nat)
  | 0, start => some ([], start)
  | n + 1, start =>
      (readEntry b start).bind fun (entry, next) =>
        (readEntries b n next).map fun (entries, behind) => (entry :: entries, behind)

/-- The last place at which an end record stands whose comment is all that follows. -/
def findEnd (b : Buffer) : Option Nat :=
  (List.range (b.length - 21)).reverse.find? fun p =>
    number 4 b p = some END ∧ number 2 b (p + 20) = some (b.length - (p + 22))

/-- The entries of an archive in one part, whose directory ends where the end record begins. -/
def readZip (b : Buffer) : Option (List Entry) :=
  (findEnd b).bind fun p =>
    (fields endWidths b p).bind fun f =>
      let count := f.getD 4 0
      let size := f.getD 5 0
      let offset := f.getD 6 0
      if f.getD 1 0 = 0 ∧ f.getD 2 0 = 0 ∧ f.getD 3 0 = count ∧ offset + size = p then
        (readEntries b count offset).bind fun (entries, behind) => if behind = p then some entries else none
      else none

/-! ## The records -/

/-- The fields of a local header without extra fields, in front of the name. -/
def localFields (h : Header) : List (Nat × Nat) :=
  [(4, LOCAL), (2, h.version), (2, h.flags), (2, h.method), (2, h.time), (2, h.date), (4, h.crc),
    (4, h.compressedSize), (4, h.size), (2, h.name.length), (2, 0)]

/-- The fields of a record of the directory without extra fields, comment and attributes. -/
def centralFields (madeBy : Nat) (h : Header) (offset : Nat) : List (Nat × Nat) :=
  [(4, CENTRAL), (2, madeBy), (2, h.version), (2, h.flags), (2, h.method), (2, h.time), (2, h.date), (4, h.crc),
    (4, h.compressedSize), (4, h.size), (2, h.name.length), (2, 0), (2, 0), (2, 0), (2, 0), (4, 0), (4, offset)]

/-- The fields of the end record of an archive in one part, without comment. -/
def endFields (count size offset : Nat) : List (Nat × Nat) :=
  [(4, END), (2, 0), (2, 0), (2, count), (2, count), (4, size), (4, offset), (2, 0)]

def localRecord (h : Header) : Buffer := record (localFields h) ++ h.name

def centralRecord (madeBy : Nat) (h : Header) (offset : Nat) : Buffer :=
  record (centralFields madeBy h offset) ++ h.name

def endRecord (count size offset : Nat) : Buffer := record (endFields count size offset)

/-- The fields are wide enough. -/
structure Header.Fits (h : Header) : Prop where
  version : h.version < 256 ^ 2
  flags : h.flags < 256 ^ 2
  method : h.method < 256 ^ 2
  time : h.time < 256 ^ 2
  date : h.date < 256 ^ 2
  crc : h.crc < 256 ^ 4
  compressedSize : h.compressedSize < 256 ^ 4
  size : h.size < 256 ^ 4
  name : h.name.length < 256 ^ 2

variable {h : Header} {front rest : Buffer}

theorem length_localFields (h : Header) : (record (localFields h)).length = 30 := by
  rw [length_record]
  simp [localFields]

theorem length_centralFields (madeBy : Nat) (h : Header) (offset : Nat) :
    (record (centralFields madeBy h offset)).length = 46 := by
  rw [length_record]
  simp [centralFields]

theorem length_localRecord (h : Header) : (localRecord h).length = 30 + h.name.length := by
  rw [localRecord, List.length_append, length_localFields]

theorem length_centralRecord (madeBy : Nat) (h : Header) (offset : Nat) :
    (centralRecord madeBy h offset).length = 46 + h.name.length := by
  rw [centralRecord, List.length_append, length_centralFields]

theorem length_endRecord (count size offset : Nat) : (endRecord count size offset).length = 22 := by
  rw [endRecord, length_record]
  simp [endFields]

theorem Header.Fits.localFields (hfits : h.Fits) : ∀ f ∈ localFields h, f.2 < 256 ^ f.1 := by
  simp only [ZipArchive.localFields, List.forall_mem_cons]
  exact ⟨by decide, hfits.version, hfits.flags, hfits.method, hfits.time, hfits.date, hfits.crc,
    hfits.compressedSize, hfits.size, hfits.name, by decide, List.forall_mem_nil _⟩

theorem Header.Fits.centralFields {madeBy offset : Nat} (hfits : h.Fits) (hmade : madeBy < 256 ^ 2)
    (hoffset : offset < 256 ^ 4) : ∀ f ∈ centralFields madeBy h offset, f.2 < 256 ^ f.1 := by
  simp only [ZipArchive.centralFields, List.forall_mem_cons]
  exact ⟨by decide, hmade, hfits.version, hfits.flags, hfits.method, hfits.time, hfits.date, hfits.crc,
    hfits.compressedSize, hfits.size, hfits.name, by decide, by decide, by decide, by decide, by decide, hoffset,
    List.forall_mem_nil _⟩

theorem readLocal_append (hfits : h.Fits) (front rest : Buffer) :
    readLocal (front ++ (localRecord h ++ rest)) front.length =
      some (h, front.length + (localRecord h).length) := by
  have hfields := fields_record hfits.localFields front (h.name ++ rest)
  have hname := slice_middle front _ h.name rest (length_localFields h)
  have hwidths : (localFields h).map Prod.fst = localWidths := rfl
  rw [hwidths] at hfields
  rw [length_localRecord, localRecord, List.append_assoc, readLocal, hfields, Option.bind_some]
  refine (if_pos rfl).trans ((congrArg (Option.map _) hname).trans ?_)
  rw [Option.map_some, ← Nat.add_assoc]
  rfl

theorem readCentral_append {madeBy offset : Nat} (hfits : h.Fits) (hmade : madeBy < 256 ^ 2)
    (hoffset : offset < 256 ^ 4) (front rest : Buffer) :
    readCentral (front ++ (centralRecord madeBy h offset ++ rest)) front.length =
      some (h, offset, front.length + (centralRecord madeBy h offset).length) := by
  have hfields := fields_record (hfits.centralFields hmade hoffset) front (h.name ++ rest)
  have hname := slice_middle front _ h.name rest (length_centralFields madeBy h offset)
  have hwidths : (centralFields madeBy h offset).map Prod.fst = centralWidths := rfl
  rw [hwidths] at hfields
  rw [length_centralRecord, centralRecord, List.append_assoc, readCentral, hfields, Option.bind_some]
  refine (if_pos rfl).trans ((congrArg (Option.map _) hname).trans ?_)
  rw [Option.map_some, ← Nat.add_assoc]
  rfl

/-- A stored entry whose local header and data stand anywhere in the archive. -/
theorem readEntry_of_parts {madeBy offset : Nat} {b data front rest front' rest' : Buffer} (hfits : h.Fits)
    (hmade : madeBy < 256 ^ 2) (hoffset : offset < 256 ^ 4) (hstored : h.method = 0)
    (hsize : h.compressedSize = h.size) (hdata : h.size = data.length)
    (hcentral : b = front ++ (centralRecord madeBy h offset ++ rest))
    (hlocal : b = front' ++ (localRecord h ++ (data ++ rest'))) (hfront : front'.length = offset) :
    readEntry b front.length = some (⟨h, h, data⟩, front.length + (centralRecord madeBy h offset).length) := by
  have hreadCentral := readCentral_append hfits hmade hoffset front rest
  have hreadLocal := readLocal_append hfits front' (data ++ rest')
  have hslice := slice_middle front' (localRecord h) data rest' rfl
  rw [← hcentral] at hreadCentral
  rw [← hlocal] at hreadLocal hslice
  rw [hfront] at hreadLocal hslice
  rw [readEntry, hreadCentral, Option.bind_some]
  dsimp only
  rw [hreadLocal, Option.bind_some]
  dsimp only
  rw [if_pos ⟨hstored, hsize⟩, hdata, hslice, Option.map_some]

theorem findEnd_append (count size offset : Nat) (front : Buffer) :
    findEnd (front ++ endRecord count size offset) = some front.length := by
  have hlen : (front ++ endRecord count size offset).length - 21 = front.length + 1 := by
    rw [List.length_append, length_endRecord]
    omega
  rw [findEnd, hlen, List.range_succ, List.reverse_append, List.reverse_singleton, List.singleton_append]
  have hsignature := number_record (by decide : END < 256 ^ 4) front []
    [(2, 0), (2, 0), (2, count), (2, count), (4, size), (4, offset), (2, 0)] []
  have hcomment := number_record (by decide : 0 < 256 ^ 2) front
    [(4, END), (2, 0), (2, 0), (2, count), (2, count), (4, size), (4, offset)] [] []
  rw [List.append_nil] at hsignature hcomment
  have hrest : (front ++ endRecord count size offset).length - (front.length + 22) = 0 := by
    rw [List.length_append, length_endRecord, Nat.sub_self]
  refine List.find?_cons_of_pos (decide_eq_true ⟨hsignature, ?_⟩)
  rw [hrest]
  exact hcomment

/-- The whole archive: the directory lies between the files and the end record. -/
theorem readZip_of_parts {locals directory : Buffer} {entries : List Entry} (hcount : entries.length < 256 ^ 2)
    (hsize : directory.length < 256 ^ 4) (hoffset : locals.length < 256 ^ 4)
    (hread : readEntries (locals ++ directory ++ endRecord entries.length directory.length locals.length)
      entries.length locals.length = some (entries, locals.length + directory.length)) :
    readZip (locals ++ directory ++ endRecord entries.length directory.length locals.length) = some entries := by
  have hfields := fields_record (r := endFields entries.length directory.length locals.length) (by
    simp only [endFields, List.forall_mem_cons]
    exact ⟨by decide, by decide, by decide, hcount, hcount, hsize, hoffset, by decide, List.forall_mem_nil _⟩)
    (locals ++ directory) []
  have hwidths : (endFields entries.length directory.length locals.length).map Prod.fst = endWidths := rfl
  rw [hwidths, List.append_nil, ← endRecord] at hfields
  rw [readZip, findEnd_append, Option.bind_some, hfields, Option.bind_some]
  have hplace : locals.length + directory.length = (locals ++ directory).length := List.length_append.symm
  refine (if_pos ⟨rfl, rfl, rfl, hplace⟩).trans ?_
  rw [hplace] at hread
  refine (congrArg (Option.bind · _) hread).trans ?_
  rw [Option.bind_some]
  exact if_pos rfl

end ZipArchive
