import DgxPlatform.Lib.Text
import Mathlib.Logic.Function.Basic

/-! # The nightly sweep of the generated files

The portal writes a file for a row of `image_jobs`, `video_jobs`, `ocr_jobs` or
`voice_jobs` and names it after what the row holds. The sweep goes the other way: it
takes the row's reference from the name (`idOf`) and removes the old files whose
reference no row has, from the volume and from the bucket.

A file is kept as long as its row is there, and is not kept by another row once it is
gone, exactly when it is no video or `videoName` has dropped no character of its prompt
id (`sweep_keeps_iff`).
-/

namespace Portal.MediaStore

open Text

/-! ## The names -/

/-- `KINDS`. -/
inductive Kind where
  | imageFiles
  | videoFiles
  | ocrImages
  | voiceAudio
deriving DecidableEq, Repr

def Kind.dir : Kind → List Char
  | .imageFiles => "image_files".toList
  | .videoFiles => "video_files".toList
  | .ocrImages => "ocr_images".toList
  | .voiceAudio => "voice_audio".toList

def KINDS : List Kind := [.imageFiles, .videoFiles, .ocrImages, .voiceAudio]

/-- `valid_name`, for one of the kinds. -/
def validName (name : List Char) : Bool :=
  name.head?.any Char.isAlphanum && decide (name.length ≤ 201)
    && name.tail.all (fun c => c.isAlphanum || c == '_' || c == '.' || c == '-')
    && !contains name ['.', '.']

/-- `image_ext`. -/
def imageExt (fmt : List Char) : List Char :=
  if fmt = "jpeg".toList then "jpg".toList
  else if fmt = "webp".toList then "webp".toList
  else "png".toList

/-- The name that the image worker gives to the image `idx`. -/
def imageName (promptId : List Char) (idx : Nat) (fmt : List Char) : List Char :=
  promptId ++ '_' :: Nat.toDigits 10 idx ++ '.' :: imageExt fmt

/-- A character that `video_name` keeps. -/
def isVideoChar (c : Char) : Bool := c.isAlphanum || c == '_' || c == '-'

/-- `video_name`. -/
def videoName (promptId : List Char) : Option (List Char) :=
  let safe := promptId.filter isVideoChar
  if safe = [] then none else some (safe ++ ".mp4".toList)

/-- `str::strip_suffix` with a character. -/
def stripSuffix (c : Char) (t : List Char) : Option (List Char) :=
  if t.getLast? = some c then some t.dropLast else none

/-- `id_of`. -/
def idOf (kind : Kind) (name : List Char) : List Char :=
  let stem := ((rsplitOnce '.' name).map Prod.fst).getD name
  match kind with
  | .ocrImages => name
  | .voiceAudio => name
  | .imageFiles =>
      let trimmed := trimEndMatches Char.isDigit stem
      match stripSuffix '_' trimmed with
      | some id => if trimmed.length < stem.length then id else stem
      | none => stem
  | .videoFiles => stem

/-- The file `name` is written for the rows of its kind whose reference is `ref`:
`prompt_id` of an image or a video, `image_path` of a scan, `audio_path` of a voice.
`save` writes no name that is not valid. -/
inductive Written : Kind → List Char → List Char → Prop
  | image (promptId : List Char) (idx : Nat) (fmt : List Char)
      (hvalid : validName (imageName promptId idx fmt) = true) :
      Written .imageFiles promptId (imageName promptId idx fmt)
  | video (promptId : List Char) {name : List Char} (hname : videoName promptId = some name)
      (hvalid : validName name = true) : Written .videoFiles promptId name
  | scan (name : List Char) (hvalid : validName name = true) : Written .ocrImages name name
  | voice (name : List Char) (hvalid : validName name = true) : Written .voiceAudio name name

/-! ## The volume and the bucket -/

/-- What `metadata` says of a directory entry; the instant is in seconds. -/
structure Meta where
  isFile : Bool
  modified : Option Nat
deriving DecidableEq, Repr

/-- A directory entry. -/
structure Entry where
  name : List Char
  stat : Option Meta
deriving DecidableEq, Repr

/-- An object of the bucket. -/
structure Object where
  key : List Char
  modified : Option Nat
deriving DecidableEq, Repr

/-- The files that the portal has. -/
structure Files where
  volume : Kind → List Entry
  bucket : List Object

/-- `s3::Config`; of its fields only the prefix counts here. -/
structure Config where
  keyPrefix : List Char
deriving DecidableEq, Repr

/-- `Config::key`. -/
def Config.key (cfg : Config) (parts : List (List Char)) : List Char :=
  let trimmed := (cfg.keyPrefix :: parts).map (trimMatches (· == '/'))
  ['/'].intercalate (trimmed.filter (fun p => !p.isEmpty))

/-- The key under which `save` puts a file. -/
def Config.mediaKey (cfg : Config) (kind : Kind) (name : List Char) : List Char :=
  cfg.key ["media".toList, kind.dir, name]

/-- The first two parts of `key.rsplit('/')`, the last one first. -/
def lastTwo (key : List Char) : Option (List Char × List Char) :=
  (rsplitOnce '/' key).map fun r => (r.2, ((rsplitOnce '/' r.1).map Prod.snd).getD r.1)

/-! ## The sweep -/

/-- What a sweep finds: the rows, the settings, the clock, and what fails. -/
structure Sweep where
  /-- the answer of the kind's query; `none` when it fails -/
  rows : Kind → Option (List (Option (List Char)))
  cfg : Option Config
  now : Nat
  dryRun : Bool
  readable : Kind → Bool
  removable : Kind → Entry → Bool
  listed : Bool
  deletable : Object → Bool

/-- `{"local": n, "s3": n, "dry_run": bool}`. -/
structure Report where
  onVolume : Nat
  inBucket : Nat
  dryRun : Bool
deriving DecidableEq, Repr

/-- `ORPHAN_GRACE_DAYS`. -/
def ORPHAN_GRACE_DAYS : Nat := 7

/-- The instant is before the limit. -/
def Sweep.isOld (s : Sweep) (modified : Option Nat) : Bool :=
  modified.any fun m => decide (m + ORPHAN_GRACE_DAYS * 86400 < s.now)

/-- `referenced`. -/
def Sweep.referenced (s : Sweep) (kind : Kind) (name : List Char) : Bool :=
  ((s.rows kind).getD []).any fun r => decide (r = some (idOf kind name))

/-- A directory entry that the sweep removes. -/
def Sweep.orphanFile (s : Sweep) (kind : Kind) (e : Entry) : Bool :=
  match e.stat with
  | none => false
  | some stat =>
      stat.isFile && e.name.head? != some '.' && !s.referenced kind e.name && s.isOld stat.modified

/-- An object that the sweep removes. -/
def Sweep.orphanObject (s : Sweep) (o : Object) : Bool :=
  match lastTwo o.key with
  | none => false
  | some (name, dir) =>
      match KINDS.find? (fun k => decide (k.dir = dir)) with
      | none => false
      | some kind => s.isOld o.modified && !s.referenced kind name

/-- The loop of both halves: what remains, and the count, or no count when a removal
fails and the sweep ends there. -/
def removeWhere {α : Type} (dryRun : Bool) (orphan removable : α → Bool) :
    List α → List α × Option Nat
  | [] => ([], some 0)
  | x :: xs =>
      let rest := removeWhere dryRun orphan removable xs
      if orphan x then
        if dryRun then (x :: rest.1, rest.2.map (· + 1))
        else if removable x then (rest.1, rest.2.map (· + 1))
        else (x :: xs, none)
      else (x :: rest.1, rest.2)

/-- The loop over the kinds' directories; one that cannot be read is passed over. -/
def Sweep.sweepVolume (s : Sweep) :
    List Kind → (Kind → List Entry) → (Kind → List Entry) × Option Nat
  | [], volume => (volume, some 0)
  | kind :: kinds, volume =>
      if s.readable kind then
        let swept := removeWhere s.dryRun (s.orphanFile kind) (s.removable kind) (volume kind)
        let volume' := Function.update volume kind swept.1
        match swept.2 with
        | none => (volume', none)
        | some n =>
            let rest := s.sweepVolume kinds volume'
            (rest.1, rest.2.map (n + ·))
      else s.sweepVolume kinds volume

/-- The half of the bucket, when it is configured: the listed keys. -/
def Sweep.sweepBucket (s : Sweep) (bucket : List Object) : List Object × Option Nat :=
  match s.cfg with
  | none => (bucket, some 0)
  | some cfg =>
      if s.listed then
        let listed (o : Object) := (cfg.key ["media".toList] ++ ['/']).isPrefixOf o.key
        removeWhere s.dryRun (fun o => listed o && s.orphanObject o) s.deletable bucket
      else (bucket, none)

/-- `sweep`: the files that remain, and the report unless something has failed. -/
def sweep (s : Sweep) (w : Files) : Files × Option Report :=
  if KINDS.all fun k => (s.rows k).isSome then
    let swept := s.sweepVolume KINDS w.volume
    match swept.2 with
    | none => (⟨swept.1, w.bucket⟩, none)
    | some n =>
        let bucket := s.sweepBucket w.bucket
        (⟨swept.1, bucket.1⟩, bucket.2.map fun m => ⟨n, m, s.dryRun⟩)
  else (w, none)

/-! ## What the reference of a name is -/

theorem stem_append {stem ext : List Char} (hext : '.' ∉ ext) :
    ((rsplitOnce '.' (stem ++ '.' :: ext)).map Prod.fst).getD (stem ++ '.' :: ext) = stem := by
  rw [rsplitOnce_append hext]
  rfl

theorem not_mem_imageExt (fmt : List Char) : '.' ∉ imageExt fmt := by
  unfold imageExt
  split
  · decide
  · split <;> decide

theorem stripSuffix_append (c : Char) (t : List Char) : stripSuffix c (t ++ [c]) = some t := by
  simp [stripSuffix]

/-- The last digits and one underscore go, whatever the prompt id ends with. -/
theorem idOf_image (promptId : List Char) (idx : Nat) (fmt : List Char) :
    idOf .imageFiles (imageName promptId idx fmt) = promptId := by
  have hdigits : ∀ c ∈ Nat.toDigits 10 idx, c.isDigit = true := fun c hc =>
    Nat.isDigit_of_mem_toDigits (by omega) (by omega) hc
  have htrim : trimEndMatches Char.isDigit (promptId ++ '_' :: Nat.toDigits 10 idx)
      = promptId ++ ['_'] := by
    rw [trimEndMatches_append_cons (by decide), trimEndMatches_of_all hdigits]
  have hlen : (promptId ++ ['_']).length < (promptId ++ '_' :: Nat.toDigits 10 idx).length := by
    have hpos : 0 < (Nat.toDigits 10 idx).length := Nat.length_toDigits_pos
    simp only [List.length_append, List.length_cons, List.length_nil]
    omega
  have hstem := @stem_append (promptId ++ '_' :: Nat.toDigits 10 idx) _ (not_mem_imageExt fmt)
  unfold idOf
  simp only [imageName, hstem, htrim, stripSuffix_append, if_pos hlen]

/-- The video's reference is what `videoName` has kept of the prompt id. -/
theorem idOf_video {promptId name : List Char} (h : videoName promptId = some name) :
    idOf .videoFiles name = promptId.filter isVideoChar := by
  simp only [videoName] at h
  split at h
  · cases h
  · cases h
    exact @stem_append _ "mp4".toList (by decide)

/-- The name gives the reference back, unless it is a video's and the prompt id has a
character that `videoName` drops. -/
def Faithful (kind : Kind) (ref : List Char) : Prop :=
  kind = .videoFiles → ∀ c ∈ ref, isVideoChar c = true

theorem idOf_eq_iff {kind : Kind} {ref name : List Char} (h : Written kind ref name) :
    idOf kind name = ref ↔ Faithful kind ref := by
  cases h with
  | image idx fmt _ =>
    refine iff_of_true (idOf_image ..) ?_
    intro hkind
    cases hkind
  | video _ hname _ =>
    rw [idOf_video hname, List.filter_eq_self]
    exact ⟨fun hall _ => hall, fun hall => hall rfl⟩
  | scan _ _ =>
    refine iff_of_true rfl ?_
    intro hkind
    cases hkind
  | voice _ _ =>
    refine iff_of_true rfl ?_
    intro hkind
    cases hkind

theorem validName_of_written {kind : Kind} {ref name : List Char} (h : Written kind ref name) :
    validName name = true := by
  cases h <;> assumption

theorem chars_of_validName {name : List Char} (h : validName name = true) :
    name ≠ [] ∧ name.head? ≠ some '.' ∧ ∀ c ∈ name, c ≠ '/' := by
  unfold validName at h
  simp only [Bool.and_eq_true] at h
  obtain ⟨⟨⟨hhead, -⟩, htail⟩, -⟩ := h
  cases name with
  | nil => cases hhead
  | cons d t =>
    have hd : d.isAlphanum = true := by simpa using hhead
    refine ⟨List.cons_ne_nil d t, ?_, ?_⟩
    · rintro ⟨rfl⟩
      revert hd
      decide
    · intro c hc
      rcases List.mem_cons.1 hc with rfl | hc
      · rintro rfl
        revert hd
        decide
      · have hall := List.all_eq_true.1 htail c hc
        rintro rfl
        revert hall
        decide

/-! ## The key of a file -/

theorem lastTwo_append {front dir name : List Char} (hdir : '/' ∉ dir) (hname : '/' ∉ name) :
    lastTwo (front ++ '/' :: dir ++ '/' :: name) = some (name, dir) := by
  unfold lastTwo
  rw [rsplitOnce_append hname, Option.map_some, rsplitOnce_append hdir]
  rfl

theorem slash_not_mem_dir (kind : Kind) : '/' ∉ kind.dir := by
  cases kind <;> decide

theorem find_dir (kind : Kind) : KINDS.find? (fun k => decide (k.dir = kind.dir)) = some kind := by
  cases kind <;> decide

theorem mediaKey_eq (cfg : Config) (kind : Kind) {name : List Char} (hne : name ≠ [])
    (hname : ∀ c ∈ name, c ≠ '/') :
    cfg.mediaKey kind name = cfg.key ["media".toList] ++ '/' :: kind.dir ++ '/' :: name := by
  have hslash : ∀ t : List Char, '/' ∉ t → trimMatches (· == '/') t = t := by
    intro t ht
    refine trimMatches_of_forall fun c hc => ?_
    simp only [beq_eq_false_iff_ne]
    rintro rfl
    exact ht hc
  have hmedia : trimMatches (· == '/') "media".toList = "media".toList := hslash _ (by decide)
  have hdir : trimMatches (· == '/') kind.dir = kind.dir := hslash _ (slash_not_mem_dir kind)
  have hdirNe : kind.dir ≠ [] := by cases kind <;> decide
  have htrim : trimMatches (· == '/') name = name := hslash _ fun hc => hname _ hc rfl
  unfold Config.mediaKey Config.key
  simp only [List.map_cons, List.map_nil, hmedia, hdir, htrim]
  by_cases hpre : trimMatches (· == '/') cfg.keyPrefix = []
  · simp [hpre, hne, hdirNe, List.intercalate]
  · simp [hpre, hne, hdirNe, List.intercalate]

/-! ## What a sweep removes -/

section RemoveWhere

variable {α : Type} {dryRun : Bool} {orphan removable : α → Bool}

theorem mem_removeWhere {x : α} {xs : List α} (hx : x ∈ xs) (hkeep : orphan x = false) :
    x ∈ (removeWhere dryRun orphan removable xs).1 := by
  induction xs with
  | nil => cases hx
  | cons y ys ih =>
    simp only [removeWhere]
    rcases List.mem_cons.1 hx with rfl | hx
    · rw [hkeep]
      exact List.mem_cons_self
    · have hrest := ih hx
      split
      · split
        · exact List.mem_cons_of_mem _ hrest
        · split
          · exact hrest
          · exact List.mem_cons_of_mem _ hx
      · exact List.mem_cons_of_mem _ hrest

theorem removeWhere_subset {x : α} {xs : List α}
    (hx : x ∈ (removeWhere dryRun orphan removable xs).1) : x ∈ xs := by
  induction xs with
  | nil => exact hx
  | cons y ys ih =>
    simp only [removeWhere] at hx
    split at hx
    · split at hx
      · exact List.mem_cons.2 ((List.mem_cons.1 hx).imp_right ih)
      · split at hx
        · exact List.mem_cons_of_mem _ (ih hx)
        · exact hx
    · exact List.mem_cons.2 ((List.mem_cons.1 hx).imp_right ih)

/-- No orphan remains when every removal works; the loop is not cut short either. -/
theorem removeWhere_spec (hrem : ∀ x, removable x = true) (xs : List α) :
    (removeWhere false orphan removable xs).2.isSome = true ∧
      ∀ x ∈ (removeWhere false orphan removable xs).1, orphan x = false := by
  induction xs with
  | nil => exact ⟨rfl, fun x hx => by cases hx⟩
  | cons y ys ih =>
    simp only [removeWhere, hrem, Bool.false_eq_true, if_false, if_true]
    split
    · exact ⟨by simpa using ih.1, ih.2⟩
    · next hy =>
        refine ⟨ih.1, ?_⟩
        intro x hx
        rcases List.mem_cons.1 hx with rfl | hx
        · simpa using hy
        · exact ih.2 x hx

end RemoveWhere

variable {s : Sweep} {w : Files} {kind : Kind} {ref name : List Char} {e : Entry}

variable {kinds : List Kind} {volume : Kind → List Entry}

theorem mem_sweepVolume (he : e ∈ volume kind)
    (hkeep : s.orphanFile kind e = false) : e ∈ (s.sweepVolume kinds volume).1 kind := by
  induction kinds generalizing volume with
  | nil => exact he
  | cons k kinds ih =>
    have hupdate : e ∈ Function.update volume k
        (removeWhere s.dryRun (s.orphanFile k) (s.removable k) (volume k)).1 kind := by
      by_cases hk : kind = k
      · subst hk
        rw [Function.update_self]
        exact mem_removeWhere he hkeep
      · rw [Function.update_of_ne hk]
        exact he
    simp only [Sweep.sweepVolume]
    split
    · split
      · exact hupdate
      · exact ih hupdate
    · exact ih he

theorem sweepVolume_subset (he : e ∈ (s.sweepVolume kinds volume).1 kind) : e ∈ volume kind := by
  induction kinds generalizing volume with
  | nil => exact he
  | cons k kinds ih =>
    have hupdate (hu : e ∈ Function.update volume k
        (removeWhere s.dryRun (s.orphanFile k) (s.removable k) (volume k)).1 kind) :
        e ∈ volume kind := by
      by_cases hk : kind = k
      · subst hk
        rw [Function.update_self] at hu
        exact removeWhere_subset hu
      · rwa [Function.update_of_ne hk] at hu
    simp only [Sweep.sweepVolume] at he
    split at he
    · split at he
      · exact hupdate he
      · exact hupdate (ih he)
    · exact ih he

/-- Nothing fails, and this is no dry run. -/
structure Sweep.Works (s : Sweep) : Prop where
  rows : ∀ k, (s.rows k).isSome = true
  real : s.dryRun = false
  readable : ∀ k, s.readable k = true
  removable : ∀ k e, s.removable k e = true

theorem not_orphan_sweepVolume (hs : s.Works)
    (hkind : kind ∈ kinds) (he : e ∈ (s.sweepVolume kinds volume).1 kind) :
    s.orphanFile kind e = false := by
  induction kinds generalizing volume with
  | nil => cases hkind
  | cons k kinds ih =>
    obtain ⟨hcount, hkept⟩ := @removeWhere_spec _ (s.orphanFile k) _ (hs.removable k) (volume k)
    simp only [Sweep.sweepVolume, hs.readable, hs.real, if_true] at he
    split at he
    · next hnone =>
        rw [hnone] at hcount
        cases hcount
    · rcases List.mem_cons.1 hkind with rfl | hkind
      · have hu := sweepVolume_subset he
        rw [Function.update_self] at hu
        exact hkept e hu
      · exact ih hkind he

theorem sweep_keeps_file (he : e ∈ w.volume kind) (hkeep : s.orphanFile kind e = false) :
    e ∈ (sweep s w).1.volume kind := by
  have hswept := @mem_sweepVolume s kind e KINDS _ he hkeep
  simp only [sweep]
  split
  · split <;> exact hswept
  · exact he

theorem sweep_keeps_object {o : Object} (ho : o ∈ w.bucket) (hkeep : s.orphanObject o = false) :
    o ∈ (sweep s w).1.bucket := by
  have hswept : o ∈ (s.sweepBucket w.bucket).1 := by
    unfold Sweep.sweepBucket
    split
    · exact ho
    · split
      · exact mem_removeWhere ho (by simp [hkeep])
      · exact ho
  simp only [sweep]
  split
  · split
    · exact ho
    · exact hswept
  · exact ho

theorem sweep_removes (hs : s.Works) (he : e ∈ (sweep s w).1.volume kind) : s.orphanFile kind e = false := by
  have hrows : (KINDS.all fun k => (s.rows k).isSome) = true :=
    List.all_eq_true.2 fun k _ => hs.rows k
  have hkind : kind ∈ KINDS := by cases kind <;> decide
  simp only [sweep, if_pos hrows] at he
  split at he <;> exact not_orphan_sweepVolume hs hkind he

/-! ## Rows and files -/

/-- A row of the kind holds the reference. -/
def Sweep.hasRow (s : Sweep) (kind : Kind) (ref : List Char) : Prop :=
  ∃ rows, s.rows kind = some rows ∧ some ref ∈ rows

/-- Whenever a row holds `ref`, the name counts as referenced. -/
def Referenced (kind : Kind) (ref name : List Char) : Prop :=
  ∀ s : Sweep, s.hasRow kind ref → s.referenced kind name = true

/-- Whenever a row holds `ref`, the file stays where it is, on the volume and in the
bucket, whatever the prefix was when it was put there. -/
def Kept (kind : Kind) (ref name : List Char) : Prop :=
  ∀ (s : Sweep) (w : Files), s.hasRow kind ref →
    (∀ e ∈ w.volume kind, e.name = name → e ∈ (sweep s w).1.volume kind) ∧
    ∀ (cfg : Config), ∀ o ∈ w.bucket, o.key = cfg.mediaKey kind name → o ∈ (sweep s w).1.bucket

/-- Without a row that holds `ref`, no other row references the name. -/
def Unshared (kind : Kind) (ref name : List Char) : Prop :=
  ∀ s : Sweep, ¬ s.hasRow kind ref → s.referenced kind name = false

theorem referenced_iff : s.referenced kind name = true ↔ s.hasRow kind (idOf kind name) := by
  unfold Sweep.referenced Sweep.hasRow
  cases s.rows kind with
  | none => simp
  | some rows => simp

theorem kept_of_referenced (hw : Written kind ref name) (h : Referenced kind ref name) :
    Kept kind ref name := by
  intro s w hrow
  have href := h s hrow
  obtain ⟨hne, -, hslash⟩ := chars_of_validName (validName_of_written hw)
  constructor
  · rintro e he rfl
    refine sweep_keeps_file he ?_
    unfold Sweep.orphanFile
    split
    · rfl
    · simp [href]
  · intro cfg o ho hkey
    refine sweep_keeps_object ho ?_
    have hlast : lastTwo o.key = some (name, kind.dir) := by
      rw [hkey, mediaKey_eq cfg kind hne hslash]
      exact lastTwo_append (slash_not_mem_dir kind) fun hc => hslash _ hc rfl
    simp only [Sweep.orphanObject, hlast, find_dir, href, Bool.not_true, Bool.and_false]

/-- A sweep in which one row holds `ref` and everything works, long after. -/
def onlyRow (kind : Kind) (ref : List Char) : Sweep where
  rows := fun k => some (if k = kind then [some ref] else [])
  cfg := none
  now := ORPHAN_GRACE_DAYS * 86400 + 1
  dryRun := false
  readable := fun _ => true
  removable := fun _ _ => true
  listed := true
  deletable := fun _ => true

theorem hasRow_onlyRow {ref' : List Char} : (onlyRow kind ref).hasRow kind ref' ↔ ref' = ref := by
  simp [Sweep.hasRow, onlyRow]

/-- A file that is always kept has the reference of its row: else the sweep after a row
with `ref` alone would remove it. -/
theorem idOf_eq_of_kept (hw : Written kind ref name) (h : Kept kind ref name) : idOf kind name = ref := by
  by_contra hne
  let e : Entry := ⟨name, some ⟨true, some 0⟩⟩
  let w : Files := ⟨fun _ => [e], []⟩
  have hkept := (h (onlyRow kind ref) w (hasRow_onlyRow.2 rfl)).1 e (List.mem_singleton.2 rfl) rfl
  have hworks : (onlyRow kind ref).Works :=
    ⟨fun _ => rfl, rfl, fun _ => rfl, fun _ _ => rfl⟩
  have horphan := sweep_removes hworks hkept
  have hunref : (onlyRow kind ref).referenced kind name = false := by
    refine Bool.eq_false_iff.2 fun href => hne ?_
    exact hasRow_onlyRow.1 (referenced_iff.1 href)
  have hold : (onlyRow kind ref).isOld (some 0) = true := by
    simp [Sweep.isOld, onlyRow]
  have hdot := (chars_of_validName (validName_of_written hw)).2.1
  simp only [Sweep.orphanFile, e, hunref, hold, Bool.not_false, Bool.and_true, Bool.true_and,
    bne_eq_false_iff_eq] at horphan
  exact hdot horphan

/-- For every file that the portal writes: each of the three, that it counts as
referenced while its row is there, that no sweep removes it then, and that no other row
references it afterwards, holds exactly when the name gives the reference back. -/
theorem sweep_keeps_iff (hw : Written kind ref name) :
    (Referenced kind ref name ↔ Faithful kind ref) ∧ (Kept kind ref name ↔ Faithful kind ref) ∧
      (Unshared kind ref name ↔ Faithful kind ref) := by
  have hid := idOf_eq_iff hw
  have href (h : idOf kind name = ref) : Referenced kind ref name := by
    intro s hrow
    rw [referenced_iff, h]
    exact hrow
  refine ⟨⟨?_, ?_⟩, ⟨?_, ?_⟩, ?_, ?_⟩
  · intro h
    exact hid.1 (hasRow_onlyRow.1 (referenced_iff.1 (h (onlyRow kind ref) (hasRow_onlyRow.2 rfl))))
  · exact fun h => href (hid.2 h)
  · exact fun h => hid.1 (idOf_eq_of_kept hw h)
  · exact fun h => kept_of_referenced hw (href (hid.2 h))
  · intro h
    refine hid.1 ?_
    -- the row that the name points at is the only one
    by_contra hne
    have hrow : (onlyRow kind (idOf kind name)).referenced kind name = true :=
      referenced_iff.2 (hasRow_onlyRow.2 rfl)
    rw [h _ fun hr => hne (hasRow_onlyRow.1 hr).symm] at hrow
    cases hrow
  · intro h s hrow
    refine Bool.eq_false_iff.2 fun hr => hrow ?_
    have hmem := referenced_iff.1 hr
    rwa [hid.2 h] at hmem

theorem sweep_keeps_uuid : Written .videoFiles "3f2a-9".toList "3f2a-9.mp4".toList ∧
      Kept .videoFiles "3f2a-9".toList "3f2a-9.mp4".toList := by
  have hw : Written .videoFiles "3f2a-9".toList "3f2a-9.mp4".toList :=
    .video _ (by decide) (by decide)
  exact ⟨hw, (sweep_keeps_iff hw).2.1.2 fun _ => List.all_eq_true.1 (by decide)⟩

/-- A prompt id with a dot: the file of "a.b" is taken for the one of "ab". -/
theorem dotted_video_removed : Written .videoFiles "a.b".toList "ab.mp4".toList ∧
      ¬ Kept .videoFiles "a.b".toList "ab.mp4".toList ∧
      ¬ Unshared .videoFiles "a.b".toList "ab.mp4".toList := by
  refine ⟨.video _ (by decide) (by decide), ?_, ?_⟩
  · intro h
    have hkept := (h (onlyRow .videoFiles "a.b".toList)
      ⟨fun _ => [⟨"ab.mp4".toList, some ⟨true, some 0⟩⟩], []⟩ (hasRow_onlyRow.2 rfl)).1
      ⟨"ab.mp4".toList, some ⟨true, some 0⟩⟩ (by simp) rfl
    revert hkept
    decide
  · intro h
    have hnot := h (onlyRow .videoFiles "ab".toList) (by simp [hasRow_onlyRow])
    revert hnot
    decide

end Portal.MediaStore
