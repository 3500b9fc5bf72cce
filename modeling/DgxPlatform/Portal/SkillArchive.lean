import DgxPlatform.Lib.Quota
import DgxPlatform.Lib.Utf8
import DgxPlatform.Portal.SkillPaths
import DgxPlatform.Portal.SkillText
import Mathlib.Data.List.Dedup
import Mathlib.Data.List.Sort
import Mathlib.Data.String.Basic

/-! # The skills of an archive

`skills_from_zip` reads every skill of a `.zip`: it takes the members that may be
extracted, cuts off the folder that wraps them and the folder that was asked for, finds the
folders with a `SKILL.md`, and reads the files below each until a limit is reached.

* `takeFiles_eq`: the files of a folder are the readable ones, as far as the limits allow.
* `returned_sound`: they lie below the folder, under different paths and within the limits.
-/

namespace Portal.Skills

variable (env : Env)

/-! ## Archives -/

/-- An entry: its name (`none` when it cannot be read, or is not UTF-8), its declared size,
its mode, and the bytes that reading gives (`none` when reading fails). -/
structure Entry where
  name : Option (List Char)
  size : Nat
  mode : Option Nat
  data : Option (List UInt8)
deriving DecidableEq

/-- The library of archives: the entries of a byte string, if it is one, and the bytes of
an archive of names and contents. -/
structure ZipLib where
  read : List UInt8 → Option (List Entry)
  write : List (List Char × List UInt8) → List UInt8

def MAX_ARCHIVE_BYTES : Nat := 25 * 1024 * 1024

def MAX_ENTRIES : Nat := 3000

def MAX_UNCOMPRESSED : Nat := 60 * 1024 * 1024

def MAX_FILES_PER_SKILL : Nat := 200

def MAX_FILE_BYTES : Nat := 1024 * 1024

def MAX_SKILL_BYTES : Nat := 5 * 1024 * 1024

def MAX_SKILLS_PER_IMPORT : Nat := 50

/-- `String::from_utf8`: the text that the bytes encode. -/
def fromUtf8 (bytes : List UInt8) : Option (List Char) :=
  let text := Utf8.lossy bytes
  if Utf8.encode text = bytes then some text else none

/-- `decode`: the text of a file, `none` for a binary one. -/
def decode (data : List UInt8) : Option (List Char) :=
  if 0 ∈ data.take 8192 then none else fromUtf8 data

def dirname (p : List Char) : List Char := ((Text.rsplitOnce '/' p).map (·.1)).getD []

def basename (p : List Char) : List Char := ((Text.rsplitOnce '/' p).map (·.2)).getD p

/-! ## Members -/

/-- A member to extract: its path, the entry it is, and the declared size. -/
structure Member where
  path : List Char
  idx : Nat
  size : Nat
deriving DecidableEq

/-- `m & 0o170000 == 0o120000`. -/
def isSymlink (mode : Option Nat) : Bool := mode.any fun m => m &&& 0o170000 = 0o120000

/-- A repeated path keeps its first position and its last entry. -/
def upsert (ms : List Member) (m : Member) : List Member :=
  if ms.any (·.path = m.path) then ms.map fun x => if x.path = m.path then m else x else ms ++ [m]

/-- What an entry adds to the members. -/
def addEntry (ms : List Member) (e : Entry × Nat) : List Member :=
  if isSymlink e.1.mode then ms
  else
    match safePath (e.1.name.getD []) with
    | none => ms
    | some path => upsert ms ⟨path, e.2, e.1.size⟩

/-- The members of an archive, first-seen order. -/
def collect (entries : List Entry) : List Member := entries.zipIdx.foldl addEntry []

/-- A member without the first `n` characters of its path. -/
def Member.cut (n : Nat) (m : Member) : Member := { m with path := m.path.drop n }

/-- The folder that every member lies in. -/
def wrapper : List Member → Option (List Char)
  | [] => none
  | m :: ms =>
      let top := m.path.takeWhile (· ≠ '/')
      if (m :: ms).all fun x => '/' ∈ x.path ∧ x.path.takeWhile (· ≠ '/') = top then some top else none

/-- The archives of repositories wrap everything in one folder: drop it. -/
def unwrap (ms : List Member) : List Member :=
  match wrapper ms with
  | none => ms
  | some top => ms.map (Member.cut (top.length + 1))

/-- The members below the folder asked for. -/
def below (sub : List Char) (ms : List Member) : List Member :=
  if sub = [] then ms
  else (ms.filter fun m => sub ++ ['/'] <+: m.path).map (Member.cut (sub.length + 1))

/-! ## Folders -/

/-- The folders with a `SKILL.md`, sorted. -/
def skillDirs (ms : List Member) : List (List Char) :=
  ((ms.filter fun m => isSkillMd env (basename m.path)).map fun m => dirname m.path).dedup.insertionSort
    (· ≤ ·)

/-- A folder inside the folder of another skill, unless that is the archive itself. -/
def nestedIn (all : List (List Char)) (r : List Char) : Bool :=
  all.any fun o => o ≠ [] ∧ r ≠ o ∧ o ++ ['/'] <+: r

/-- The folders that make a skill. -/
def skillRoots (ms : List Member) : List (List Char) :=
  (skillDirs env ms).filter fun r => !nestedIn (skillDirs env ms) r

/-- The path lies below the folder. -/
def under (root path : List Char) : Bool := root = [] || (root ++ ['/']).isPrefixOf path

/-- The path from the folder. -/
def rel (root path : List Char) : List Char := if root = [] then path else path.drop (root.length + 1)

/-! ## Files -/

/-- A file of a skill, and the entry it comes from. -/
structure Picked where
  idx : Nat
  path : List Char
  text : List Char
deriving DecidableEq

def Picked.file (f : Picked) : List Char × List Char := (f.path, f.text)

/-- `text.len()`. -/
def byteLen (text : List Char) : Nat := (Utf8.encode text).length

/-- The text of a member, unless it is too large, unreadable or binary. -/
def readText (entries : List Entry) (m : Member) : Option (List Char) :=
  if m.size > MAX_FILE_BYTES then none
  else entries[m.idx]?.bind fun e => e.data.bind fun data => decode (data.take (MAX_FILE_BYTES + 1))

/-- The member as a file of the folder. -/
def pick (entries : List Entry) (root : List Char) (m : Member) : Option Picked :=
  if under root m.path then (readText entries m).map fun text => ⟨m.idx, rel root m.path, text⟩ else none

/-- A file whose path is there already replaces the text. -/
def putFile (files : List Picked) (f : Picked) : List Picked :=
  if files.any (·.path = f.path) then files.map fun x => if x.path = f.path then f else x else files ++ [f]

/-- The loop over the members for one folder. -/
def takeFiles (entries : List Entry) (root : List Char) (files : List Picked) (total : Nat) :
    List Member → List Picked
  | [] => files
  | m :: ms =>
      match pick entries root m with
      | none => takeFiles entries root files total ms
      | some f =>
          let total := total + byteLen f.text
          if total > MAX_SKILL_BYTES ∨ files.length ≥ MAX_FILES_PER_SKILL then files
          else takeFiles entries root (putFile files f) total ms

/-- A skill with the folder it was read from and where its files come from. -/
structure Returned where
  root : List Char
  picked : List Picked
  skill : Skill
deriving DecidableEq

def folderName (root : List Char) : List Char :=
  if basename root = [] then "skill".toList else basename root

/-- One folder: the skill, or why it is refused. -/
def readRoot (entries : List Entry) (ms : List Member) (root : List Char) : Except (List Char) Returned :=
  let picked := takeFiles entries root [] 0 ms
  (skillFromFiles env (picked.map Picked.file) (folderName root)).map fun s => ⟨root, picked, s⟩

/-- The skills of the folders. -/
def returned (entries : List Entry) (ms : List Member) : List Returned :=
  ((skillRoots env ms).take MAX_SKILLS_PER_IMPORT).filterMap fun r => (readRoot env entries ms r).toOption

/-- The folders that gave no skill, with why. -/
def refused (entries : List Entry) (ms : List Member) : List (List Char × List Char) :=
  (((skillRoots env ms).take MAX_SKILLS_PER_IMPORT).filterMap fun r =>
      match readRoot env entries ms r with
      | .ok _ => none
      | .error e => some (folderName r, e)) ++
    ((skillRoots env ms).drop MAX_SKILLS_PER_IMPORT).map fun r =>
      (basename r, "Trop de compétences dans une seule archive.".toList)

/-- The members that the folders are looked for in. -/
def membersOf (entries : List Entry) (subpath : List Char) : List Member :=
  below (Text.trimMatches (· = '/') subpath) (unwrap (collect entries))

def notAnArchive : List Char := "Ce fichier n'est pas une archive .zip valide.".toList

/-- `skills_from_zip`: every skill of a `.zip`, and the folders refused with why. The
declared sizes are added in 64 bits. -/
def skillsFromZip (zip : ZipLib) (data : List UInt8) (subpath : List Char) :
    Except (List Char) (List Skill × List (List Char × List Char)) :=
  if data.length > MAX_ARCHIVE_BYTES then .error "Archive trop volumineuse (25 Mo maximum).".toList
  else
    match zip.read data with
    | none => .error notAnArchive
    | some entries =>
        let sub := Text.trimMatches (· = '/') subpath
        let ms := membersOf entries subpath
        if entries.length > MAX_ENTRIES then
          .error "Archive trop volumineuse (trop de fichiers).".toList
        else if entries.any (·.name.isNone) then .error notAnArchive
        else if (entries.map Entry.size).sum % 2 ^ 64 > MAX_UNCOMPRESSED then
          .error "Archive trop volumineuse une fois décompressée.".toList
        else if sub ≠ [] ∧ ms = [] then
          .error ("Dossier « ".toList ++ sub ++ " » introuvable dans le dépôt.".toList)
        else if skillRoots env ms = [] then .error "Aucun SKILL.md trouvé dans l'archive.".toList
        else .ok ((returned env entries ms).map Returned.skill, refused env entries ms)

/-! ## The members and their entries -/

section Members

variable {entries : List Entry} {pre q : List Char} {ms : List Member} {m : Member}

/-- A member is an entry of the archive, and its path is the entry's behind what was cut off. -/
def Member.Sound (entries : List Entry) (pre : List Char) (m : Member) : Prop :=
  ∃ e, entries[m.idx]? = some e ∧ safePath (e.name.getD []) = some (pre ++ m.path) ∧ m.size = e.size

/-- Sound members under different paths. -/
structure Members (entries : List Entry) (pre : List Char) (ms : List Member) : Prop where
  sound : ∀ m ∈ ms, m.Sound entries pre
  nodup : (ms.map Member.path).Nodup

theorem mem_upsert {x : Member} (h : x ∈ upsert ms m) : x = m ∨ x ∈ ms := by
  unfold upsert at h
  split_ifs at h with hany
  · obtain ⟨y, hy, heq⟩ := List.mem_map.1 h
    split_ifs at heq
    · exact .inl heq.symm
    · exact .inr (heq ▸ hy)
  · obtain hx | hx := List.mem_append.1 h
    · exact .inr hx
    · exact .inl (List.mem_singleton.1 hx)

theorem nodup_upsert (h : (ms.map Member.path).Nodup) : ((upsert ms m).map Member.path).Nodup := by
  unfold upsert
  split_ifs with hany
  · have hsame : (ms.map fun x => if x.path = m.path then m else x).map Member.path = ms.map Member.path := by
      rw [List.map_map]
      refine List.map_congr_left fun x _ => ?_
      rw [Function.comp_apply]
      split_ifs with hx
      · exact hx.symm
      · rfl
    rw [hsame]
    exact h
  · rw [List.map_append, List.map_singleton]
    refine List.nodup_append.2 ⟨h, List.nodup_singleton _, fun a ha b hb heq => hany ?_⟩
    obtain ⟨x, hx, rfl⟩ := List.mem_map.1 ha
    rw [List.mem_singleton] at hb
    exact List.any_eq_true.2 ⟨x, hx, decide_eq_true (heq.trans hb)⟩

theorem Members.addEntry {e : Entry} {i : Nat} (h : Members entries [] ms) (he : entries[i]? = some e) :
    Members entries [] (addEntry ms (e, i)) := by
  unfold Skills.addEntry
  split_ifs with hlink
  · exact h
  · split
    · exact h
    · next path hpath =>
        refine ⟨fun x hx => ?_, nodup_upsert h.nodup⟩
        obtain rfl | hx := mem_upsert hx
        · exact ⟨e, he, hpath, rfl⟩
        · exact h.sound x hx

theorem members_collect (entries : List Entry) : Members entries [] (collect entries) := by
  have hfold : ∀ (es : List (Entry × Nat)) (ms : List Member), (∀ x ∈ es, entries[x.2]? = some x.1) →
      Members entries [] ms → Members entries [] (es.foldl addEntry ms) := by
    intro es
    induction es with
    | nil => exact fun _ _ h => h
    | cons x es ih =>
      intro ms hes h
      obtain ⟨hx, hes⟩ := List.forall_mem_cons.1 hes
      exact ih _ hes (h.addEntry hx)
  refine hfold _ _ (fun x hx => ?_) ⟨List.forall_mem_nil _, List.nodup_nil⟩
  exact List.mem_zipIdx_iff_getElem?.1 hx

theorem Members.cut (h : Members entries pre ms) (hq : ∀ m ∈ ms, q <+: m.path) :
    Members entries (pre ++ q) (ms.map (Member.cut q.length)) := by
  have hpath : ∀ m ∈ ms, m.path = q ++ (m.cut q.length).path := by
    intro m hm
    obtain ⟨rest, hrest⟩ := hq m hm
    rw [Member.cut, ← hrest, List.drop_left]
  constructor
  · intro x hx
    obtain ⟨m, hm, rfl⟩ := List.mem_map.1 hx
    obtain ⟨e, he, hsafe, hsize⟩ := h.sound m hm
    refine ⟨e, he, ?_, hsize⟩
    rw [hsafe, List.append_assoc, ← hpath m hm]
  · rw [List.map_map]
    refine List.Nodup.of_map (q ++ ·) ?_
    rw [List.map_map]
    refine (List.map_congr_left fun m hm => ?_).symm ▸ h.nodup
    exact (hpath m hm).symm

theorem Members.filter (h : Members entries pre ms) (keep : Member → Bool) :
    Members entries pre (ms.filter keep) where
  sound m hm := h.sound m (List.mem_of_mem_filter hm)
  nodup := h.nodup.sublist (List.filter_sublist.map _)

theorem takeWhile_slash {path : List Char} (h : '/' ∈ path) :
    path.takeWhile (· ≠ '/') ++ ['/'] <+: path := by
  induction path with
  | nil => cases h
  | cons c path ih =>
    by_cases hc : c = '/'
    · subst hc
      simp
    · obtain heq | hmem := List.mem_cons.1 h
      · exact absurd heq.symm hc
      · rw [List.takeWhile_cons_of_pos (by simpa using hc), List.cons_append, List.cons_prefix_cons]
        exact ⟨rfl, ih hmem⟩

/-- What is cut off: folders. -/
def Folders (pre : List Char) : Prop := pre = [] ∨ ∃ q, pre = q ++ ['/']

theorem Folders.append {q : List Char} (hpre : Folders pre) (hq : Folders q) : Folders (pre ++ q) := by
  obtain rfl | ⟨a, rfl⟩ := hq
  · rwa [List.append_nil]
  · exact .inr ⟨pre ++ a, (List.append_assoc _ _ _).symm⟩

theorem members_unwrap (h : Members entries [] ms) : ∃ pre, Folders pre ∧ Members entries pre (unwrap ms) := by
  unfold unwrap
  split
  · exact ⟨[], .inl rfl, h⟩
  · next top htop =>
      cases ms with
      | nil => cases htop
      | cons m ms =>
        rw [wrapper] at htop
        split_ifs at htop with hall
        rw [Option.some.injEq] at htop
        refine ⟨[] ++ (top ++ ['/']), .inr ⟨top, rfl⟩, ?_⟩
        have hcut := h.cut (q := top ++ ['/']) fun x hx => by
          have hx' := of_decide_eq_true (List.all_eq_true.1 hall x hx)
          rw [← htop, ← hx'.2]
          exact takeWhile_slash hx'.1
        rw [List.length_append, List.length_singleton] at hcut
        exact hcut

theorem members_below {sub : List Char} (hpre : Folders pre) (h : Members entries pre ms) :
    ∃ pre', Folders pre' ∧ Members entries pre' (below sub ms) := by
  unfold below
  split_ifs with hsub
  · exact ⟨pre, hpre, h⟩
  · have hcut := (h.filter fun m => sub ++ ['/'] <+: m.path).cut (q := sub ++ ['/']) fun m hm => by
      exact of_decide_eq_true (List.mem_filter.1 hm).2
    rw [List.length_append, List.length_singleton] at hcut
    exact ⟨_, hpre.append (.inr ⟨sub, rfl⟩), hcut⟩

/-- The members that the folders are looked for in are sound, for some folders cut off. -/
theorem members_membersOf (entries : List Entry) (subpath : List Char) :
    ∃ pre, Folders pre ∧ Members entries pre (membersOf entries subpath) := by
  obtain ⟨pre, hpre, h⟩ := members_unwrap (members_collect entries)
  exact members_below hpre h

end Members

/-! ## The files of a folder -/

section Files

variable {env} {entries : List Entry} {pre root r r' : List Char} {ms : List Member} {m : Member} {f : Picked}

/-- The readable files below a folder, in the order of the members. -/
def readable (entries : List Entry) (ms : List Member) (root : List Char) : List Picked :=
  ms.filterMap (pick entries root)

theorem pick_eq_some : pick entries root m = some f ↔
    under root m.path = true ∧ readText entries m = some f.text ∧ f.idx = m.idx ∧ f.path = rel root m.path := by
  unfold pick
  constructor
  · intro h
    split_ifs at h with hunder
    obtain ⟨text, htext, rfl⟩ := Option.map_eq_some_iff.1 h
    exact ⟨hunder, htext, rfl, rfl⟩
  · rintro ⟨hunder, htext, hidx, hpath⟩
    rw [if_pos hunder, htext, ← hidx, ← hpath]
    rfl

theorem under_iff {path : List Char} : under root path = true ↔ root = [] ∨ root ++ ['/'] <+: path := by
  rw [under, Bool.or_eq_true, decide_eq_true_eq, List.isPrefixOf_iff_prefix]

theorem eq_of_under {path : List Char} (h : under root path = true) :
    path = (if root = [] then [] else root ++ ['/']) ++ rel root path := by
  obtain rfl | hpre := under_iff.1 h
  · rfl
  · by_cases hroot : root = []
    · rw [if_pos hroot, rel, if_pos hroot]
      rfl
    · obtain ⟨rest, rfl⟩ := hpre
      have hlen : root.length + 1 = (root ++ ['/']).length := by
        rw [List.length_append, List.length_singleton]
      rw [if_neg hroot, rel, if_neg hroot, hlen, List.drop_left]

theorem nodup_readable (h : (ms.map Member.path).Nodup) : ((readable entries ms root).map Picked.path).Nodup := by
  have hpath : ∀ m m' f f', pick entries root m = some f → pick entries root m' = some f' →
      f.path = f'.path → m.path = m'.path := by
    intro m m' f f' hm hm' heq
    obtain ⟨hunder, -, -, hf⟩ := pick_eq_some.1 hm
    obtain ⟨hunder', -, -, hf'⟩ := pick_eq_some.1 hm'
    rw [eq_of_under hunder, eq_of_under hunder', ← hf, ← hf', heq]
  rw [readable, List.map_filterMap]
  rw [List.nodup_iff_pairwise_ne] at h ⊢
  rw [List.pairwise_map] at h
  refine List.Pairwise.filterMap _ (fun m m' hne a ha b hb heq => ?_) h
  obtain ⟨f, hf, rfl⟩ := Option.map_eq_some_iff.1 ha
  obtain ⟨f', hf', rfl⟩ := Option.map_eq_some_iff.1 hb
  exact hne (hpath m m' f f' hf hf' heq)

/-- The limits on the files of a skill. -/
def fitting (files : List Picked) : List Picked :=
  Quota.fit (fun f : Picked => byteLen f.text) MAX_SKILL_BYTES MAX_FILES_PER_SKILL 0 0 files

/-- The loop appends the readable files, as far as the limits allow. -/
theorem takeFiles_eq_append {files : List Picked} {total : Nat}
    (h : ((files ++ readable entries ms root).map Picked.path).Nodup) :
    takeFiles entries root files total ms =
      files ++ Quota.fit (fun f : Picked => byteLen f.text) MAX_SKILL_BYTES MAX_FILES_PER_SKILL files.length total
        (readable entries ms root) := by
  induction ms generalizing files total with
  | nil => simp [takeFiles, readable, Quota.fit]
  | cons m ms ih =>
    unfold takeFiles
    cases hpick : pick entries root m with
    | none =>
      have hskip : readable entries (m :: ms) root = readable entries ms root := List.filterMap_cons_none hpick
      rw [hskip] at h ⊢
      exact ih h
    | some f =>
      have hcons : readable entries (m :: ms) root = f :: readable entries ms root :=
        List.filterMap_cons_some hpick
      rw [hcons] at h ⊢
      -- the path of the file is new, so it is appended
      have hnew : putFile files f = files ++ [f] := by
        refine if_neg fun hany => ?_
        obtain ⟨x, hx, heq⟩ := List.any_eq_true.1 hany
        rw [List.map_append, List.map_cons, List.nodup_append] at h
        exact h.2.2 _ (List.mem_map_of_mem hx) _ List.mem_cons_self (of_decide_eq_true heq)
      dsimp only
      rw [Quota.fit]
      split_ifs with hlimit
      · rw [List.append_nil]
      · rw [hnew, ih (by rwa [List.append_assoc]), List.length_append, List.length_singleton,
          List.append_assoc]
        rfl

theorem takeFiles_eq (h : (ms.map Member.path).Nodup) :
    takeFiles entries root [] 0 ms = fitting (readable entries ms root) := by
  have hnodup : (([] ++ readable entries ms root).map Picked.path).Nodup := nodup_readable h
  exact takeFiles_eq_append hnodup

theorem skillFromFiles_files {files : List (List Char × List Char)} {folder : List Char} {s : Skill}
    (h : skillFromFiles env files folder = .ok s) : s.files = files := by
  unfold skillFromFiles at h
  split at h
  · cases h
  · dsimp only at h
    split_ifs at h
    rw [← Except.ok.inj h]

theorem readRoot_ok {x : Returned} (hms : (ms.map Member.path).Nodup) (h : readRoot env entries ms r = .ok x) :
    x.root = r ∧ x.picked = fitting (readable entries ms r) ∧ x.skill.files = x.picked.map Picked.file ∧
      skillFromFiles env (x.picked.map Picked.file) (folderName r) = .ok x.skill := by
  unfold readRoot at h
  dsimp only at h
  cases hs : skillFromFiles env ((takeFiles entries r [] 0 ms).map Picked.file) (folderName r) with
  | error e =>
    rw [hs] at h
    cases h
  | ok s =>
    rw [hs] at h
    obtain rfl := Except.ok.inj h
    exact ⟨rfl, takeFiles_eq hms, skillFromFiles_files hs, hs⟩

theorem mem_returned {x : Returned} : x ∈ returned env entries ms ↔
    ∃ r ∈ (skillRoots env ms).take MAX_SKILLS_PER_IMPORT, readRoot env entries ms r = .ok x := by
  rw [returned, List.mem_filterMap]
  constructor
  · rintro ⟨r, hr, hx⟩
    refine ⟨r, hr, ?_⟩
    cases h : readRoot env entries ms r with
    | error e =>
      rw [h] at hx
      cases hx
    | ok y =>
      rw [h] at hx
      rw [Option.some.inj hx]
  · rintro ⟨r, hr, hx⟩
    exact ⟨r, hr, by rw [hx]; rfl⟩

theorem mem_readable : f ∈ readable entries ms root ↔ ∃ m ∈ ms, pick entries root m = some f :=
  List.mem_filterMap

theorem mem_fitting {files : List Picked} : f ∈ fitting files ↔ ∃ k, files[k]? = some f ∧
    k < MAX_FILES_PER_SKILL ∧ ((files.take (k + 1)).map fun f => byteLen f.text).sum ≤ MAX_SKILL_BYTES := by
  rw [List.mem_iff_getElem?]
  constructor
  · rintro ⟨k, hk⟩
    obtain ⟨hget, hcount, hbytes⟩ := Quota.getElem?_fit_iff.1 hk
    exact ⟨k, hget, by omega, by omega⟩
  · rintro ⟨k, hget, hcount, hbytes⟩
    exact ⟨k, Quota.getElem?_fit_iff.2 ⟨hget, by omega, by omega⟩⟩

theorem mem_of_mem_fitting {files : List Picked} (h : f ∈ fitting files) : f ∈ files := by
  obtain ⟨k, hk, -⟩ := mem_fitting.1 h
  exact List.mem_of_getElem? hk

/-! ## Where entries land -/

theorem Members.path_eq {m m' : Member} (h : Members entries pre ms) (hm : m ∈ ms) (hm' : m' ∈ ms)
    (hidx : m.idx = m'.idx) : m.path = m'.path := by
  obtain ⟨e, he, hsafe, -⟩ := h.sound m hm
  obtain ⟨e', he', hsafe', -⟩ := h.sound m' hm'
  rw [← hidx, he] at he'
  obtain rfl := Option.some.inj he'
  rw [hsafe] at hsafe'
  exact List.append_cancel_left (Option.some.inj hsafe')

/-- The folder of a skill lies in no other skill's folder, the archive itself apart. -/
theorem not_prefix_of_mem (hr : r ∈ skillRoots env ms) (hr' : r' ∈ skillRoots env ms) (hne : r ≠ r')
    (hroot : r ≠ []) : ¬ r ++ ['/'] <+: r' := by
  intro hpre
  have hkeep := (List.mem_filter.1 hr').2
  rw [Bool.not_eq_true', nestedIn, List.any_eq_false] at hkeep
  exact hkeep r (List.mem_filter.1 hr).1 (decide_eq_true ⟨hroot, hne.symm, hpre⟩)

theorem not_under_both {path : List Char} (hr : r ∈ skillRoots env ms) (hr' : r' ∈ skillRoots env ms)
    (hne : r ≠ r') (hroot : r ≠ []) (hroot' : r' ≠ []) (h : r ++ ['/'] <+: path) (h' : r' ++ ['/'] <+: path) :
    False := by
  have hlen : ∀ x : List Char, (x ++ ['/']).length = x.length + 1 := fun x => by
    rw [List.length_append, List.length_singleton]
  obtain hlt | heq | hgt := Nat.lt_trichotomy r.length r'.length
  · refine not_prefix_of_mem hr hr' hne hroot ?_
    exact List.prefix_of_prefix_length_le h ((List.prefix_append r' ['/']).trans h') (by rw [hlen]; omega)
  · have hsame := List.prefix_of_prefix_length_le ((List.prefix_append r ['/']).trans h)
      ((List.prefix_append r' ['/']).trans h') (by omega)
    exact hne (hsame.eq_of_length heq)
  · refine not_prefix_of_mem hr' hr hne.symm hroot' ?_
    exact List.prefix_of_prefix_length_le h' ((List.prefix_append r ['/']).trans h) (by rw [hlen]; omega)

/-- The folders of skills share no entry, the archive itself apart. -/
theorem disjoint_folders (h : Members entries pre ms) (hr : r ∈ skillRoots env ms) (hr' : r' ∈ skillRoots env ms)
    (hne : r ≠ r') (hroot : r ≠ []) (hroot' : r' ≠ []) {g : Picked} (hf : f ∈ readable entries ms r)
    (hg : g ∈ readable entries ms r') : f.idx ≠ g.idx := by
  intro heq
  obtain ⟨m, hm, hpick⟩ := mem_readable.1 hf
  obtain ⟨m', hm', hpick'⟩ := mem_readable.1 hg
  obtain ⟨hunder, -, hidx, -⟩ := pick_eq_some.1 hpick
  obtain ⟨hunder', -, hidx', -⟩ := pick_eq_some.1 hpick'
  have hpath := h.path_eq hm hm' (by rw [← hidx, ← hidx', heq])
  rw [← hpath] at hunder'
  exact not_under_both hr hr' hne hroot hroot' ((under_iff.1 hunder).resolve_left hroot)
    ((under_iff.1 hunder').resolve_left hroot')

/-- A readable file of the archive, as a file of a folder. -/
def narrow (root : List Char) (f : Picked) : Option Picked :=
  if under root f.path then some { f with path := rel root f.path } else none

theorem readable_eq (ms : List Member) (root : List Char) :
    readable entries ms root = (readable entries ms []).filterMap (narrow root) := by
  rw [readable, readable, List.filterMap_filterMap]
  refine List.filterMap_congr fun m _ => ?_
  unfold pick narrow
  cases readText entries m with
  | none => simp
  | some text => simp [under, rel]

/-- The files of the archive that lie below a folder are beyond the limits. -/
def Beyond (entries : List Entry) (ms : List Member) (r : List Char) : Prop :=
  ∀ k f, (readable entries ms [])[k]? = some f → under r f.path = true →
    MAX_FILES_PER_SKILL ≤ k ∨
      MAX_SKILL_BYTES < (((readable entries ms []).take (k + 1)).map fun f => byteLen f.text).sum

theorem sum_take_le {l : List Picked} {k n : Nat} (h : k ≤ n) :
    ((l.take k).map fun f => byteLen f.text).sum ≤ ((l.take n).map fun f => byteLen f.text).sum := by
  have hsplit : l.take n = l.take k ++ (l.take n).drop k := by
    rw [← Nat.min_eq_left h, ← List.take_take, Nat.min_eq_left h, List.take_append_drop]
  rw [hsplit, List.map_append, List.sum_append]
  exact Nat.le_add_right _ _

theorem exists_first_under {files : List Picked} {k : Nat} (hf : files[k]? = some f) (hunder : under r f.path = true) :
    ∃ f₀ before behind, files = before ++ f₀ :: behind ∧ under r f₀.path = true ∧
      (∀ x ∈ before, ¬ under r x.path = true) ∧ before.length ≤ k := by
  have hfind : (files.find? fun f => under r f.path).isSome = true :=
    List.find?_isSome.2 ⟨f, List.mem_of_getElem? hf, hunder⟩
  obtain ⟨f₀, hf₀⟩ := Option.isSome_iff_exists.1 hfind
  obtain ⟨hunder₀, before, behind, hsplit, hbefore⟩ := List.find?_eq_some_iff_append.1 hf₀
  refine ⟨f₀, before, behind, hsplit, hunder₀, fun x hx => by simpa using hbefore x hx, ?_⟩
  by_contra hlt
  rw [hsplit, List.getElem?_append_left (by omega)] at hf
  have hnot := hbefore f (List.mem_of_getElem? hf)
  rw [hunder] at hnot
  cases hnot

/-- A file below the folder that is within the limits makes the archive itself take a file of it. -/
theorem shared_of_within {k : Nat} (hf : (readable entries ms [])[k]? = some f) (hunder : under r f.path = true)
    (hcount : k < MAX_FILES_PER_SKILL)
    (hbytes : (((readable entries ms []).take (k + 1)).map fun f => byteLen f.text).sum ≤ MAX_SKILL_BYTES) :
    ∃ f ∈ fitting (readable entries ms []), ∃ g ∈ fitting (readable entries ms r), f.idx = g.idx := by
  obtain ⟨f₀, before, behind, hsplit, hunder₀, hbefore, hle⟩ := exists_first_under hf hunder
  have hget : (readable entries ms [])[before.length]? = some f₀ := by
    rw [hsplit, List.getElem?_append_right (Nat.le_refl _), Nat.sub_self, List.getElem?_cons_zero]
  have hsum := (sum_take_le (l := readable entries ms []) (Nat.succ_le_succ hle)).trans hbytes
  have htop : f₀ ∈ fitting (readable entries ms []) := mem_fitting.2 ⟨_, hget, by omega, hsum⟩
  have hfirst : readable entries ms r = { f₀ with path := rel r f₀.path } :: behind.filterMap (narrow r) := by
    have hnone : before.filterMap (narrow r) = [] := by
      rw [List.filterMap_eq_nil_iff]
      exact fun x hx => if_neg (hbefore x hx)
    rw [readable_eq, hsplit, List.filterMap_append, hnone, List.nil_append,
      List.filterMap_cons_some (show narrow r f₀ = some _ from if_pos hunder₀)]
  have hsize : byteLen f₀.text ≤ MAX_SKILL_BYTES := by
    refine le_trans ?_ hsum
    rw [hsplit, Nat.succ_eq_add_one, List.take_append, List.map_append, List.sum_append,
      Nat.add_sub_cancel_left, List.take_succ_cons, List.map_cons, List.sum_cons]
    omega
  refine ⟨f₀, htop, { f₀ with path := rel r f₀.path }, mem_fitting.2 ⟨0, ?_, by decide, ?_⟩, rfl⟩
  · rw [hfirst]
    rfl
  · rw [hfirst]
    simpa using hsize

/-- The archive itself shares no entry with a folder exactly when the folder's files come
after the limits. -/
theorem disjoint_top_iff (h : Members entries pre ms) :
    (∀ f ∈ fitting (readable entries ms []), ∀ g ∈ fitting (readable entries ms r), f.idx ≠ g.idx) ↔
      Beyond entries ms r := by
  constructor
  · intro hdisj k f hf hunder
    by_contra hlimit
    rw [not_or, not_le, not_lt] at hlimit
    obtain ⟨f₀, htop, g, hg, hidx⟩ := shared_of_within hf hunder hlimit.1 hlimit.2
    exact hdisj f₀ htop g hg hidx
  · intro hbeyond f hf g hg heq
    obtain ⟨k, hk, hcount, hbytes⟩ := mem_fitting.1 hf
    obtain ⟨m, hm, hpick⟩ := mem_readable.1 (List.mem_of_getElem? hk)
    obtain ⟨m', hm', hpick'⟩ := mem_readable.1 (mem_of_mem_fitting hg)
    obtain ⟨-, -, hidx, hpath⟩ := pick_eq_some.1 hpick
    obtain ⟨hunder, -, hidx', -⟩ := pick_eq_some.1 hpick'
    have hsame : m.path = m'.path := h.path_eq hm hm' (by rw [← hidx, ← hidx', heq])
    have hunder' : under r f.path = true := by
      rw [hpath]
      show under r m.path = true
      rw [hsame]
      exact hunder
    obtain hlimit | hlimit := hbeyond k f hk hunder'
    · omega
    · omega

/-! ## Every entry in one skill -/

/-- What holds of each returned skill: where its files come from, and the limits. -/
structure Returned.Sound (entries : List Entry) (pre : List Char) (x : Returned) : Prop where
  files : x.skill.files = x.picked.map Picked.file
  under : ∀ f ∈ x.picked, ∃ e q, entries[f.idx]? = some e ∧ safePath (e.name.getD []) = some (pre ++ q) ∧
    under x.root q = true ∧ f.path = rel x.root q
  nodup : (x.skill.files.map Prod.fst).Nodup
  count : x.skill.files.length ≤ MAX_FILES_PER_SKILL
  bytes : (x.skill.files.map fun f => byteLen f.2).sum ≤ MAX_SKILL_BYTES

/-- The archived files are shared out: skills of different folders, none with an entry of
another. -/
structure Partitioned (entries : List Entry) (pre : List Char) (skills : List Returned) : Prop where
  roots : (skills.map Returned.root).Nodup
  disjoint : ∀ x ∈ skills, ∀ y ∈ skills, x.root ≠ y.root → ∀ f ∈ x.picked, ∀ g ∈ y.picked, f.idx ≠ g.idx
  sound : ∀ x ∈ skills, x.Sound entries pre

theorem returned_sound {x : Returned} (h : Members entries pre ms) (hx : x ∈ returned env entries ms) :
    x.Sound entries pre := by
  obtain ⟨r, -, hr⟩ := mem_returned.1 hx
  obtain ⟨rfl, hpicked, hfiles, -⟩ := readRoot_ok h.nodup hr
  have hpaths : x.skill.files.map Prod.fst = x.picked.map Picked.path := by
    rw [hfiles, List.map_map]
    rfl
  have htexts : (x.skill.files.map fun f => byteLen f.2) = x.picked.map fun f => byteLen f.text := by
    rw [hfiles, List.map_map]
    rfl
  refine ⟨hfiles, fun f hf => ?_, ?_, ?_, ?_⟩
  · rw [hpicked] at hf
    obtain ⟨m, hm, hpick⟩ := mem_readable.1 (mem_of_mem_fitting hf)
    obtain ⟨hunder, -, hidx, hpath⟩ := pick_eq_some.1 hpick
    obtain ⟨e, he, hsafe, -⟩ := h.sound m hm
    exact ⟨e, m.path, by rw [hidx, he], hsafe, hunder, hpath⟩
  · rw [hpaths, hpicked]
    exact (nodup_readable h.nodup).sublist (Quota.fit_prefix.sublist.map _)
  · have hle : 0 + (fitting (readable entries ms x.root)).length ≤ MAX_FILES_PER_SKILL :=
      Quota.length_fit_le (Nat.zero_le _)
    rw [hfiles, List.length_map, hpicked]
    omega
  · have hle : 0 + ((fitting (readable entries ms x.root)).map fun f => byteLen f.text).sum ≤ MAX_SKILL_BYTES :=
      Quota.sum_fit_le (Nat.zero_le _)
    rw [htexts, hpicked]
    omega

theorem nodup_skillRoots (env : Env) (ms : List Member) : (skillRoots env ms).Nodup :=
  (((List.perm_insertionSort _ _).nodup_iff).2 (List.nodup_dedup _)).filter _

theorem nodup_returned (hms : (ms.map Member.path).Nodup) : ((returned env entries ms).map Returned.root).Nodup := by
  rw [returned, List.map_filterMap]
  refine List.Pairwise.filterMap _ (fun r r' hne a ha b hb => ?_)
    ((nodup_skillRoots env ms).sublist (List.take_sublist _ _))
  have hroot : ∀ r a, ((readRoot env entries ms r).toOption.map Returned.root) = some a → a = r := by
    intro r a ha
    cases hr : readRoot env entries ms r with
    | error e =>
      rw [hr] at ha
      cases ha
    | ok x =>
      rw [hr] at ha
      rw [← Option.some.inj ha]
      exact (readRoot_ok hms hr).1
  rw [hroot r a ha, hroot r' b hb]
  exact hne

/-- The archive itself makes no skill, or every other folder that makes one has its files
beyond the limits. -/
def TopApart (env : Env) (entries : List Entry) (ms : List Member) : Prop :=
  ∀ top other r, [] ∈ (skillRoots env ms).take MAX_SKILLS_PER_IMPORT → readRoot env entries ms [] = .ok top →
    r ∈ (skillRoots env ms).take MAX_SKILLS_PER_IMPORT → r ≠ [] → readRoot env entries ms r = .ok other →
    Beyond entries ms r

theorem partitioned_iff (h : Members entries pre ms) :
    Partitioned entries pre (returned env entries ms) ↔ TopApart env entries ms := by
  have hroot : ∀ {x : Returned} {r : List Char}, readRoot env entries ms r = .ok x →
      x.root = r ∧ x.picked = fitting (readable entries ms r) := fun hx =>
    ⟨(readRoot_ok h.nodup hx).1, (readRoot_ok h.nodup hx).2.1⟩
  constructor
  · intro hpart top other r hmem htop hr hne hother
    rw [← disjoint_top_iff h, ← (hroot htop).2, ← (hroot hother).2]
    refine hpart.disjoint top (mem_returned.2 ⟨[], hmem, htop⟩) other (mem_returned.2 ⟨r, hr, hother⟩) ?_
    rw [(hroot htop).1, (hroot hother).1]
    exact hne.symm
  · intro htop
    refine ⟨nodup_returned h.nodup, fun x hx y hy hne => ?_, fun x hx => returned_sound h hx⟩
    obtain ⟨r, hr, hxr⟩ := mem_returned.1 hx
    obtain ⟨r', hr', hyr⟩ := mem_returned.1 hy
    rw [(hroot hxr).1, (hroot hyr).1] at hne
    rw [(hroot hxr).2, (hroot hyr).2]
    by_cases h₁ : r = []
    · subst h₁
      exact (disjoint_top_iff h).2 (htop x y r' hr hxr hr' hne.symm hyr)
    · by_cases h₂ : r' = []
      · subst h₂
        intro f hf g hg heq
        exact (disjoint_top_iff h).2 (htop y x r hr' hyr hr hne hxr) g hg f hf heq.symm
      · intro f hf g hg
        exact disjoint_folders h (List.mem_of_mem_take hr) (List.mem_of_mem_take hr') hne h₁ h₂
          (mem_of_mem_fitting hf) (mem_of_mem_fitting hg)

theorem skillsFromZip_ok {zip : ZipLib} {data : List UInt8} {subpath : List Char} {skills : List Skill}
    {skipped : List (List Char × List Char)} (h : skillsFromZip env zip data subpath = .ok (skills, skipped)) :
    ∃ entries, zip.read data = some entries ∧
      skills = (returned env entries (membersOf entries subpath)).map Returned.skill ∧
      skipped = refused env entries (membersOf entries subpath) := by
  unfold skillsFromZip at h
  split_ifs at h
  split at h
  · cases h
  · next entries hread =>
      dsimp only at h
      split_ifs at h
      obtain ⟨rfl, rfl⟩ := Prod.mk.inj (Except.ok.inj h)
      exact ⟨entries, hread, rfl, rfl⟩

/-- Each archived file lands in at most one skill, below its folder and within the limits,
exactly when the archive itself is no skill or takes no file of another. -/
theorem skills_partitioned_iff (env : Env) (zip : ZipLib) (data : List UInt8) (subpath : List Char)
    (skills : List Skill) (skipped : List (List Char × List Char))
    (h : skillsFromZip env zip data subpath = .ok (skills, skipped)) :
    ∃ entries, zip.read data = some entries ∧
      skills = (returned env entries (membersOf entries subpath)).map Returned.skill ∧
      ((∃ pre, Partitioned entries pre (returned env entries (membersOf entries subpath))) ↔
        TopApart env entries (membersOf entries subpath)) := by
  obtain ⟨entries, hread, hskills, -⟩ := skillsFromZip_ok h
  obtain ⟨pre, -, hms⟩ := members_membersOf entries subpath
  refine ⟨entries, hread, hskills, ?_, fun htop => ⟨pre, (partitioned_iff hms).2 htop⟩⟩
  rintro ⟨pre', hpart⟩
  exact (partitioned_iff hms).1 ⟨hpart.roots, hpart.disjoint, fun x hx => returned_sound hms hx⟩

end Files

/-! ## Two archives -/

/-- A small text file. -/
def entryOf (name text : String) : Entry where
  name := some name.toList
  size := byteLen text.toList
  mode := none
  data := some (Utf8.encode text.toList)

def mdText : String := "---\nname: a\ndescription: d\n---\nb"

/-- A library that reads the archive `data`. -/
def oneArchive (data : List UInt8) (entries : List Entry) : ZipLib where
  read bytes := if bytes = data then some entries else none
  write _ := []

def twoFolders : List Entry := [entryOf "w/x/SKILL.md" mdText, entryOf "w/y/SKILL.md" mdText]

/-- The archive of `twoFolders`. -/
def twoFoldersZip : List UInt8 :=
  [80, 75, 3, 4, 20, 0, 0, 0, 0, 0, 0, 0, 33, 0, 72, 167, 108, 44, 32, 0, 0, 0, 32, 0, 0, 0, 12, 0,
    0, 0, 119, 47, 120, 47, 83, 75, 73, 76, 76, 46, 109, 100, 45, 45, 45, 10, 110, 97, 109, 101,
    58, 32, 97, 10, 100, 101, 115, 99, 114, 105, 112, 116, 105, 111, 110, 58, 32, 100, 10, 45, 45,
    45, 10, 98, 80, 75, 3, 4, 20, 0, 0, 0, 0, 0, 0, 0, 33, 0, 72, 167, 108, 44, 32, 0, 0, 0, 32, 0,
    0, 0, 12, 0, 0, 0, 119, 47, 121, 47, 83, 75, 73, 76, 76, 46, 109, 100, 45, 45, 45, 10, 110, 97,
    109, 101, 58, 32, 97, 10, 100, 101, 115, 99, 114, 105, 112, 116, 105, 111, 110, 58, 32, 100,
    10, 45, 45, 45, 10, 98, 80, 75, 1, 2, 20, 0, 20, 0, 0, 0, 0, 0, 0, 0, 33, 0, 72, 167, 108, 44,
    32, 0, 0, 0, 32, 0, 0, 0, 12, 0, 0, 0, 0, 0, 0, 0, 0, 0, 0, 0, 0, 0, 0, 0, 0, 0, 119, 47, 120,
    47, 83, 75, 73, 76, 76, 46, 109, 100, 80, 75, 1, 2, 20, 0, 20, 0, 0, 0, 0, 0, 0, 0, 33, 0, 72,
    167, 108, 44, 32, 0, 0, 0, 32, 0, 0, 0, 12, 0, 0, 0, 0, 0, 0, 0, 0, 0, 0, 0, 0, 0, 74, 0, 0, 0,
    119, 47, 121, 47, 83, 75, 73, 76, 76, 46, 109, 100, 80, 75, 5, 6, 0, 0, 0, 0, 2, 0, 2, 0, 116,
    0, 0, 0, 148, 0, 0, 0, 0, 0]

def mdSkill (files : List (String × String)) : Skill :=
  ⟨['a'], ['d'], ['b'], [], files.map fun f => (f.1.toList, f.2.toList)⟩

theorem skills_partitioned_folders : ∃ entries, (oneArchive twoFoldersZip twoFolders).read twoFoldersZip = some entries ∧
    [mdSkill [("SKILL.md", mdText)], mdSkill [("SKILL.md", mdText)]] =
      (returned asciiEnv entries (membersOf entries [])).map Returned.skill ∧
    ((∃ pre, Partitioned entries pre (returned asciiEnv entries (membersOf entries []))) ↔
      TopApart asciiEnv entries (membersOf entries [])) :=
  skills_partitioned_iff asciiEnv (oneArchive twoFoldersZip twoFolders) twoFoldersZip [] _ [] (by decide +kernel)

def nestedTop : List Entry := [entryOf "SKILL.md" mdText, entryOf "sub/SKILL.md" mdText]

/-- The archive of `nestedTop`. -/
def nestedTopZip : List UInt8 :=
  [80, 75, 3, 4, 20, 0, 0, 0, 0, 0, 0, 0, 33, 0, 72, 167, 108, 44, 32, 0, 0, 0, 32, 0, 0, 0, 8, 0,
    0, 0, 83, 75, 73, 76, 76, 46, 109, 100, 45, 45, 45, 10, 110, 97, 109, 101, 58, 32, 97, 10, 100,
    101, 115, 99, 114, 105, 112, 116, 105, 111, 110, 58, 32, 100, 10, 45, 45, 45, 10, 98, 80, 75,
    3, 4, 20, 0, 0, 0, 0, 0, 0, 0, 33, 0, 72, 167, 108, 44, 32, 0, 0, 0, 32, 0, 0, 0, 12, 0, 0, 0,
    115, 117, 98, 47, 83, 75, 73, 76, 76, 46, 109, 100, 45, 45, 45, 10, 110, 97, 109, 101, 58, 32,
    97, 10, 100, 101, 115, 99, 114, 105, 112, 116, 105, 111, 110, 58, 32, 100, 10, 45, 45, 45, 10,
    98, 80, 75, 1, 2, 20, 0, 20, 0, 0, 0, 0, 0, 0, 0, 33, 0, 72, 167, 108, 44, 32, 0, 0, 0, 32, 0,
    0, 0, 8, 0, 0, 0, 0, 0, 0, 0, 0, 0, 0, 0, 0, 0, 0, 0, 0, 0, 83, 75, 73, 76, 76, 46, 109, 100,
    80, 75, 1, 2, 20, 0, 20, 0, 0, 0, 0, 0, 0, 0, 33, 0, 72, 167, 108, 44, 32, 0, 0, 0, 32, 0, 0,
    0, 12, 0, 0, 0, 0, 0, 0, 0, 0, 0, 0, 0, 0, 0, 70, 0, 0, 0, 115, 117, 98, 47, 83, 75, 73, 76,
    76, 46, 109, 100, 80, 75, 5, 6, 0, 0, 0, 0, 2, 0, 2, 0, 112, 0, 0, 0, 144, 0, 0, 0, 0, 0]

/-- The skill below the archive's own is a skill again, and its file is in both. -/
theorem nested_file_twice :
    skillsFromZip asciiEnv (oneArchive nestedTopZip nestedTop) nestedTopZip [] =
        .ok ([mdSkill [("SKILL.md", mdText), ("sub/SKILL.md", mdText)], mdSkill [("SKILL.md", mdText)]], []) ∧
      ¬ ∀ (env : Env) (zip : ZipLib) (data : List UInt8) (subpath : List Char) (skills : List Skill)
          (skipped : List (List Char × List Char)),
        skillsFromZip env zip data subpath = .ok (skills, skipped) →
        ∃ entries, zip.read data = some entries ∧
          ∃ pre, Partitioned entries pre (returned env entries (membersOf entries subpath)) := by
  have hread : skillsFromZip asciiEnv (oneArchive nestedTopZip nestedTop) nestedTopZip [] =
      .ok ([mdSkill [("SKILL.md", mdText), ("sub/SKILL.md", mdText)], mdSkill [("SKILL.md", mdText)]], []) := by
    decide +kernel
  refine ⟨hread, fun h => ?_⟩
  obtain ⟨entries, hentries, pre, hpart⟩ := h _ _ _ _ _ _ hread
  have hentries' : (oneArchive nestedTopZip nestedTop).read nestedTopZip = some nestedTop := by decide +kernel
  obtain rfl := Option.some.inj (hentries'.symm.trans hentries)
  have hreturned : returned asciiEnv nestedTop (membersOf nestedTop []) =
      [⟨[], [⟨0, "SKILL.md".toList, mdText.toList⟩, ⟨1, "sub/SKILL.md".toList, mdText.toList⟩],
          mdSkill [("SKILL.md", mdText), ("sub/SKILL.md", mdText)]⟩,
        ⟨"sub".toList, [⟨1, "SKILL.md".toList, mdText.toList⟩], mdSkill [("SKILL.md", mdText)]⟩] := by
    decide +kernel
  rw [hreturned] at hpart
  exact hpart.disjoint _ (List.mem_cons_self) _ (List.mem_cons_of_mem _ List.mem_cons_self) (by decide +kernel)
    ⟨1, "sub/SKILL.md".toList, mdText.toList⟩ (List.mem_cons_of_mem _ List.mem_cons_self) _ List.mem_cons_self rfl

end Portal.Skills
