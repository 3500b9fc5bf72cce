import DgxPlatform.Lib.Table
import DgxPlatform.Portal.SkillArchive
import Mathlib.Algebra.Order.BigOperators.Group.List

/-! # Importing a skill again

`import_skills` stores the skills of an archive, `build_zip` writes a stored skill as an
archive of its own, everything in a folder with the skill's name. Reading that archive
drops the folder, looks for the folders with a `SKILL.md` again, and applies the limits again.

* `imported_row`: the row of an imported id holds one of the skills of the archive.
-/

namespace Portal.Skills

variable (env : Env)

/-! ## The rows -/

/-- A row of `skills`, with the rows of `skill_files` that have its id. -/
structure Row where
  id : Nat
  username : List Char
  name : List Char
  description : List Char
  instructions : List Char
  version : List Char
  files : List (List Char × List Char)

/-- The skill that the row holds. -/
def Row.skill (r : Row) : Skill := ⟨r.name, r.description, r.instructions, r.version, r.files⟩

abbrev Rows := Table Row Row.id

/-- The id that the database gives to a new row. -/
structure RowIds where
  next : Rows → Nat
  fresh : ∀ t : Rows, t.find? (next t) = none

def MAX_SKILLS : Nat := 50

/-- The row that an import finds under the skill's name. -/
def existing (t : Rows) (username name : List Char) : Option Row :=
  t.rows.find? fun r => r.username = username ∧ r.name = name

/-- The row with the fields and the files of the skill. -/
def Row.refill (s : Skill) (r : Row) : Row :=
  { r with description := s.description, instructions := s.instructions, version := s.version, files := s.files }

theorem Row.refill_id (s : Skill) (r : Row) : (r.refill s).id = r.id := rfl

/-- `save_skill`: the id of the row, or why the skill is not stored. -/
def saveSkill (ids : RowIds) (username : List Char) (replace : Bool) (t : Rows) (s : Skill) :
    Except (List Char) (Nat × Rows) :=
  match existing t username s.name with
  | some r =>
      if replace then .ok (r.id, t.update r.id (Row.refill s) (Row.refill_id s))
      else .error "existe déjà".toList
  | none =>
      let r := ⟨ids.next t, username, s.name, s.description, s.instructions, s.version, s.files⟩
      .ok (ids.next t, t.insert r (ids.fresh t))

/-- An import under way. -/
structure Import where
  rows : Rows
  count : Nat
  imported : List (Nat × List Char)
  skipped : List (List Char × List Char)

/-- One skill of the import. -/
def importOne (ids : RowIds) (username : List Char) (replace : Bool) (i : Import) (s : Skill) : Import :=
  let known := (existing i.rows username s.name).isSome
  if !known ∧ i.count ≥ MAX_SKILLS then
    { i with skipped := i.skipped ++ [(s.name, "maximum 50 compétences atteint".toList)] }
  else
    match saveSkill ids username replace i.rows s with
    | .error why => { i with skipped := i.skipped ++ [(s.name, why)] }
    | .ok (id, rows) =>
        { rows
          count := if known then i.count else i.count + 1
          imported := i.imported ++ [(id, s.name)]
          skipped := i.skipped }

/-- `import_skills`: the rows behind the import, and what was imported and skipped. -/
def importSkills (ids : RowIds) (username : List Char) (replace : Bool) (t : Rows) (skills : List Skill)
    (skipped : List (List Char × List Char)) : Import :=
  skills.foldl (importOne ids username replace) ⟨t, t.rows.countP (·.username = username), [], skipped⟩

/-- What the route answers: what was imported and skipped, or the error and what was skipped. -/
def Import.answer (i : Import) :
    Except (List Char × List (List Char × List Char)) (List (Nat × List Char) × List (List Char × List Char)) :=
  if i.imported = [] then .error ("Aucune compétence importée.".toList, i.skipped)
  else .ok (i.imported, i.skipped)

/-! ## The download -/

/-- The files by their paths. -/
def sortFiles (files : List (List Char × List Char)) : List (List Char × List Char) :=
  files.insertionSort fun a b => a.1 ≤ b.1

/-- `skill_files_or_manual`. -/
def skillFilesOrManual (r : Row) : List (List Char × List Char) :=
  if sortFiles r.files = [] then
    [("SKILL.md".toList, manualSkillMd r.name r.description r.instructions)]
  else sortFiles r.files

/-- The entries that `build_zip` writes. -/
def zipEntries (name : List Char) (files : List (List Char × List Char)) : List (List Char × List UInt8) :=
  (sortFiles files).map fun f => (name ++ '/' :: f.1, Utf8.encode f.2)

/-- `build_zip`. -/
def buildZip (zip : ZipLib) (name : List Char) (files : List (List Char × List Char)) : List UInt8 :=
  zip.write (zipEntries name files)

/-- `api_skill_download`: the archive of a skill of the viewer. -/
def download (zip : ZipLib) (t : Rows) (username : List Char) (id : Nat) : Option (List UInt8) :=
  (t.find? id).bind fun r =>
    if r.username = username then some (buildZip zip r.name (skillFilesOrManual r)) else none

/-! ## What an import stores -/

section Stored

variable {ids : RowIds} {username : List Char} {replace : Bool} {t t' : Rows} {s : Skill} {id : Nat}

theorem existing_eq_some {name : List Char} {r : Row} (h : existing t username name = some r) :
    t.find? r.id = some r ∧ r.username = username ∧ r.name = name := by
  have hmem := List.mem_of_find?_eq_some h
  have howner := List.find?_some h
  rw [decide_eq_true_eq] at howner
  exact ⟨Table.find?_of_mem hmem, howner⟩

/-- The row of the id then holds the skill, under the name it had; the other rows stay. -/
theorem saveSkill_ok (h : saveSkill ids username replace t s = .ok (id, t')) :
    (∃ r, t'.find? id = some r ∧ r.username = username ∧ r.skill = s) ∧
      (∀ q, t.find? id = some q → q.name = s.name) ∧ ∀ k, k ≠ id → t'.find? k = t.find? k := by
  unfold saveSkill at h
  split at h
  · next r hr =>
      obtain ⟨hfind, howner, hname⟩ := existing_eq_some hr
      split_ifs at h
      obtain ⟨rfl, rfl⟩ := Prod.mk.inj (Except.ok.inj h)
      refine ⟨⟨r.refill s, ?_, howner, ?_⟩, fun q hq => ?_, fun k hk => ?_⟩
      · rw [Table.find?_update, if_pos rfl, hfind, Option.map_some]
      · show (⟨r.name, s.description, s.instructions, s.version, s.files⟩ : Skill) = s
        rw [hname]
      · rw [hfind] at hq
        rw [← Option.some.inj hq, hname]
      · rw [Table.find?_update, if_neg hk]
  · obtain ⟨rfl, rfl⟩ := Prod.mk.inj (Except.ok.inj h)
    refine ⟨⟨⟨ids.next t, username, s.name, s.description, s.instructions, s.version, s.files⟩, ?_, rfl, rfl⟩,
      fun q hq => ?_, fun k hk => ?_⟩
    · rw [Table.find?_insert, if_pos rfl]
    · rw [ids.fresh t] at hq
      cases hq
    · rw [Table.find?_insert, if_neg hk]

/-- Every imported id has a row of the user, under the name that was imported, that holds
one of the skills. -/
def Import.Sound (username : List Char) (seen : List Skill) (i : Import) : Prop :=
  ∀ x ∈ i.imported, ∃ r, i.rows.find? x.1 = some r ∧ r.username = username ∧ r.name = x.2 ∧ r.skill ∈ seen

theorem Import.Sound.importOne {seen : List Skill} {i : Import} (h : i.Sound username seen) (s : Skill) :
    (importOne ids username replace i s).Sound username (seen ++ [s]) := by
  have hmore : ∀ x ∈ i.imported, ∃ r, i.rows.find? x.1 = some r ∧ r.username = username ∧ r.name = x.2 ∧
      r.skill ∈ seen ++ [s] := by
    intro x hx
    obtain ⟨r, hr, howner, hname, hmem⟩ := h x hx
    exact ⟨r, hr, howner, hname, List.mem_append_left _ hmem⟩
  unfold Skills.importOne
  dsimp only
  split_ifs
  · exact hmore
  all_goals
    split
    · exact hmore
    · next id rows hsave =>
        obtain ⟨⟨r, hr, howner, hskill⟩, hkeep, hother⟩ := saveSkill_ok hsave
        have hname : r.name = s.name := congrArg Skill.name hskill
        have hmem : r.skill ∈ seen ++ [s] := by
          rw [hskill]
          exact List.mem_append_right _ (List.mem_singleton_self s)
        intro x hx
        obtain hx | hx := List.mem_append.1 hx
        · by_cases hid : x.1 = id
          · -- the row is written again, under the same name
            obtain ⟨q, hq, -, hqname, -⟩ := h x hx
            rw [hid] at hq
            exact ⟨r, by rw [hid, hr], howner, by rw [hname, ← hkeep q hq, hqname], hmem⟩
          · obtain ⟨q, hq, hrest⟩ := hmore x hx
            exact ⟨q, (hother x.1 hid).trans hq, hrest⟩
        · rw [List.mem_singleton] at hx
          subst hx
          exact ⟨r, hr, howner, hname, hmem⟩

theorem imported_row {skills : List Skill} {skipped : List (List Char × List Char)} {x : Nat × List Char}
    (h : x ∈ (importSkills ids username replace t skills skipped).imported) :
    ∃ r, (importSkills ids username replace t skills skipped).rows.find? x.1 = some r ∧
      r.username = username ∧ r.name = x.2 ∧ r.skill ∈ skills := by
  have hrun : ∀ (rest : List Skill) (seen : List Skill) (i : Import), i.Sound username seen →
      (rest.foldl (importOne ids username replace) i).Sound username (seen ++ rest) := by
    intro rest
    induction rest with
    | nil =>
      intro seen i hi
      rwa [List.append_nil]
    | cons s rest ih =>
      intro seen i hi
      have hnext := ih (seen ++ [s]) (importOne ids username replace i s) (hi.importOne s)
      rwa [List.append_assoc] at hnext
  have hstart : Import.Sound username [] ⟨t, t.rows.countP (·.username = username), [], skipped⟩ := by
    intro x hx
    cases hx
  exact hrun skills [] _ hstart x h

end Stored

/-! ## One skill -/

section One

variable {env} {files : List (List Char × List Char)} {folder md : List Char} {s : Skill}

/-- The text of the first `SKILL.md`. -/
def mdOf (env : Env) (files : List (List Char × List Char)) : Option (List Char) :=
  (files.find? fun f => isSkillMd env f.1).map Prod.snd

/-- What the text of a `SKILL.md` tells is what the skill holds. -/
structure Tells (env : Env) (md folder : List Char) (s : Skill) : Prop where
  name : nameOf env (parseFrontMatter env md).1 folder = s.name
  description : descriptionOf (parseFrontMatter env md).1 = s.description
  instructions : instructionsOf (parseFrontMatter env md).2 = s.instructions
  version : versionOf (parseFrontMatter env md).1 = s.version

theorem instructionsOf_eq_nil {body : List Char} : instructionsOf body = [] ↔ Accounts.pyStrip body = [] := by
  rw [instructionsOf, List.take_eq_nil_iff]
  exact or_iff_right (by decide)

theorem skillFromFiles_ok_iff : skillFromFiles env files folder = .ok s ↔
    ∃ md, mdOf env files = some md ∧ Tells env md folder s ∧ s.name ≠ [] ∧ s.description ≠ [] ∧
      s.instructions ≠ [] ∧ s.files = files := by
  unfold skillFromFiles mdOf
  cases files.find? fun f => isSkillMd env f.1 with
  | none => simp
  | some f =>
    obtain ⟨path, md⟩ := f
    dsimp only
    constructor
    · intro h
      split_ifs at h with hname hdesc hins
      obtain rfl := Except.ok.inj h
      exact ⟨md, rfl, ⟨rfl, rfl, rfl, rfl⟩, hname, hdesc, mt instructionsOf_eq_nil.1 hins, rfl⟩
    · rintro ⟨md', hmd, htells, hname, hdesc, hins, hfiles⟩
      obtain rfl : md = md' := Option.some.inj hmd
      rw [← htells.name] at hname
      rw [← htells.description] at hdesc
      rw [← htells.instructions] at hins
      rw [if_neg hname, if_neg hdesc, if_neg (mt instructionsOf_eq_nil.2 hins)]
      congr 1
      cases s
      congr 1
      · exact htells.name
      · exact htells.description
      · exact htells.instructions
      · exact htells.version
      · exact hfiles.symm

end One

/-! ## The files of a stored skill -/

section Files

variable {env} {entries : List Entry} {ms : List Member} {pre p name text : List Char}
  {files : List (List Char × List Char)}

/-- What is known of the name and the files of a skill that was read from an archive. -/
structure Exportable (env : Env) (name : List Char) (files : List (List Char × List Char)) : Prop where
  normal : Normalised name
  nameNe : name ≠ []
  md : ∃ f ∈ files, isSkillMd env f.1 = true
  nodup : (files.map Prod.fst).Nodup
  clean : ∀ f ∈ files, f.1 = ['.'] ∨ Clean f.1
  texts : ∀ f ∈ files, decode (Utf8.encode f.2) = some f.2
  count : files.length ≤ MAX_FILES_PER_SKILL
  bytes : (files.map fun f => byteLen f.2).sum ≤ MAX_SKILL_BYTES

theorem Exportable.perm {files' : List (List Char × List Char)} (h : Exportable env name files)
    (hperm : files'.Perm files) : Exportable env name files' where
  normal := h.normal
  nameNe := h.nameNe
  md := by
    obtain ⟨f, hf, hmd⟩ := h.md
    exact ⟨f, hperm.mem_iff.2 hf, hmd⟩
  nodup := ((hperm.map Prod.fst).nodup_iff).2 h.nodup
  clean f hf := h.clean f (hperm.mem_iff.1 hf)
  texts f hf := h.texts f (hperm.mem_iff.1 hf)
  count := hperm.length_eq ▸ h.count
  bytes := (hperm.map fun f => byteLen f.2).sum_eq ▸ h.bytes

theorem decode_encode {data : List UInt8} (h : decode data = some text) :
    decode (Utf8.encode text) = some text := by
  have hdata : Utf8.encode text = data := by
    unfold decode fromUtf8 at h
    dsimp only at h
    split_ifs at h with hnul hsame
    rw [← Option.some.inj h]
    exact hsame
  rw [hdata]
  exact h

theorem decode_encode_of_readText {m : Member} (h : readText entries m = some text) :
    decode (Utf8.encode text) = some text := by
  unfold readText at h
  split_ifs at h
  obtain ⟨e, -, hdata⟩ := Option.bind_eq_some_iff.1 h
  obtain ⟨data, -, hdecode⟩ := Option.bind_eq_some_iff.1 hdata
  exact decode_encode hdecode

theorem Clean.of_append (h : Clean (pre ++ p)) (hpre : Folders pre) : Clean p := by
  refine ⟨fun c hc => h.names c ?_, fun hd => h.nul (List.mem_append_right pre hd),
    fun hd => h.backslash (List.mem_append_right pre hd)⟩
  obtain rfl | ⟨a, rfl⟩ := hpre
  · exact hc
  · rw [List.append_assoc, List.singleton_append, List.splitOn_append_cons_self]
    exact List.mem_append_right _ hc

theorem clean_or_dot {n : List Char} (h : safePath n = some (pre ++ p)) (hpre : Folders pre) :
    p = ['.'] ∨ Clean p := by
  obtain hdot | hclean := clean_of_safePath h
  · obtain rfl | ⟨a, rfl⟩ := hpre
    · exact .inl hdot
    · have hslash : '/' ∈ a ++ ['/'] ++ p := List.mem_append_left p (List.mem_append_right a List.mem_cons_self)
      rw [hdot] at hslash
      exact absurd hslash (by decide)
  · exact .inr (hclean.of_append hpre)

theorem exportable_of_returned {x : Returned} (hpre : Folders pre) (hms : Members entries pre ms)
    (hx : x ∈ returned env entries ms) : Exportable env x.skill.name x.skill.files := by
  have hsound := returned_sound hms hx
  obtain ⟨r, -, hr⟩ := mem_returned.1 hx
  obtain ⟨-, hpicked, hfiles, hskill⟩ := readRoot_ok hms.nodup hr
  rw [← hfiles] at hskill
  obtain ⟨md, hmd, htells, hname, -⟩ := skillFromFiles_ok_iff.1 hskill
  have hmem : ∀ f ∈ x.skill.files, ∃ g ∈ x.picked, g.file = f := by
    intro f hf
    rw [hfiles] at hf
    exact List.mem_map.1 hf
  refine ⟨?_, hname, ?_, hsound.nodup, fun f hf => ?_, fun f hf => ?_, hsound.count, hsound.bytes⟩
  · rw [← htells.name]
    exact normalised_normalizeName env _
  · obtain ⟨f, hf, -⟩ := Option.map_eq_some_iff.1 hmd
    have hskillMd : isSkillMd env f.1 = true :=
      List.find?_some (p := fun f : List Char × List Char => isSkillMd env f.1) hf
    exact ⟨f, List.mem_of_find?_eq_some hf, hskillMd⟩
  · obtain ⟨g, hg, rfl⟩ := hmem f hf
    obtain ⟨e, q, -, hsafe, hunder, hpath⟩ := hsound.under g hg
    have hsplit := eq_of_under hunder
    have hroot : Folders (if x.root = [] then [] else x.root ++ ['/']) := by
      split_ifs
      · exact .inl rfl
      · exact .inr ⟨x.root, rfl⟩
    rw [hsplit, ← List.append_assoc, ← hpath] at hsafe
    exact clean_or_dot hsafe (hpre.append hroot)
  · obtain ⟨g, hg, rfl⟩ := hmem f hf
    rw [hpicked] at hg
    obtain ⟨m, -, hpick⟩ := mem_readable.1 (mem_of_mem_fitting hg)
    exact decode_encode_of_readText (pick_eq_some.1 hpick).2.1

/-! ## The written archive -/

theorem Normalised.not_mem {c : Char} (h : Normalised name) (hc : isSlug c = false) : c ∉ name := by
  intro hmem
  rw [h.slug c hmem] at hc
  cases hc

theorem Normalised.isName (h : Normalised name) (hne : name ≠ []) : IsName name ∧ name ∉ REFUSED := by
  refine ⟨⟨hne, ?_, ?_⟩, fun href => ?_⟩
  · rintro rfl
    exact h.not_mem (c := '.') (by decide) List.mem_cons_self
  · rintro rfl
    exact h.not_mem (c := '.') (by decide) List.mem_cons_self
  · simp only [REFUSED, List.mem_cons, List.not_mem_nil, or_false] at href
    obtain rfl | rfl | rfl := href
    · exact h.not_mem (c := '.') (by decide) (by decide)
    · exact h.not_mem (c := '_') (by decide) (by decide)
    · exact h.not_mem (c := '_') (by decide) (by decide)

theorem clean_below (hname : Normalised name) (hne : name ≠ []) (hp : Clean p) : Clean (name ++ '/' :: p) := by
  refine ⟨fun c hc => ?_, fun hd => ?_, fun hd => ?_⟩
  · rw [List.splitOn_append_cons_self_of_not_mem (hname.not_mem (by decide))] at hc
    obtain rfl | hc := List.mem_cons.1 hc
    · exact hname.isName hne
    · exact hp.names c hc
  · obtain hd | hd := List.mem_append.1 hd
    · exact hname.not_mem (by decide) hd
    · obtain hd | hd := List.mem_cons.1 hd
      · cases hd
      · exact hp.nul hd
  · obtain hd | hd := List.mem_append.1 hd
    · exact hname.not_mem (by decide) hd
    · obtain hd | hd := List.mem_cons.1 hd
      · exact absurd hd (by decide)
      · exact hp.backslash hd

/-- A path of names below the folder of a skill is accepted as it is. -/
theorem safePath_below (hname : Normalised name) (hne : name ≠ []) (hp : Clean p) :
    safePath (name ++ '/' :: p) = some (name ++ '/' :: p) := by
  have hclean := clean_below hname hne hp
  obtain ⟨c, t, rfl⟩ := List.exists_cons_of_ne_nil hne
  refine hclean.safePath_eq ?_ ?_
  · cases t with
    | nil => rfl
    | cons d t =>
      have hd : d ≠ ':' := by
        rintro rfl
        exact hname.not_mem (c := ':') (by decide) (List.mem_cons_of_mem c List.mem_cons_self)
      simp [hasDrive, hd]
  · intro hdots
    have hc : '.' = c := (List.cons_prefix_cons.1 hdots).1
    exact hname.not_mem (c := '.') (by decide) (hc ▸ List.mem_cons_self)

/-- What reading finds of an entry that was written: a file with the default mode. -/
def written (e : List Char × List UInt8) : Entry := ⟨some e.1, e.2.length, some 0o100644, some e.2⟩

/-- The library reads back the entries that it writes. -/
def Faithful (zip : ZipLib) (es : List (List Char × List UInt8)) : Prop :=
  zip.read (zip.write es) = some (es.map written)

/-- The entries of the files of a skill. -/
def entriesOf (name : List Char) (files : List (List Char × List Char)) : List Entry :=
  files.map fun f => written (name ++ '/' :: f.1, Utf8.encode f.2)

/-- The files as members. -/
def filed (files : List (List Char × List Char)) : List Member :=
  files.zipIdx.map fun x => ⟨x.1.1, x.2, byteLen x.1.2⟩

/-- A member inside a folder. -/
def Member.inFolder (folder : List Char) (m : Member) : Member := { m with path := folder ++ '/' :: m.path }

theorem foldl_addEntry {es : List (Entry × Nat)} (hlink : ∀ e ∈ es, isSymlink e.1.mode = false)
    (hsafe : ∀ e ∈ es, safePath (e.1.name.getD []) = some (e.1.name.getD []))
    (hnodup : (ms.map Member.path ++ es.map fun e => e.1.name.getD []).Nodup) :
    es.foldl addEntry ms = ms ++ es.map fun e => ⟨e.1.name.getD [], e.2, e.1.size⟩ := by
  induction es generalizing ms with
  | nil => rw [List.foldl_nil, List.map_nil, List.append_nil]
  | cons e es ih =>
    obtain ⟨hlinkE, hlink⟩ := List.forall_mem_cons.1 hlink
    obtain ⟨hsafeE, hsafe⟩ := List.forall_mem_cons.1 hsafe
    have hnew : upsert ms ⟨e.1.name.getD [], e.2, e.1.size⟩ = ms ++ [⟨e.1.name.getD [], e.2, e.1.size⟩] := by
      refine if_neg fun hany => ?_
      obtain ⟨m, hm, heq⟩ := List.any_eq_true.1 hany
      rw [List.map_cons, List.nodup_append] at hnodup
      exact hnodup.2.2 _ (List.mem_map_of_mem hm) _ List.mem_cons_self (of_decide_eq_true heq)
    have hadd : addEntry ms e = ms ++ [⟨e.1.name.getD [], e.2, e.1.size⟩] := by
      unfold addEntry
      rw [hlinkE, if_neg Bool.false_ne_true, hsafeE]
      exact hnew
    rw [List.foldl_cons, hadd, ih hlink hsafe, List.append_assoc]
    · rfl
    · rwa [List.map_append, List.append_assoc]

theorem unwrap_below (hne : ms ≠ []) (hslash : '/' ∉ name) :
    unwrap (ms.map (Member.inFolder name)) = ms := by
  have htop : ∀ path : List Char, (name ++ '/' :: path).takeWhile (· ≠ '/') = name := by
    intro path
    rw [List.takeWhile_append_of_pos, List.takeWhile_cons_of_neg (by simp), List.append_nil]
    intro c hc
    exact decide_eq_true fun h => hslash (h ▸ hc)
  have hwrap : wrapper (ms.map (Member.inFolder name)) = some name := by
    obtain ⟨m, ms, rfl⟩ := List.exists_cons_of_ne_nil hne
    rw [List.map_cons, wrapper, Member.inFolder, htop, if_pos]
    refine List.all_eq_true.2 fun x hx => ?_
    have hx : x ∈ (m :: ms).map (Member.inFolder name) := hx
    obtain ⟨y, -, rfl⟩ := List.mem_map.1 hx
    exact decide_eq_true ⟨List.mem_append_right name List.mem_cons_self, htop y.path⟩
  have hlen : ∀ path : List Char, (name ++ '/' :: path).drop (name.length + 1) = path := by
    intro path
    rw [← List.drop_drop, List.drop_left]
    rfl
  unfold unwrap
  rw [hwrap]
  dsimp only
  rw [List.map_map]
  refine (List.map_congr_left fun m _ => ?_).trans (List.map_id ms)
  rw [Function.comp_apply, Member.cut, Member.inFolder]
  dsimp only
  rw [hlen]
  rfl

theorem collect_written (h : Exportable env name files) (hclean : ∀ f ∈ files, Clean f.1) :
    collect (entriesOf name files) = (filed files).map (Member.inFolder name) := by
  have hzip : (entriesOf name files).zipIdx =
      files.zipIdx.map fun x => (written (name ++ '/' :: x.1.1, Utf8.encode x.1.2), x.2) := by
    rw [entriesOf, List.zipIdx_map]
    rfl
  have hpaths : (files.zipIdx.map ((fun e : Entry × Nat => e.1.name.getD []) ∘ fun x =>
      (written (name ++ '/' :: x.1.1, Utf8.encode x.1.2), x.2))) =
      (files.map Prod.fst).map fun p => name ++ '/' :: p := by
    rw [List.map_map]
    conv_rhs => rw [← List.zipIdx_map_fst 0 files, List.map_map]
    rfl
  rw [collect, hzip, foldl_addEntry]
  · rw [List.nil_append, filed, List.map_map, List.map_map]
    rfl
  · intro e he
    obtain ⟨x, -, rfl⟩ := List.mem_map.1 he
    rfl
  · intro e he
    obtain ⟨x, hx, rfl⟩ := List.mem_map.1 he
    exact safePath_below h.normal h.nameNe (hclean x.1 (List.fst_mem_of_mem_zipIdx hx))
  · rw [List.map_nil, List.nil_append, List.map_map, hpaths]
    refine h.nodup.map fun p q hpq => ?_
    exact (List.cons.inj (List.append_cancel_left hpq)).2

theorem membersOf_written (h : Exportable env name files) (hdot : ∀ f ∈ files, f.1 ≠ ['.']) :
    membersOf (entriesOf name files) [] = filed files := by
  have hclean : ∀ f ∈ files, Clean f.1 := fun f hf => (h.clean f hf).resolve_left (hdot f hf)
  have hne : filed files ≠ [] := by
    obtain ⟨f, hf, -⟩ := h.md
    intro hnil
    rw [filed, List.map_eq_nil_iff, List.zipIdx_eq_nil_iff] at hnil
    rw [hnil] at hf
    cases hf
  rw [membersOf, collect_written h hclean, unwrap_below hne (h.normal.not_mem (by decide))]
  rfl

/-! ## Reading the written archive -/

/-- No file but the skill's own `SKILL.md` is called so, and every path has a name. -/
structure Flat (env : Env) (files : List (List Char × List Char)) : Prop where
  named : ∀ f ∈ files, f.1 ≠ ['.']
  top : ∀ f ∈ files, isSkillMd env (basename f.1) = true → '/' ∉ f.1

theorem dirname_of_not_mem (h : '/' ∉ p) : dirname p = [] ∧ basename p = p := by
  rw [dirname, basename, Text.rsplitOnce_eq_none.2 h]
  exact ⟨rfl, rfl⟩

theorem not_mem_of_isSkillMd (h : isSkillMd env p = true) : '/' ∉ p := by
  intro hmem
  have hlower := env.lowercase.keeps p '/' hmem (by decide) (by decide)
  rw [of_decide_eq_true h] at hlower
  exact absurd hlower (by decide)

theorem mem_skillDirs {d : List Char} : d ∈ skillDirs env ms ↔
    ∃ m ∈ ms, isSkillMd env (basename m.path) = true ∧ dirname m.path = d := by
  rw [skillDirs, (List.perm_insertionSort _ _).mem_iff, List.mem_dedup, List.mem_map]
  simp only [List.mem_filter, and_assoc]

theorem filed_paths (files : List (List Char × List Char)) : (filed files).map Member.path = files.map Prod.fst := by
  rw [filed, List.map_map]
  conv_rhs => rw [← List.zipIdx_map_fst 0 files, List.map_map]
  rfl

theorem mem_filed_path {f : List Char × List Char} (hf : f ∈ files) : ∃ m ∈ filed files, m.path = f.1 := by
  have hpath : f.1 ∈ (filed files).map Member.path := by
    rw [filed_paths]
    exact List.mem_map_of_mem hf
  exact List.mem_map.1 hpath

theorem skillRoots_filed (h : Exportable env name files) (hflat : Flat env files) :
    skillRoots env (filed files) = [[]] := by
  have hdirs : skillDirs env (filed files) = [[]] := by
    refine List.perm_singleton.1 ((List.perm_ext_iff_of_nodup ?_ (List.nodup_singleton _)).2 fun d => ?_)
    · exact ((List.perm_insertionSort _ _).nodup_iff).2 (List.nodup_dedup _)
    · rw [mem_skillDirs, List.mem_singleton]
      constructor
      · rintro ⟨m, hm, hmd, rfl⟩
        have hpath : m.path ∈ files.map Prod.fst := by
          rw [← filed_paths]
          exact List.mem_map_of_mem hm
        obtain ⟨f, hf, hfm⟩ := List.mem_map.1 hpath
        rw [← hfm] at hmd ⊢
        exact (dirname_of_not_mem (hflat.top f hf hmd)).1
      · rintro rfl
        obtain ⟨f, hf, hmd⟩ := h.md
        obtain ⟨m, hm, hpath⟩ := mem_filed_path hf
        obtain ⟨hdir, hbase⟩ := dirname_of_not_mem (not_mem_of_isSkillMd hmd)
        exact ⟨m, hm, by rw [hpath, hbase, hmd], by rw [hpath, hdir]⟩
  rw [skillRoots, hdirs]
  rfl

/-- The files that are small enough to be read. -/
def small (files : List (List Char × List Char)) : List (List Char × List Char) :=
  files.filter fun f => byteLen f.2 ≤ MAX_FILE_BYTES

theorem readText_filed {x : (List Char × List Char) × Nat} (htext : decode (Utf8.encode x.1.2) = some x.1.2)
    (hx : x ∈ files.zipIdx) :
    readText (entriesOf name files) ⟨x.1.1, x.2, byteLen x.1.2⟩ =
      if byteLen x.1.2 ≤ MAX_FILE_BYTES then some x.1.2 else none := by
  have hget : (entriesOf name files)[x.2]? = some (written (name ++ '/' :: x.1.1, Utf8.encode x.1.2)) := by
    rw [entriesOf, List.getElem?_map, List.mem_zipIdx_iff_getElem?.1 hx, Option.map_some]
  unfold readText
  dsimp only
  rw [hget]
  by_cases hsmall : byteLen x.1.2 ≤ MAX_FILE_BYTES
  · have htake : (Utf8.encode x.1.2).take (MAX_FILE_BYTES + 1) = Utf8.encode x.1.2 :=
      List.take_of_length_le (Nat.le_succ_of_le hsmall)
    rw [if_neg (Nat.not_lt.2 hsmall), if_pos hsmall]
    show decode ((Utf8.encode x.1.2).take (MAX_FILE_BYTES + 1)) = some x.1.2
    rw [htake, htext]
  · rw [if_pos (Nat.lt_of_not_le hsmall), if_neg hsmall]

theorem readable_filed (h : Exportable env name files) :
    (readable (entriesOf name files) (filed files) []).map Picked.file = small files := by
  have hpick : readable (entriesOf name files) (filed files) [] =
      files.zipIdx.filterMap fun x => if byteLen x.1.2 ≤ MAX_FILE_BYTES then some ⟨x.2, x.1.1, x.1.2⟩ else none := by
    rw [readable, filed, List.filterMap_map]
    refine List.filterMap_congr fun x hx => ?_
    have htext := h.texts x.1 (List.fst_mem_of_mem_zipIdx hx)
    rw [Function.comp_apply, pick, if_pos (show under [] _ = true from rfl), readText_filed htext hx]
    split_ifs
    · rfl
    · rfl
  have hkeep : small files = files.filterMap fun f => if byteLen f.2 ≤ MAX_FILE_BYTES then some f else none := by
    rw [small, ← List.filterMap_eq_filter]
    refine List.filterMap_congr fun f _ => ?_
    rw [Option.guard]
    split_ifs <;> simp_all
  rw [hpick, hkeep, List.map_filterMap]
  conv_rhs => rw [← List.zipIdx_map_fst 0 files, List.filterMap_map]
  refine List.filterMap_congr fun x _ => ?_
  rw [Function.comp_apply]
  split_ifs
  · rfl
  · rfl

theorem picked_filed (h : Exportable env name files) :
    (takeFiles (entriesOf name files) [] [] 0 (filed files)).map Picked.file = small files := by
  have hnodup : ((filed files).map Member.path).Nodup := by
    rw [filed_paths]
    exact h.nodup
  have hread := readable_filed h
  have hsub : (small files).Sublist files := List.filter_sublist
  have hcount : (readable (entriesOf name files) (filed files) []).length ≤ MAX_FILES_PER_SKILL := by
    rw [← List.length_map Picked.file, hread]
    exact hsub.length_le.trans h.count
  have hbytes : ((readable (entriesOf name files) (filed files) []).map fun f => byteLen f.text).sum ≤
      MAX_SKILL_BYTES := by
    have htexts : ((readable (entriesOf name files) (filed files) []).map fun f => byteLen f.text) =
        (small files).map fun f => byteLen f.2 := by
      rw [← hread, List.map_map]
      rfl
    rw [htexts]
    exact ((hsub.map _).sum_le_sum fun _ _ => Nat.zero_le _).trans h.bytes
  rw [takeFiles_eq hnodup, fitting, Quota.fit_eq_self (by omega) (by omega), hread]

/-- What the archive of a skill is read as: one skill or one refusal. -/
theorem skillsFromZip_written {zip : ZipLib} {data : List UInt8} (h : Exportable env name files)
    (hflat : Flat env files) (hread : zip.read data = some (entriesOf name files))
    (hlen : data.length ≤ MAX_ARCHIVE_BYTES) :
    skillsFromZip env zip data [] =
      .ok (match skillFromFiles env (small files) "skill".toList with
        | .ok s => ([s], [])
        | .error e => ([], [("skill".toList, e)])) := by
  have hmembers := membersOf_written h hflat.named
  have hroots := skillRoots_filed h hflat
  have hcount : (entriesOf name files).length ≤ MAX_ENTRIES := by
    rw [entriesOf, List.length_map]
    exact h.count.trans (by decide)
  have hnames : (entriesOf name files).any (·.name.isNone) = false := by
    rw [entriesOf, List.any_map, List.any_eq_false]
    intro f _
    exact Bool.false_ne_true
  have hsizes : ((entriesOf name files).map Entry.size).sum % 2 ^ 64 ≤ MAX_UNCOMPRESSED := by
    have hsum : ((entriesOf name files).map Entry.size).sum ≤ MAX_SKILL_BYTES := by
      rw [entriesOf, List.map_map]
      exact h.bytes
    exact (Nat.mod_le _ _).trans (hsum.trans (by decide))
  have hroot : readRoot env (entriesOf name files) (filed files) [] =
      (skillFromFiles env (small files) "skill".toList).map fun s =>
        ⟨[], takeFiles (entriesOf name files) [] [] 0 (filed files), s⟩ := by
    unfold readRoot
    dsimp only
    rw [picked_filed h]
    rfl
  have htake : [([] : List Char)].take MAX_SKILLS_PER_IMPORT = [[]] := rfl
  have hdrop : [([] : List Char)].drop MAX_SKILLS_PER_IMPORT = [] := rfl
  unfold skillsFromZip
  rw [if_neg (Nat.not_lt.2 hlen), hread]
  dsimp only
  rw [hmembers, if_neg (Nat.not_lt.2 hcount), hnames, if_neg Bool.false_ne_true, if_neg (Nat.not_lt.2 hsizes),
    if_neg (fun hsub => hsub.1 rfl), hroots, if_neg (List.cons_ne_nil _ _), returned, refused, hroots, htake, hdrop]
  simp only [List.filterMap_cons, List.filterMap_nil, hroot, List.map_nil, List.append_nil]
  cases skillFromFiles env (small files) "skill".toList with
  | ok s => rfl
  | error e => rfl

end Files

/-! ## A downloaded skill -/

section Reimport

variable {env} {zip : ZipLib} {bytes : List UInt8} {r : Row}

/-- The files in the order of the archive. -/
def exported (r : Row) : List (List Char × List Char) := sortFiles (skillFilesOrManual r)

theorem exported_perm (hne : r.files ≠ []) : (exported r).Perm r.files := by
  have hsort : ∀ files, (sortFiles files).Perm files := List.perm_insertionSort _
  have hkeep : ¬ sortFiles r.files = [] := fun hnil => hne (List.nil_perm.1 (hnil ▸ hsort r.files))
  rw [exported, skillFilesOrManual, if_neg hkeep]
  exact (hsort _).trans (hsort _)

/-- The archive is read as the one skill that the row holds, with its files in some order,
and nothing is refused. -/
def Reimports (env : Env) (zip : ZipLib) (bytes : List UInt8) (r : Row) : Prop :=
  ∃ files, skillsFromZip env zip bytes [] = .ok ([{ r.skill with files }], []) ∧ files.Perm r.files

/-- The archive and the texts are within the limits, and the first `SKILL.md` says what the
row holds without the name of a folder. -/
structure Portable (env : Env) (bytes : List UInt8) (r : Row) : Prop where
  archive : bytes.length ≤ MAX_ARCHIVE_BYTES
  texts : ∀ f ∈ r.files, byteLen f.2 ≤ MAX_FILE_BYTES
  front : ∃ md, mdOf env (exported r) = some md ∧ Tells env md "skill".toList r.skill

/-- Without a folder, the `SKILL.md` that a skill was read from says what it holds if it
gives the name, or if that is the name given to what has none. -/
theorem tells_skill_iff {md folder : List Char} {s : Skill} (h : Tells env md folder s) :
    Tells env md "skill".toList s ↔
      (((parseFrontMatter env md).1.lookup "name".toList).filter (· ≠ [])).isSome = true ∨
        s.name = "skill".toList := by
  have hskill : normalizeName env (some (.str "skill".toList)) = "skill".toList := by
    refine normalizeName_eq_self env ⟨?_, by decide, by decide, by decide⟩ (by decide)
    exact List.all_eq_true.1 (by decide)
  have hrest : Tells env md "skill".toList s ↔ nameOf env (parseFrontMatter env md).1 "skill".toList = s.name :=
    ⟨Tells.name, fun hname => ⟨hname, h.description, h.instructions, h.version⟩⟩
  have hname := h.name
  rw [hrest]
  unfold nameOf at hname ⊢
  cases hlook : ((parseFrontMatter env md).1.lookup "name".toList).filter (· ≠ []) with
  | none =>
    rw [Option.getD_none, hskill, Option.isSome_none]
    constructor
    · exact fun h => .inr h.symm
    · rintro (h | h)
      · cases h
      · exact h.symm
  | some n =>
    rw [hlook, Option.getD_some] at hname
    rw [Option.getD_some]
    exact iff_of_true hname (.inl rfl)

theorem length_le_of_ok {subpath : List Char} {found : List Skill × List (List Char × List Char)}
    (h : skillsFromZip env zip bytes subpath = .ok found) : bytes.length ≤ MAX_ARCHIVE_BYTES := by
  by_contra hlarge
  unfold skillsFromZip at h
  rw [if_pos (Nat.lt_of_not_le hlarge)] at h
  cases h

/-- Where the archive is read as one skill and no refusal, this is the skill of its files. -/
theorem skillFromFiles_of_one {files : List (List Char × List Char)} {name : List Char} {s : Skill}
    (h : Exportable env name files) (hflat : Flat env files) (hread : zip.read bytes = some (entriesOf name files))
    (hok : skillsFromZip env zip bytes [] = .ok ([s], [])) :
    skillFromFiles env (small files) "skill".toList = .ok s := by
  rw [skillsFromZip_written h hflat hread (length_le_of_ok hok)] at hok
  cases hskill : skillFromFiles env (small files) "skill".toList with
  | error e =>
    rw [hskill] at hok
    cases hok
  | ok s' =>
    rw [hskill] at hok
    rw [(List.cons.inj (Prod.mk.inj (Except.ok.inj hok)).1).1]

theorem reimports_iff_of_exportable (h : Exportable env r.name r.files) (hdesc : r.description ≠ [])
    (hins : r.instructions ≠ []) (hflat : Flat env r.files)
    (hread : zip.read bytes = some (entriesOf r.name (exported r))) :
    Reimports env zip bytes r ↔ Portable env bytes r := by
  have hne : r.files ≠ [] := by
    obtain ⟨f, hf, -⟩ := h.md
    exact List.ne_nil_of_mem hf
  have hperm := exported_perm hne
  have hexport := h.perm hperm
  have hflat' : Flat env (exported r) :=
    ⟨fun f hf => hflat.named f (hperm.mem_iff.1 hf), fun f hf => hflat.top f (hperm.mem_iff.1 hf)⟩
  have hsmall : (∀ f ∈ r.files, byteLen f.2 ≤ MAX_FILE_BYTES) → small (exported r) = exported r := by
    intro htexts
    exact List.filter_eq_self.2 fun f hf => decide_eq_true (htexts f (hperm.mem_iff.1 hf))
  constructor
  · rintro ⟨files, hok, hfiles⟩
    have hskill := skillFromFiles_of_one hexport hflat' hread hok
    obtain ⟨md, hmd, htells, -, -, -, hkept⟩ := skillFromFiles_ok_iff.1 hskill
    have hkept : files = small (exported r) := hkept
    have htexts : ∀ f ∈ r.files, byteLen f.2 ≤ MAX_FILE_BYTES := by
      intro f hf
      have hmem : f ∈ small (exported r) := hkept ▸ hfiles.mem_iff.2 hf
      exact of_decide_eq_true (List.mem_filter.1 hmem).2
    rw [hsmall htexts] at hmd
    exact ⟨length_le_of_ok hok, htexts, md, hmd, htells.name, htells.description, htells.instructions, htells.version⟩
  · rintro ⟨hlen, htexts, md, hmd, htells⟩
    refine ⟨exported r, ?_, hperm⟩
    have hskill : skillFromFiles env (exported r) "skill".toList = .ok { r.skill with files := exported r } :=
      skillFromFiles_ok_iff.2 ⟨md, hmd, ⟨htells.name, htells.description, htells.instructions, htells.version⟩,
        h.nameNe, hdesc, hins, rfl⟩
    rw [skillsFromZip_written hexport hflat' hread hlen, hsmall htexts, hskill]

/-- A skill that was imported is downloaded, and read back as itself exactly when it is
portable, if no `SKILL.md` lies in a folder of it. -/
theorem reimports_iff (env : Env) (zip : ZipLib) (data : List UInt8) (subpath : List Char) (skills : List Skill)
    (skipped : List (List Char × List Char)) (ids : RowIds) (username : List Char) (replace : Bool) (t : Rows)
    (x : Nat × List Char) (r : Row) (hread : skillsFromZip env zip data subpath = .ok (skills, skipped))
    (himport : x ∈ (importSkills ids username replace t skills skipped).imported)
    (hrow : (importSkills ids username replace t skills skipped).rows.find? x.1 = some r)
    (hflat : Flat env r.files) (hzip : Faithful zip (zipEntries r.name (skillFilesOrManual r))) :
    ∃ bytes, download zip (importSkills ids username replace t skills skipped).rows username x.1 = some bytes ∧
      (Reimports env zip bytes r ↔ Portable env bytes r) := by
  obtain ⟨r', hr', howner, -, hskill⟩ := imported_row himport
  obtain rfl : r = r' := Option.some.inj (hrow.symm.trans hr')
  obtain ⟨entries, -, rfl, -⟩ := skillsFromZip_ok hread
  obtain ⟨pre, hpre, hms⟩ := members_membersOf entries subpath
  obtain ⟨y, hy, hyr⟩ := List.mem_map.1 hskill
  have hexport : Exportable env r.skill.name r.skill.files := hyr ▸ exportable_of_returned hpre hms hy
  obtain ⟨root, -, hroot⟩ := mem_returned.1 hy
  obtain ⟨-, -, hfiles, hok⟩ := readRoot_ok hms.nodup hroot
  rw [← hfiles, hyr] at hok
  obtain ⟨md, -, -, -, hdesc, hins, -⟩ := skillFromFiles_ok_iff.1 hok
  have hentries : (zipEntries r.name (skillFilesOrManual r)).map written = entriesOf r.name (exported r) := by
    rw [zipEntries, List.map_map]
    rfl
  refine ⟨buildZip zip r.name (skillFilesOrManual r), ?_, ?_⟩
  · rw [download, hrow, Option.bind_some, if_pos howner]
  · refine reimports_iff_of_exportable hexport hdesc hins hflat ?_
    rw [← hentries]
    exact hzip

/-- The next id of a table whose ids count up. -/
def countUp : RowIds where
  next t := (t.rows.map Row.id).foldr max 0 + 1
  fresh t := by
    have hle : ∀ (l : List Nat), ∀ n ∈ l, n ≤ l.foldr max 0 := by
      intro l
      induction l with
      | nil => exact List.forall_mem_nil _
      | cons a l ih => exact List.forall_mem_cons.2 ⟨le_max_left _ _, fun n hn => (ih n hn).trans (le_max_right _ _)⟩
    refine List.find?_eq_none.2 fun r hr hid => ?_
    have hid := of_decide_eq_true hid
    have hmax := hle _ _ (List.mem_map_of_mem (f := Row.id) hr)
    omega

def noRows : Rows := ⟨[], List.nodup_nil⟩

/-- A library that reads and writes the archive `bytes` of the entries `es`, and reads `data`. -/
def twoArchives (data : List UInt8) (entries : List Entry) (bytes : List UInt8)
    (es : List (List Char × List UInt8)) : ZipLib where
  read b := if b = data then some entries else if b = bytes then some (es.map written) else none
  write es' := if es' = es then bytes else []

def aEntries : List (List Char × List UInt8) := [("a/SKILL.md".toList, Utf8.encode mdText.toList)]

/-- The archive of `aEntries`, written with the default options. -/
def aZip : List UInt8 :=
  [80, 75, 3, 4, 20, 0, 0, 0, 8, 0, 0, 0, 33, 0, 72, 167, 108, 44, 33, 0, 0, 0, 32, 0, 0, 0, 10, 0,
    0, 0, 97, 47, 83, 75, 73, 76, 76, 46, 109, 100, 211, 213, 213, 229, 202, 75, 204, 77, 181, 82,
    72, 228, 74, 73, 45, 78, 46, 202, 44, 40, 201, 204, 207, 179, 82, 72, 225, 210, 5, 74, 37, 1,
    0, 80, 75, 1, 2, 20, 3, 20, 0, 0, 0, 8, 0, 0, 0, 33, 0, 72, 167, 108, 44, 33, 0, 0, 0, 32, 0,
    0, 0, 10, 0, 0, 0, 0, 0, 0, 0, 0, 0, 0, 0, 164, 129, 0, 0, 0, 0, 97, 47, 83, 75, 73, 76, 76,
    46, 109, 100, 80, 75, 5, 6, 0, 0, 0, 0, 1, 0, 1, 0, 56, 0, 0, 0, 73, 0, 0, 0, 0, 0]

def aLib : ZipLib := twoArchives aZip (aEntries.map written) aZip aEntries

def aRow : Row := ⟨1, ['u'], ['a'], ['d'], ['b'], [], [("SKILL.md".toList, mdText.toList)]⟩

theorem reimports_a : ∃ bytes,
    download aLib (importSkills countUp ['u'] false noRows [aRow.skill] []).rows ['u'] 1 = some bytes ∧
      (Reimports asciiEnv aLib bytes aRow ↔ Portable asciiEnv bytes aRow) :=
  reimports_iff asciiEnv aLib aZip [] [aRow.skill] [] countUp ['u'] false noRows (1, ['a']) aRow
    (by decide +kernel) (by decide +kernel) rfl ⟨by decide +kernel, by decide +kernel⟩
    (show aLib.read (aLib.write _) = some _ by decide +kernel)

/-- A `SKILL.md` without a name. -/
def namelessText : String := "---\ndescription: d\n---\nb"

def toolsFolder : List Entry := [entryOf "README.md" "r", entryOf "tools/SKILL.md" namelessText]

/-- The archive of `toolsFolder`. -/
def toolsFolderZip : List UInt8 :=
  [80, 75, 3, 4, 20, 0, 0, 0, 8, 0, 0, 0, 33, 0, 157, 255, 9, 108, 3, 0, 0, 0, 1, 0, 0, 0, 9, 0, 0,
    0, 82, 69, 65, 68, 77, 69, 46, 109, 100, 43, 2, 0, 80, 75, 3, 4, 20, 0, 0, 0, 8, 0, 0, 0, 33,
    0, 155, 86, 194, 169, 25, 0, 0, 0, 24, 0, 0, 0, 14, 0, 0, 0, 116, 111, 111, 108, 115, 47, 83,
    75, 73, 76, 76, 46, 109, 100, 211, 213, 213, 229, 74, 73, 45, 78, 46, 202, 44, 40, 201, 204,
    207, 179, 82, 72, 225, 210, 5, 10, 37, 1, 0, 80, 75, 1, 2, 20, 3, 20, 0, 0, 0, 8, 0, 0, 0, 33,
    0, 157, 255, 9, 108, 3, 0, 0, 0, 1, 0, 0, 0, 9, 0, 0, 0, 0, 0, 0, 0, 0, 0, 0, 0, 0, 0, 0, 0, 0,
    0, 82, 69, 65, 68, 77, 69, 46, 109, 100, 80, 75, 1, 2, 20, 3, 20, 0, 0, 0, 8, 0, 0, 0, 33, 0,
    155, 86, 194, 169, 25, 0, 0, 0, 24, 0, 0, 0, 14, 0, 0, 0, 0, 0, 0, 0, 0, 0, 0, 0, 0, 0, 42, 0,
    0, 0, 116, 111, 111, 108, 115, 47, 83, 75, 73, 76, 76, 46, 109, 100, 80, 75, 5, 6, 0, 0, 0, 0,
    2, 0, 2, 0, 115, 0, 0, 0, 111, 0, 0, 0, 0, 0]

def toolsEntries : List (List Char × List UInt8) :=
  [("tools/SKILL.md".toList, Utf8.encode namelessText.toList)]

/-- The archive of `toolsEntries`, written with the default options. -/
def toolsZip : List UInt8 :=
  [80, 75, 3, 4, 20, 0, 0, 0, 8, 0, 0, 0, 33, 0, 155, 86, 194, 169, 25, 0, 0, 0, 24, 0, 0, 0, 14,
    0, 0, 0, 116, 111, 111, 108, 115, 47, 83, 75, 73, 76, 76, 46, 109, 100, 211, 213, 213, 229, 74,
    73, 45, 78, 46, 202, 44, 40, 201, 204, 207, 179, 82, 72, 225, 210, 5, 10, 37, 1, 0, 80, 75, 1,
    2, 20, 3, 20, 0, 0, 0, 8, 0, 0, 0, 33, 0, 155, 86, 194, 169, 25, 0, 0, 0, 24, 0, 0, 0, 14, 0,
    0, 0, 0, 0, 0, 0, 0, 0, 0, 0, 164, 129, 0, 0, 0, 0, 116, 111, 111, 108, 115, 47, 83, 75, 73,
    76, 76, 46, 109, 100, 80, 75, 5, 6, 0, 0, 0, 0, 1, 0, 1, 0, 60, 0, 0, 0, 69, 0, 0, 0, 0, 0]

def toolsLib : ZipLib := twoArchives toolsFolderZip toolsFolder toolsZip toolsEntries

def toolsSkill (name : String) : Skill :=
  ⟨name.toList, ['d'], ['b'], [], [("SKILL.md".toList, namelessText.toList)]⟩

/-- A skill with the name of its folder loses it: the folder of the download is dropped. -/
theorem folder_name_lost :
    skillsFromZip asciiEnv toolsLib toolsFolderZip [] = .ok ([toolsSkill "tools"], []) ∧
      download toolsLib (importSkills countUp ['u'] false noRows [toolsSkill "tools"] []).rows ['u'] 1 =
        some toolsZip ∧
      skillsFromZip asciiEnv toolsLib toolsZip [] = .ok ([toolsSkill "skill"], []) ∧
      ¬ ∀ (env : Env) (zip : ZipLib) (data : List UInt8) (subpath : List Char) (skills : List Skill)
          (skipped : List (List Char × List Char)) (ids : RowIds) (username : List Char) (replace : Bool) (t : Rows)
          (x : Nat × List Char) (r : Row),
        skillsFromZip env zip data subpath = .ok (skills, skipped) →
        x ∈ (importSkills ids username replace t skills skipped).imported →
        (importSkills ids username replace t skills skipped).rows.find? x.1 = some r →
        Faithful zip (zipEntries r.name (skillFilesOrManual r)) →
        ∃ bytes, download zip (importSkills ids username replace t skills skipped).rows username x.1 = some bytes ∧
          Reimports env zip bytes r := by
  have hread : skillsFromZip asciiEnv toolsLib toolsFolderZip [] = .ok ([toolsSkill "tools"], []) := by
    decide +kernel
  have hdownload : download toolsLib (importSkills countUp ['u'] false noRows [toolsSkill "tools"] []).rows ['u'] 1 =
      some toolsZip := by
    decide +kernel
  have hagain : skillsFromZip asciiEnv toolsLib toolsZip [] = .ok ([toolsSkill "skill"], []) := by
    decide +kernel
  refine ⟨hread, hdownload, hagain, fun h => ?_⟩
  obtain ⟨bytes, hbytes, files, hok, -⟩ := h asciiEnv toolsLib toolsFolderZip [] _ _ countUp ['u'] false noRows
    (1, "tools".toList) ⟨1, ['u'], "tools".toList, ['d'], ['b'], [], [("SKILL.md".toList, namelessText.toList)]⟩
    hread (by decide +kernel) rfl (show toolsLib.read (toolsLib.write _) = some _ by decide +kernel)
  obtain rfl : toolsZip = bytes := Option.some.inj (hdownload.symm.trans hbytes)
  rw [hagain] at hok
  have hname : "skill".toList = "tools".toList :=
    congrArg Skill.name (List.cons.inj (Prod.mk.inj (Except.ok.inj hok)).1).1
  exact absurd hname (by decide)

end Reimport

end Portal.Skills
