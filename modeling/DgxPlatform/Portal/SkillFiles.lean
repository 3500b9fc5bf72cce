import DgxPlatform.Portal.FileTools
import DgxPlatform.Portal.SkillExport

/-! # The files of a skill as the model reads them

`use_skill` lists the files of a stored skill, `read_skill_file` reads one of them. The reader
takes white space, dots and slashes off what it is asked for, so that `./a.md` is found as `a.md`;
the importer keeps names that begin with a dot or have white space at an end.
-/

namespace Portal.Skills

open Accounts (pyIsSpace pyStrip)

/-! ## The two tools -/

def SKILL_FILE_MAX_CHARS : Nat := 40000

/-- Python's `repr()` of a string. -/
def repr (s : List Char) : List Char := FileTools.pyRepr (.str s)

/-- The row of an enabled skill; `enabled` is the column of that name, by the ids. -/
def enabledRow (t : Rows) (enabled : Nat → Bool) (username name : List Char) : Option Row :=
  t.rows.find? fun r => r.username = username ∧ r.name = name ∧ enabled r.id = true

/-- `SELECT path … ORDER BY path`. -/
def paths (r : Row) : List (List Char) := (sortFiles r.files).map Prod.fst

/-- The paths that `use_skill` lists. -/
def listed (env : Env) (r : Row) : List (List Char) := (paths r).filter fun p => !isSkillMd env p

/-- `use_skill`: the instructions and the files, and whether there is such a skill. -/
def useSkill (env : Env) (t : Rows) (enabled : Nat → Bool) (username name : List Char) : List Char × Bool :=
  match enabledRow t enabled username name with
  | none => ("Skill ".toList ++ repr name ++ " not found.".toList, false)
  | some r =>
      let files :=
        if listed env r = [] then []
        else
          ("\n\nFiles bundled with this skill (read them with read_skill_file when the instructions ".toList ++
            "point to them):\n".toList) ++ ['\n'].intercalate ((listed env r).map fun p => "- ".toList ++ p)
      ("# Skill: ".toList ++ name ++ "\n\n".toList ++ r.instructions ++ files, true)

/-- `py_strip(path).trim_start_matches(['.', '/'])`. -/
def askedPath (path : List Char) : List Char := (pyStrip path).dropWhile fun c => c = '.' || c = '/'

/-- The content as far as it is shown. -/
def shownContent (content : List Char) : List Char :=
  if content.length > SKILL_FILE_MAX_CHARS then
    content.take SKILL_FILE_MAX_CHARS ++ "\n[… truncated]".toList
  else content

def shownFile (name path content : List Char) : List Char :=
  name ++ ['/'] ++ path ++ ":\n".toList ++ shownContent content

/-- `read_skill_file`: the file or what there is instead, and whether it was found. -/
def readSkillFile (t : Rows) (enabled : Nat → Bool) (username name path : List Char) : List Char × Bool :=
  match enabledRow t enabled username name with
  | none => ("Skill ".toList ++ repr name ++ " not found.".toList, false)
  | some r =>
      let path := askedPath path
      match r.files.lookup path with
      | none =>
          let known := if paths r = [] then "none".toList else ", ".toList.intercalate (paths r)
          ("No file ".toList ++ repr path ++ " in skill ".toList ++ repr name ++ ". Files: ".toList ++ known ++ ['.'],
            false)
      | some content => (shownFile name path content, true)

/-! ## What is taken off -/

/-- Nothing is taken off: no dot in front, and no white space at the ends. -/
def Plain (path : List Char) : Prop :=
  path.head? ≠ some '.' ∧ (∀ c ∈ path.head?, pyIsSpace c = false) ∧ ∀ c ∈ path.getLast?, pyIsSpace c = false

instance (path : List Char) : Decidable (Plain path) := inferInstanceAs (Decidable (_ ∧ _ ∧ _))

section Asked

variable {p : List Char}

/-- What is asked for lies in the path between characters that are taken off, none of them a colon. -/
theorem exists_askedPath (p : List Char) : ∃ a b, p = a ++ (askedPath p ++ b) ∧ ':' ∉ a ∧ ':' ∉ b := by
  rcases Text.exists_trimMatches pyIsSpace p with ⟨a, b, hp, ha, hb⟩
  have hsplit := List.takeWhile_append_dropWhile (p := fun c => c = '.' || c = '/') (l := pyStrip p)
  refine ⟨a ++ (pyStrip p).takeWhile fun c => c = '.' || c = '/', b, ?_, ?_, ?_⟩
  · calc p = a ++ pyStrip p ++ b := hp
      _ = a ++ ((pyStrip p).takeWhile (fun c => c = '.' || c = '/') ++ askedPath p) ++ b := by rw [askedPath, hsplit]
      _ = _ := by simp only [List.append_assoc]
  · rw [List.mem_append, not_or]
    constructor
    · intro hmem
      exact absurd (ha ':' hmem) (by decide)
    · intro hmem
      exact absurd (List.mem_takeWhile_imp hmem) (by decide)
  · intro hmem
    exact absurd (hb ':' hmem) (by decide)

theorem askedPath_eq_self_iff (hslash : p.head? ≠ some '/') : askedPath p = p ↔ Plain p := by
  constructor
  · intro h
    have hle : p.length ≤ (pyStrip p).length := by
      conv_lhs => rw [← h]
      exact (List.dropWhile_suffix _).length_le
    have hstrip : pyStrip p = p := by
      rcases Text.exists_trimMatches pyIsSpace p with ⟨a, b, hp, -, -⟩
      have hlen := congrArg List.length hp
      rw [List.length_append, List.length_append] at hlen
      have ha : a = [] := List.length_eq_zero_iff.1 (by unfold pyStrip at hle; omega)
      have hb : b = [] := List.length_eq_zero_iff.1 (by unfold pyStrip at hle; omega)
      rw [ha, hb, List.nil_append, List.append_nil] at hp
      exact hp.symm
    refine ⟨?_, Text.trimMatches_eq_self_iff.1 hstrip⟩
    intro hdot
    rw [askedPath, hstrip] at h
    cases p with
    | nil => cases hdot
    | cons c p =>
      have hc : c = '.' := Option.some.inj hdot
      subst hc
      rw [List.dropWhile_cons_of_pos (by decide)] at h
      have hlen := (List.dropWhile_suffix (l := p) fun c => c = '.' || c = '/').length_le
      rw [h, List.length_cons] at hlen
      omega
  · rintro ⟨hdot, hends⟩
    have hstrip : pyStrip p = p := Text.trimMatches_eq_self_iff.2 hends
    rw [askedPath, hstrip]
    cases p with
    | nil => rfl
    | cons c p =>
      apply List.dropWhile_cons_of_neg
      have hc : c ≠ '.' := fun h => hdot (congrArg some h)
      have hc' : c ≠ '/' := fun h => hslash (congrArg some h)
      simp [hc, hc']

/-- If the text that is shown for what was asked for is the one for the path, nothing was taken off. -/
theorem askedPath_of_shown {name content content' : List Char}
    (h : shownFile name (askedPath p) content' = shownFile name p content) : askedPath p = p := by
  rcases exists_askedPath p with ⟨a, b, hp, ha, hb⟩
  have hcut : askedPath p ++ ':' :: ('\n' :: shownContent content') = p ++ ':' :: ('\n' :: shownContent content) := by
    unfold shownFile at h
    simp only [List.append_assoc, List.append_cancel_left_eq] at h
    exact h
  have hends : a = [] ∧ b = [] := by
    apply Framing.eq_nil_of_shift ha hb (s := askedPath p)
    rw [hcut]
    conv_lhs => rw [hp]
    simp only [List.append_assoc]
    rfl
  rw [hends.1, hends.2, List.nil_append, List.append_nil] at hp
  exact hp.symm

end Asked

/-! ## What can be read -/

section Read

variable {t : Rows} {enabled : Nat → Bool} {username name p : List Char} {r : Row}

theorem readSkillFile_of_row (hrow : enabledRow t enabled username name = some r) {content : List Char}
    (hfile : r.files.lookup (askedPath p) = some content) :
    readSkillFile t enabled username name p = (shownFile name (askedPath p) content, true) := by
  unfold readSkillFile
  rw [hrow]
  dsimp only
  rw [hfile]

/-- An answer that shows a file under the path was found under this path. -/
theorem readSkillFile_shown (hrow : enabledRow t enabled username name = some r) {content : List Char}
    (h : readSkillFile t enabled username name p = (shownFile name p content, true)) : askedPath p = p := by
  cases hfile : r.files.lookup (askedPath p) with
  | none =>
    unfold readSkillFile at h
    rw [hrow] at h
    dsimp only at h
    rw [hfile] at h
    cases (Prod.mk.inj h).2
  | some content' =>
    rw [readSkillFile_of_row hrow hfile] at h
    exact askedPath_of_shown (Prod.mk.inj h).1

theorem lookup_of_mem {files : List (List Char × List Char)} (hnodup : (files.map Prod.fst).Nodup)
    {f : List Char × List Char} (hf : f ∈ files) : files.lookup f.1 = some f.2 := by
  rcases List.append_of_mem hf with ⟨front, rest, rfl⟩
  rw [List.map_append, List.nodup_append] at hnodup
  refine List.lookup_eq_some_iff.2 ⟨front, rest, rfl, fun g hg => ?_⟩
  exact bne_iff_ne.2 (hnodup.2.2 g.1 (List.mem_map_of_mem hg) f.1 List.mem_cons_self).symm

/-- Of a row with different paths of names, a listed file is shown under its path exactly if
nothing is taken off this path. -/
theorem shown_iff (hrow : enabledRow t enabled username name = some r) (hnodup : (r.files.map Prod.fst).Nodup)
    (hclean : ∀ f ∈ r.files, f.1 = ['.'] ∨ Clean f.1) {env : Env} (hp : p ∈ listed env r) :
    (∃ content, (p, content) ∈ r.files ∧
      readSkillFile t enabled username name p = (shownFile name p content, true)) ↔ Plain p := by
  have hmem : p ∈ (sortFiles r.files).map Prod.fst := (List.mem_filter.1 hp).1
  rcases List.mem_map.1 hmem with ⟨f, hf, rfl⟩
  have hfile : f ∈ r.files := (List.mem_insertionSort _).1 hf
  have hslash : f.1.head? ≠ some '/' := by
    rcases hclean f hfile with hdot | hclean
    · rw [hdot]
      decide
    · exact hclean.ends.2.1
  rw [← askedPath_eq_self_iff hslash]
  constructor
  · rintro ⟨content, -, hshown⟩
    exact readSkillFile_shown hrow hshown
  · intro hasked
    have hlookup : r.files.lookup (askedPath f.1) = some f.2 := by
      rw [hasked]
      exact lookup_of_mem hnodup hfile
    refine ⟨f.2, hfile, ?_⟩
    rw [readSkillFile_of_row hrow hlookup, hasked]

/-- Of a skill that was imported from an archive, the listed files that can be read under their
paths are those whose paths begin with no dot and have no white space at the ends. -/
theorem listed_readable_iff (env : Env) (zip : ZipLib) (data : List UInt8) (subpath : List Char) (skills : List Skill)
    (skipped : List (List Char × List Char)) (ids : RowIds) (username : List Char) (replace : Bool) (t : Rows)
    (x : Nat × List Char) (enabled : Nat → Bool) (r : Row) (p : List Char)
    (hread : skillsFromZip env zip data subpath = .ok (skills, skipped))
    (himport : x ∈ (importSkills ids username replace t skills skipped).imported)
    (hrow : enabledRow (importSkills ids username replace t skills skipped).rows enabled username x.2 = some r)
    (hid : r.id = x.1) (hp : p ∈ listed env r) :
    (∃ content, (p, content) ∈ r.files ∧
      readSkillFile (importSkills ids username replace t skills skipped).rows enabled username x.2 p =
        (shownFile x.2 p content, true)) ↔ Plain p := by
  rcases imported_row himport with ⟨r', hr', -, -, hskill⟩
  have hsame : r = r' := by
    have hfind := Table.find?_of_mem (List.mem_of_find?_eq_some hrow)
    rw [hid, hr'] at hfind
    exact (Option.some.inj hfind).symm
  subst hsame
  rcases skillsFromZip_ok hread with ⟨entries, -, rfl, -⟩
  rcases members_membersOf entries subpath with ⟨pre, hpre, hms⟩
  rcases List.mem_map.1 hskill with ⟨y, hy, hyr⟩
  have hexport : Exportable env r.skill.name r.skill.files := hyr ▸ exportable_of_returned hpre hms hy
  exact shown_iff hrow hexport.nodup hexport.clean hp

end Read

/-! ## A hidden file -/

def hiddenFile : List Entry := [entryOf "SKILL.md" mdText, entryOf ".env" "K", entryOf "c.md" "x"]

/-- The archive of `hiddenFile`. -/
def hiddenFileZip : List UInt8 :=
  [80, 75, 3, 4, 20, 0, 0, 0, 0, 0, 0, 0, 33, 0, 72, 167, 108, 44, 32, 0, 0, 0, 32, 0, 0, 0, 8,
    0, 0, 0, 83, 75, 73, 76, 76, 46, 109, 100, 45, 45, 45, 10, 110, 97, 109, 101, 58, 32, 97, 10,
    100, 101, 115, 99, 114, 105, 112, 116, 105, 111, 110, 58, 32, 100, 10, 45, 45, 45, 10, 98,
    80, 75, 3, 4, 20, 0, 0, 0, 0, 0, 0, 0, 33, 0, 149, 119, 12, 51, 1, 0, 0, 0, 1, 0, 0, 0, 4, 0,
    0, 0, 46, 101, 110, 118, 75, 80, 75, 3, 4, 20, 0, 0, 0, 0, 0, 0, 0, 33, 0, 131, 22, 220, 140,
    1, 0, 0, 0, 1, 0, 0, 0, 4, 0, 0, 0, 99, 46, 109, 100, 120, 80, 75, 1, 2, 20, 0, 20, 0, 0, 0,
    0, 0, 0, 0, 33, 0, 72, 167, 108, 44, 32, 0, 0, 0, 32, 0, 0, 0, 8, 0, 0, 0, 0, 0, 0, 0, 0, 0,
    0, 0, 128, 1, 0, 0, 0, 0, 83, 75, 73, 76, 76, 46, 109, 100, 80, 75, 1, 2, 20, 0, 20, 0, 0, 0,
    0, 0, 0, 0, 33, 0, 149, 119, 12, 51, 1, 0, 0, 0, 1, 0, 0, 0, 4, 0, 0, 0, 0, 0, 0, 0, 0, 0, 0,
    0, 128, 1, 70, 0, 0, 0, 46, 101, 110, 118, 80, 75, 1, 2, 20, 0, 20, 0, 0, 0, 0, 0, 0, 0, 33,
    0, 131, 22, 220, 140, 1, 0, 0, 0, 1, 0, 0, 0, 4, 0, 0, 0, 0, 0, 0, 0, 0, 0, 0, 0, 128, 1,
    105, 0, 0, 0, 99, 46, 109, 100, 80, 75, 5, 6, 0, 0, 0, 0, 3, 0, 3, 0, 154, 0, 0, 0, 140, 0,
    0, 0, 0, 0]

def hiddenLib : ZipLib := oneArchive hiddenFileZip hiddenFile

def hiddenSkill : Skill := mdSkill [("SKILL.md", mdText), (".env", "K"), ("c.md", "x")]

def hiddenRow : Row := ⟨1, ['u'], ['a'], ['d'], ['b'], [], hiddenSkill.files⟩

def hiddenRows : Rows := (importSkills countUp ['u'] false noRows [hiddenSkill] []).rows

theorem listed_readable_visible :
    (∃ content, ("c.md".toList, content) ∈ hiddenRow.files ∧
      readSkillFile hiddenRows (fun _ => true) ['u'] ['a'] "c.md".toList =
        (shownFile ['a'] "c.md".toList content, true)) ↔ Plain "c.md".toList :=
  listed_readable_iff asciiEnv hiddenLib hiddenFileZip [] [hiddenSkill] [] countUp ['u'] false noRows (1, ['a'])
    (fun _ => true) hiddenRow "c.md".toList (by decide +kernel) (by decide +kernel) rfl rfl (by decide +kernel)

/-- The hidden file is listed, and is not there when it is asked for. -/
theorem hidden_file_lost :
    skillsFromZip asciiEnv hiddenLib hiddenFileZip [] = .ok ([hiddenSkill], []) ∧
      readSkillFile hiddenRows (fun _ => true) ['u'] ['a'] ".env".toList =
        ("No file 'env' in skill 'a'. Files: .env, SKILL.md, c.md.".toList, false) ∧
      ¬ ∀ (env : Env) (zip : ZipLib) (data : List UInt8) (subpath : List Char) (skills : List Skill)
          (skipped : List (List Char × List Char)) (ids : RowIds) (username : List Char) (replace : Bool) (t : Rows)
          (x : Nat × List Char) (enabled : Nat → Bool) (r : Row) (p : List Char),
        skillsFromZip env zip data subpath = .ok (skills, skipped) →
        x ∈ (importSkills ids username replace t skills skipped).imported →
        enabledRow (importSkills ids username replace t skills skipped).rows enabled username x.2 = some r →
        r.id = x.1 → p ∈ listed env r →
        ∃ content, (p, content) ∈ r.files ∧
          readSkillFile (importSkills ids username replace t skills skipped).rows enabled username x.2 p =
            (shownFile x.2 p content, true) := by
  have hread : skillsFromZip asciiEnv hiddenLib hiddenFileZip [] = .ok ([hiddenSkill], []) := by decide +kernel
  have hanswer : readSkillFile hiddenRows (fun _ => true) ['u'] ['a'] ".env".toList =
      ("No file 'env' in skill 'a'. Files: .env, SKILL.md, c.md.".toList, false) := by
    decide +kernel
  refine ⟨hread, hanswer, ?_⟩
  intro h
  rcases h asciiEnv hiddenLib hiddenFileZip [] [hiddenSkill] [] countUp ['u'] false noRows (1, ['a']) (fun _ => true)
    hiddenRow ".env".toList hread (by decide +kernel) rfl rfl (by decide +kernel) with ⟨content, -, hfile⟩
  cases congrArg Prod.snd (hanswer.symm.trans hfile)

end Portal.Skills
