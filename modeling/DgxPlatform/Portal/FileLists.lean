import DgxPlatform.Portal.Conversations

/-! # Lists of files read from JSON

The saved conversations and the file tools of the chat read their files with the same loop
(`parse_files`), each with its own white space and its own text of a value that is no
string: `parse`. What it gives back is bounded; written back as JSON it is read as the same
list exactly if it is `Storable`, and of the bounds only one can be missing: a name that is
trimmed and then cut can end with white space.
-/

namespace Portal.FileLists

open Conversations (NamedFile setFile truthy MAX_FILES MAX_FILE_CHARS MAX_TOTAL_CHARS)

/-- The characters kept of a name. -/
def NAME_CHARS : Nat := 200

section Parser

variable (space : Char → Bool) (text : Json → List Char)

/-- The name of an entry before the cut. -/
def rawName (fields : List (String × Json)) : List Char :=
  Text.trimMatches space (((fields.lookup "name").filter truthy).elim [] text)

/-- The loop of `parse_files`; a file past the total ends it. -/
def parseFrom (files : List NamedFile) (total : Nat) : List Json → List NamedFile
  | [] => files
  | .obj fields :: rest =>
      let name := (rawName space text fields).take NAME_CHARS
      match fields.lookup "content" with
      | some (.str content) =>
          if name.isEmpty || content.length > MAX_FILE_CHARS then parseFrom files total rest
          else if total + content.length > MAX_TOTAL_CHARS then files
          else parseFrom (setFile files name content) (total + content.length) rest
      | _ => parseFrom files total rest
  | _ :: rest => parseFrom files total rest

/-- `parse_files`. -/
def parse : Option Json → List NamedFile
  | some (.arr list) => parseFrom space text [] 0 (list.take MAX_FILES)
  | _ => []

end Parser

/-- A file as it is written in a list. -/
def fileJson (f : NamedFile) : Json := .obj [("name", .str f.1), ("content", .str f.2)]

def toJson (files : List NamedFile) : Json := .arr (files.map fileJson)

/-! ## Setting files one after the other -/

section Set

variable {files l : List NamedFile} {f : NamedFile} {name content : List Char}

def names (files : List NamedFile) : List (List Char) := files.map Prod.fst

/-- The characters of all files. -/
def chars (files : List NamedFile) : Nat := (files.map fun f => f.2.length).sum

def setAll (files l : List NamedFile) : List NamedFile :=
  l.foldl (fun files f => setFile files f.1 f.2) files

@[simp] theorem chars_nil : chars [] = 0 := rfl

@[simp] theorem chars_cons (f : NamedFile) (files : List NamedFile) :
    chars (f :: files) = f.2.length + chars files := by
  simp [chars]

@[simp] theorem chars_append (files l : List NamedFile) :
    chars (files ++ l) = chars files + chars l := by
  simp [chars]

theorem any_name_iff : (files.any fun f => f.1 == name) = true ↔ name ∈ names files := by
  simp only [List.any_eq_true, beq_iff_eq, names, List.mem_map]

theorem setFile_of_notMem (h : name ∉ names files) :
    setFile files name content = files ++ [(name, content)] := by
  rw [setFile, if_neg (fun hany => h (any_name_iff.1 hany))]

theorem setFile_of_mem (h : name ∈ names files) :
    setFile files name content = files.map fun f => if f.1 = name then (name, content) else f := by
  rw [setFile, if_pos (any_name_iff.2 h)]

theorem names_setFile : names (setFile files name content) =
    if name ∈ names files then names files else names files ++ [name] := by
  split_ifs with h
  · rw [setFile_of_mem h, names, names, List.map_map]
    refine List.map_congr_left fun f _ => ?_
    simp only [Function.comp_apply]
    split_ifs with hf
    · exact hf.symm
    · rfl
  · rw [setFile_of_notMem h, names, List.map_append]
    rfl

theorem nodup_setFile (h : (names files).Nodup) : (names (setFile files name content)).Nodup := by
  rw [names_setFile]
  split_ifs with hmem
  · exact h
  · rw [List.nodup_append]
    refine ⟨h, List.nodup_singleton name, ?_⟩
    intro a ha b hb hab
    rw [hab, List.mem_singleton.1 hb] at ha
    exact hmem ha

theorem mem_setFile (h : f ∈ setFile files name content) : f ∈ files ∨ f = (name, content) := by
  by_cases hmem : name ∈ names files
  · rw [setFile_of_mem hmem] at h
    obtain ⟨g, hg, rfl⟩ := List.mem_map.1 h
    split_ifs
    · exact .inr rfl
    · exact .inl hg
  · rw [setFile_of_notMem hmem] at h
    exact (List.mem_append.1 h).imp_right List.mem_singleton.1

theorem length_setFile_le : (setFile files name content).length ≤ files.length + 1 := by
  by_cases hmem : name ∈ names files
  · rw [setFile_of_mem hmem, List.length_map]
    omega
  · rw [setFile_of_notMem hmem, List.length_append, List.length_singleton]

theorem map_set_of_notMem (h : name ∉ names files) :
    (files.map fun f => if f.1 = name then (name, content) else f) = files := by
  refine (List.map_congr_left fun f hf => ?_).trans (List.map_id files)
  rw [if_neg fun heq => h (List.mem_map.2 ⟨f, hf, heq⟩), id_eq]

theorem chars_setFile_le (h : (names files).Nodup) :
    chars (setFile files name content) ≤ chars files + content.length := by
  by_cases hmem : name ∈ names files
  · rw [setFile_of_mem hmem]
    clear hmem
    induction files with
    | nil => exact Nat.zero_le _
    | cons g files ih =>
      obtain ⟨hg, htail⟩ := List.nodup_cons.1 h
      rw [List.map_cons]
      split_ifs with hname
      · have hrest : name ∉ names files := hname ▸ hg
        rw [map_set_of_notMem hrest, chars_cons, chars_cons]
        show content.length + chars files ≤ g.2.length + chars files + content.length
        omega
      · have := ih htail
        rw [chars_cons, chars_cons]
        omega
  · rw [setFile_of_notMem hmem]
    simp

theorem setAll_cons (files : List NamedFile) (f : NamedFile) (l : List NamedFile) :
    setAll files (f :: l) = setAll (setFile files f.1 f.2) l := rfl

theorem nodup_setAll (h : (names files).Nodup) : (names (setAll files l)).Nodup := by
  induction l generalizing files with
  | nil => exact h
  | cons f l ih => exact ih (nodup_setFile h)

theorem mem_names_setAll : name ∈ names (setAll files l) ↔ name ∈ names files ∨ name ∈ names l := by
  induction l generalizing files with
  | nil => simp [setAll, names]
  | cons f l ih =>
    rw [setAll_cons, ih, names_setFile]
    have hcons : name ∈ names (f :: l) ↔ name = f.1 ∨ name ∈ names l := List.mem_cons
    rw [hcons]
    split_ifs with hf
    · constructor
      · rintro (h | h)
        · exact .inl h
        · exact .inr (.inr h)
      · rintro (h | rfl | h)
        · exact .inl h
        · exact .inl hf
        · exact .inr h
    · rw [List.mem_append, List.mem_singleton, or_assoc]

theorem mem_setAll (h : f ∈ setAll files l) : f ∈ files ∨ f ∈ l := by
  induction l generalizing files with
  | nil => exact .inl h
  | cons g l ih =>
    rcases ih h with hset | hl
    · rcases mem_setFile hset with hold | rfl
      · exact .inl hold
      · exact .inr List.mem_cons_self
    · exact .inr (List.mem_cons_of_mem g hl)

theorem length_setAll_le : (setAll files l).length ≤ files.length + l.length := by
  induction l generalizing files with
  | nil => exact Nat.le_refl _
  | cons g l ih =>
    have hset := @length_setFile_le files g.1 g.2
    rw [setAll_cons, List.length_cons]
    refine Nat.le_trans ih ?_
    omega

theorem chars_setAll_le (h : (names files).Nodup) : chars (setAll files l) ≤ chars files + chars l := by
  induction l generalizing files with
  | nil => exact Nat.le_refl _
  | cons g l ih =>
    have hset : chars (setFile files g.1 g.2) ≤ chars files + g.2.length := chars_setFile_le h
    rw [setAll_cons, chars_cons]
    refine Nat.le_trans (ih (nodup_setFile h)) ?_
    omega

theorem setAll_of_nodup (h : (names (files ++ l)).Nodup) : setAll files l = files ++ l := by
  induction l generalizing files with
  | nil => rw [List.append_nil]; rfl
  | cons g l ih =>
    have hnew : g.1 ∉ names files := by
      intro hmem
      rw [names, List.map_append, List.nodup_append] at h
      exact h.2.2 g.1 hmem g.1 List.mem_cons_self rfl
    rw [setAll_cons, setFile_of_notMem hnew, ih, List.append_assoc, List.singleton_append]
    rwa [List.append_assoc, List.singleton_append]

end Set

/-! ## What is read -/

section Read

variable (space : Char → Bool) (text : Json → List Char)

/-- An entry that the loop looks at, its name uncut. -/
def entry : Json → Option NamedFile
  | .obj fields =>
      match fields.lookup "content" with
      | some (.str content) =>
          if (rawName space text fields).isEmpty || content.length > MAX_FILE_CHARS then none
          else some (rawName space text fields, content)
      | _ => none
  | _ => none

/-- The entries up to the one that goes past the total. -/
def accepted (total : Nat) : List Json → List NamedFile
  | [] => []
  | x :: rest =>
      match entry space text x with
      | none => accepted total rest
      | some f =>
          if total + f.2.length > MAX_TOTAL_CHARS then []
          else f :: accepted (total + f.2.length) rest

/-- The entries of a list. -/
def acceptedOf : Option Json → List NamedFile
  | some (.arr list) => accepted space text 0 (list.take MAX_FILES)
  | _ => []

/-- The cut of a name. -/
def cut (f : NamedFile) : NamedFile := (f.1.take NAME_CHARS, f.2)

variable {space text} {total : Nat} {files : List NamedFile} {f : NamedFile} {list : List Json}

theorem isEmpty_take {t : List Char} : (t.take NAME_CHARS).isEmpty = t.isEmpty := by
  cases t <;> rfl

theorem parseFrom_eq (files : List NamedFile) (total : Nat) (list : List Json) :
    parseFrom space text files total list = setAll files ((accepted space text total list).map cut) := by
  induction list generalizing files total with
  | nil => rfl
  | cons x rest ih =>
    cases x with
    | obj fields =>
      simp only [parseFrom, accepted, entry]
      split
      · next content hcontent =>
          rw [isEmpty_take]
          split_ifs with hskip hover
          · exact ih files total
          · simp only
            rw [if_pos hover]
            rfl
          · simp only
            rw [if_neg hover, List.map_cons, ih]
            rfl
      · simp only
        exact ih files total
    | null => exact ih files total
    | bool b => exact ih files total
    | num n => exact ih files total
    | str s => exact ih files total
    | arr xs => exact ih files total

theorem parse_eq (v : Option Json) :
    parse space text v = setAll [] ((acceptedOf space text v).map cut) := by
  unfold parse acceptedOf
  split
  · exact parseFrom_eq [] 0 _
  · rfl

theorem entry_spec {x : Json} (h : entry space text x = some f) :
    f.1 ≠ [] ∧ Text.trimMatches space f.1 = f.1 ∧ f.2.length ≤ MAX_FILE_CHARS := by
  cases x with
  | obj fields =>
    simp only [entry] at h
    split at h
    · split_ifs at h with hskip
      obtain rfl := Option.some.inj h
      simp only [Bool.or_eq_true, List.isEmpty_iff, decide_eq_true_eq, not_or] at hskip
      exact ⟨hskip.1, Text.trimMatches_idem space _, Nat.not_lt.1 hskip.2⟩
    · cases h
  | null => cases h
  | bool b => cases h
  | num n => cases h
  | str s => cases h
  | arr xs => cases h

theorem accepted_of_some {x : Json} (h : entry space text x = some f) (rest : List Json) :
    accepted space text total (x :: rest) =
      if total + f.2.length > MAX_TOTAL_CHARS then []
      else f :: accepted space text (total + f.2.length) rest := by
  simp only [accepted, h]

theorem accepted_of_none {x : Json} (h : entry space text x = none) (rest : List Json) :
    accepted space text total (x :: rest) = accepted space text total rest := by
  simp only [accepted, h]

theorem exists_of_mem_accepted (h : f ∈ accepted space text total list) :
    ∃ x ∈ list, entry space text x = some f := by
  induction list generalizing total with
  | nil => cases h
  | cons x rest ih =>
    cases hx : entry space text x with
    | none =>
      rw [accepted_of_none hx] at h
      obtain ⟨y, hy, hentry⟩ := ih h
      exact ⟨y, List.mem_cons_of_mem x hy, hentry⟩
    | some g =>
      rw [accepted_of_some hx] at h
      split_ifs at h
      · cases h
      · rcases List.mem_cons.1 h with rfl | htail
        · exact ⟨x, List.mem_cons_self, hx⟩
        · obtain ⟨y, hy, hentry⟩ := ih htail
          exact ⟨y, List.mem_cons_of_mem x hy, hentry⟩

theorem length_accepted_le : (accepted space text total list).length ≤ list.length := by
  induction list generalizing total with
  | nil => exact Nat.le_refl 0
  | cons x rest ih =>
    rw [List.length_cons]
    cases hx : entry space text x with
    | none =>
      rw [accepted_of_none hx]
      exact Nat.le_succ_of_le ih
    | some g =>
      rw [accepted_of_some hx]
      split_ifs
      · exact Nat.zero_le _
      · exact Nat.succ_le_succ ih

theorem chars_accepted_le (h : total ≤ MAX_TOTAL_CHARS) :
    total + chars (accepted space text total list) ≤ MAX_TOTAL_CHARS := by
  induction list generalizing total with
  | nil => exact h
  | cons x rest ih =>
    cases hx : entry space text x with
    | none =>
      rw [accepted_of_none hx]
      exact ih h
    | some g =>
      rw [accepted_of_some hx]
      split_ifs with hover
      · exact h
      · have := ih (Nat.not_lt.1 hover)
        rw [chars_cons]
        omega

theorem chars_map_cut (l : List NamedFile) : chars (l.map cut) = chars l := by
  rw [chars, List.map_map]
  rfl

/-! ## What is written back and read again -/

/-- A list of files that is read back as it is. -/
structure Storable (space : Char → Bool) (files : List NamedFile) : Prop where
  distinct : (names files).Nodup
  named : ∀ f ∈ files, f.1 ≠ [] ∧ f.1.length ≤ NAME_CHARS
  trimmed : ∀ f ∈ files, Text.trimMatches space f.1 = f.1
  sizes : ∀ f ∈ files, f.2.length ≤ MAX_FILE_CHARS
  total : chars files ≤ MAX_TOTAL_CHARS
  count : files.length ≤ MAX_FILES

/-- Of the bounds only the names can be missing after the loop: a cut name may end with
white space. -/
theorem storable_parse (v : Option Json)
    (h : ∀ f ∈ parse space text v, Text.trimMatches space f.1 = f.1) :
    Storable space (parse space text v) := by
  have hmem : ∀ f ∈ parse space text v, ∃ g, f = cut g ∧ g ∈ acceptedOf space text v := by
    intro f hf
    rw [parse_eq] at hf
    rcases mem_setAll hf with hnil | hcut
    · cases hnil
    · obtain ⟨g, hg, rfl⟩ := List.mem_map.1 hcut
      exact ⟨g, rfl, hg⟩
  have hspec : ∀ g ∈ acceptedOf space text v,
      g.1 ≠ [] ∧ Text.trimMatches space g.1 = g.1 ∧ g.2.length ≤ MAX_FILE_CHARS := by
    intro g hg
    unfold acceptedOf at hg
    split at hg
    · obtain ⟨x, -, hx⟩ := exists_of_mem_accepted hg
      exact entry_spec hx
    · cases hg
  have hchars : chars (acceptedOf space text v) ≤ MAX_TOTAL_CHARS := by
    unfold acceptedOf
    split
    · next list =>
        have hle : 0 + chars (accepted space text 0 (list.take MAX_FILES)) ≤ MAX_TOTAL_CHARS :=
          chars_accepted_le (Nat.zero_le _)
        rwa [Nat.zero_add] at hle
    · exact Nat.zero_le _
  have hcount : (acceptedOf space text v).length ≤ MAX_FILES := by
    unfold acceptedOf
    split
    · exact Nat.le_trans length_accepted_le (List.length_take_le _ _)
    · exact Nat.zero_le _
  refine ⟨?_, ?_, h, ?_, ?_, ?_⟩
  · rw [parse_eq]
    exact nodup_setAll List.nodup_nil
  · intro f hf
    obtain ⟨g, rfl, hg⟩ := hmem f hf
    refine ⟨?_, List.length_take_le _ _⟩
    intro hnil
    rcases List.take_eq_nil_iff.1 hnil with hzero | hempty
    · exact absurd hzero (by decide)
    · exact (hspec g hg).1 hempty
  · intro f hf
    obtain ⟨g, rfl, hg⟩ := hmem f hf
    exact (hspec g hg).2.2
  · rw [parse_eq]
    refine Nat.le_trans (chars_setAll_le List.nodup_nil) ?_
    rw [chars_map_cut, chars_nil, Nat.zero_add]
    exact hchars
  · rw [parse_eq]
    refine Nat.le_trans length_setAll_le ?_
    rw [List.length_map, List.length_nil, Nat.zero_add]
    exact hcount

/-- A name whose last kept character is white space with more behind it. -/
def CutAtSpace (space : Char → Bool) (name : List Char) : Prop :=
  ∃ c, name[NAME_CHARS - 1]? = some c ∧ space c = true ∧ NAME_CHARS < name.length

theorem trim_cut_iff {name : List Char} (h : Text.trimMatches space name = name) :
    Text.trimMatches space (name.take NAME_CHARS) = name.take NAME_CHARS ↔ ¬ CutAtSpace space name := by
  obtain ⟨hfirst, hlast⟩ := Text.trimMatches_eq_self_iff.1 h
  rw [Text.trimMatches_eq_self_iff]
  have hzero : ¬ NAME_CHARS = 0 := by decide
  constructor
  · rintro ⟨-, hend⟩ ⟨c, hc, hspace, -⟩
    have hfalse : space c = false := by
      refine hend c ?_
      rw [List.getLast?_take, if_neg hzero, hc]
      rfl
    exact Bool.false_ne_true (hfalse.symm.trans hspace)
  · intro hcut
    constructor
    · intro c hc
      rw [List.head?_take, if_neg hzero] at hc
      exact hfirst c hc
    · intro c hc
      rcases Nat.lt_or_ge NAME_CHARS name.length with hlong | hshort
      · rw [List.getLast?_take, if_neg hzero] at hc
        cases hd : name[NAME_CHARS - 1]? with
        | none =>
          have := List.getElem?_eq_none_iff.1 hd
          omega
        | some d =>
          rw [hd] at hc
          obtain rfl : d = c := Option.some.inj hc
          rw [Bool.eq_false_iff]
          intro hspace
          exact hcut ⟨d, hd, hspace, hlong⟩
      · rw [List.take_of_length_le hshort] at hc
        exact hlast c hc

section Again

variable (htext : ∀ s, text (.str s) = s)

include htext

theorem entry_fileJson (f : NamedFile) :
    entry space text (fileJson f) =
      if (Text.trimMatches space f.1).isEmpty || f.2.length > MAX_FILE_CHARS then none
      else some (Text.trimMatches space f.1, f.2) := by
  have hname : rawName space text [("name", .str f.1), ("content", .str f.2)] =
      Text.trimMatches space f.1 := by
    rw [rawName, List.lookup_cons_self]
    cases hempty : f.1 with
    | nil => rfl
    | cons c t =>
      have htruthy : truthy (.str (c :: t)) = true := rfl
      rw [Option.filter_some, if_pos htruthy, Option.elim_some, htext]
  have hcontent : List.lookup "content" [("name", Json.str f.1), ("content", .str f.2)] =
      some (.str f.2) := rfl
  simp only [fileJson, entry, hname, hcontent]

theorem accepted_map_fileJson {files : List NamedFile} (h : Storable space files) (total : Nat)
    (htotal : total + chars files ≤ MAX_TOTAL_CHARS) :
    accepted space text total (files.map fileJson) = files := by
  obtain ⟨-, hnamed, htrimmed, hsizes, -, -⟩ := h
  induction files generalizing total with
  | nil => rfl
  | cons f files ih =>
    obtain ⟨hf, hnamed⟩ := List.forall_mem_cons.1 hnamed
    obtain ⟨htrim, htrimmed⟩ := List.forall_mem_cons.1 htrimmed
    obtain ⟨hsize, hsizes⟩ := List.forall_mem_cons.1 hsizes
    rw [chars_cons] at htotal
    have hentry : entry space text (fileJson f) = some f := by
      rw [entry_fileJson htext, htrim, if_neg]
      simp only [Bool.or_eq_true, List.isEmpty_iff, decide_eq_true_eq, not_or]
      exact ⟨hf.1, Nat.not_lt.2 hsize⟩
    rw [List.map_cons, accepted_of_some hentry, if_neg (by omega),
      ih (total + f.2.length) (by omega) hnamed htrimmed hsizes]

theorem parse_toJson {files : List NamedFile} (h : Storable space files) :
    parse space text (some (toJson files)) = files := by
  have htake : (files.map fileJson).take MAX_FILES = files.map fileJson := by
    refine List.take_of_length_le ?_
    rw [List.length_map]
    exact h.count
  have hcut : files.map cut = files := by
    refine (List.map_congr_left fun f hf => ?_).trans (List.map_id files)
    show (f.1.take NAME_CHARS, f.2) = f
    rw [List.take_of_length_le (h.named f hf).2]
  rw [parse_eq, toJson, acceptedOf, htake,
    accepted_map_fileJson htext h 0 (by rw [Nat.zero_add]; exact h.total), hcut]
  exact setAll_of_nodup h.distinct

theorem parse_toJson_iff (files : List NamedFile) :
    parse space text (some (toJson files)) = files ↔ Storable space files := by
  constructor
  · intro h
    have htrimmed : ∀ f ∈ parse space text (some (toJson files)),
        Text.trimMatches space f.1 = f.1 := by
      intro f hf
      -- the name comes from an entry, whose name is not longer than the cut
      have hshort : ∀ g ∈ files, g.1.length ≤ NAME_CHARS := by
        intro g hg
        rw [← h, parse_eq] at hg
        rcases mem_setAll hg with hnil | hcut
        · cases hnil
        · obtain ⟨g', -, rfl⟩ := List.mem_map.1 hcut
          exact List.length_take_le _ _
      rw [parse_eq] at hf
      rcases mem_setAll hf with hnil | hcut
      · cases hnil
      · obtain ⟨a, ha, rfl⟩ := List.mem_map.1 hcut
        obtain ⟨x, hx, hentry⟩ := exists_of_mem_accepted ha
        obtain ⟨g, hg, rfl⟩ := List.mem_map.1 (List.mem_of_mem_take hx)
        rw [entry_fileJson htext] at hentry
        split_ifs at hentry
        obtain rfl := Option.some.inj hentry
        have hlen : (Text.trimMatches space g.1).length ≤ NAME_CHARS :=
          Nat.le_trans (Text.length_trimMatches_le space g.1) (hshort g hg)
        show Text.trimMatches space ((Text.trimMatches space g.1).take NAME_CHARS) = _
        rw [List.take_of_length_le hlen, Text.trimMatches_idem]
        exact (List.take_of_length_le hlen).symm
    have hstorable := storable_parse (some (toJson files)) htrimmed
    rwa [h] at hstorable
  · exact parse_toJson htext

/-- Reading again what was written back gives the same list exactly if no name was cut
behind white space. -/
theorem parse_parse_iff (v : Option Json) :
    parse space text (some (toJson (parse space text v))) = parse space text v ↔
      ∀ f ∈ acceptedOf space text v, ¬ CutAtSpace space f.1 := by
  rw [parse_toJson_iff htext]
  have hspec : ∀ g ∈ acceptedOf space text v, Text.trimMatches space g.1 = g.1 := by
    intro g hg
    unfold acceptedOf at hg
    split at hg
    · obtain ⟨x, -, hx⟩ := exists_of_mem_accepted hg
      exact (entry_spec hx).2.1
    · cases hg
  constructor
  · intro h f hf
    rw [← trim_cut_iff (hspec f hf)]
    have hname : f.1.take NAME_CHARS ∈ names (parse space text v) := by
      rw [parse_eq, mem_names_setAll]
      right
      rw [names, List.map_map]
      exact List.mem_map.2 ⟨f, hf, rfl⟩
    obtain ⟨g, hg, hgname⟩ := List.mem_map.1 hname
    rw [← hgname]
    exact h.trimmed g hg
  · intro h
    refine storable_parse v fun f hf => ?_
    rw [parse_eq] at hf
    rcases mem_setAll hf with hnil | hcut
    · cases hnil
    · obtain ⟨g, hg, rfl⟩ := List.mem_map.1 hcut
      exact (trim_cut_iff (hspec g hg)).2 (h g hg)

end Again

end Read

end Portal.FileLists
