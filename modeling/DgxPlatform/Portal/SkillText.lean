import DgxPlatform.Portal.Accounts
import DgxPlatform.Lib.Json
import DgxPlatform.Lib.Trim
import Mathlib.Data.List.Chain

/-! # The text of a skill

A `SKILL.md` begins with a front matter, `key: value` lines between two lines `---`, read
by a small subset of YAML. A skill written in the interface has no file: `manual_skill_md`
writes one for it.
-/

namespace Portal.Skills

open Accounts (pyIsSpace pyStrip)

def NAME_MAX : Nat := 64

def DESCRIPTION_MAX : Nat := 1024

def INSTRUCTIONS_MAX : Nat := 100000

/-- `to_lowercase`, the letters and numbers by general category, and the compact text of
a JSON value. -/
structure Env where
  lowercase : Text.Lowercase
  alphanumeric : Char → Bool
  jsonText : Json → List Char
  alphanumeric_ascii : ∀ c, c.toNat < 128 → alphanumeric c = c.isAlphanum

variable (env : Env)

/-! ## Front matter -/

/-- `memnorm::is_word`. -/
def isWord (c : Char) : Bool := c = '_' || env.alphanumeric c

/-- `key: value`. -/
def keyValue : List Char → Option (List Char × List Char)
  | [] => none
  | first :: line =>
      if first.isAlpha || first = '_' then
        let inKey := fun c => isWord env c || c = '-'
        match (line.dropWhile inKey).dropWhile pyIsSpace with
        | ':' :: value => some (first :: line.takeWhile inKey, value.dropWhile pyIsSpace)
        | _ => none
      else none

/-- A value without the quotes around it. -/
def unquote (value : List Char) : List Char :=
  match value with
  | [] => []
  | q :: rest =>
      if rest.getLast? = some q ∧ (q = '"' ∨ q = '\x27') then rest.dropLast else value

/-- What the front matter says, the last insertion first. Every value is a text. -/
abbrev Meta := List (List Char × List Char)

/-- The reader between two lines: what was read, the last key, and the lines that go on
with its value. -/
structure Reader where
  entries : Meta
  key : Option (List Char)
  block : List (List Char)

/-- The markers of a block. -/
def BLOCKS : List (List Char) :=
  [">".toList, "|".toList, ">-".toList, "|-".toList, ">+".toList, "|+".toList]

/-- `flush`: the lines of the block join the value of the last key. -/
def flush (r : Reader) : Meta :=
  match r.key with
  | none => r.entries
  | some k =>
      if r.block = [] then r.entries
      else
        let current := (r.entries.lookup k).getD []
        let stripped := r.block.map pyStrip
        let joined :=
          if current ∈ BLOCKS then
            (if current.head? = some '|' then ['\n'] else [' ']).intercalate stripped
          else [' '].intercalate (current :: stripped)
        (k, pyStrip joined) :: r.entries

/-- One line of the front matter. -/
def readLine (r : Reader) (line : List Char) : Reader :=
  if (line.head? = some ' ' ∨ line.head? = some '\t') ∧ r.key.isSome then
    { r with block := r.block ++ [line] }
  else
    match keyValue env line with
    | none => ⟨flush r, none, []⟩
    | some (k, v) => ⟨(k, unquote (pyStrip v)) :: flush r, some k, []⟩

/-- The line that opens and closes a front matter. -/
def fence : List Char := ['-', '-', '-']

/-- `parse_front_matter`: what it says, and the body behind it. -/
def parseFrontMatter (text : List Char) : Meta × List Char :=
  let text := text.dropWhile (· = '\uFEFF')
  if fence <+: text then
    let lines := (text.splitOn '\n').tail
    match lines.findIdx? fun l => pyStrip l = fence with
    | none => ([], text)
    | some i =>
        (flush ((lines.take i).foldl (readLine env) ⟨[], none, []⟩),
          (['\n'].intercalate (lines.drop (i + 1))).dropWhile (· = '\n'))
  else ([], text)

/-! ## Names -/

/-- `py_str_or_empty`: Python's `str(x or '')`. -/
def pyStrOrEmpty : Option Json → List Char
  | none | some .null | some (.bool false) => []
  | some (.str s) => s
  | some (.bool true) => "True".toList
  | some (.num n) => if n = 0 then [] else env.jsonText (.num n)
  | some other => env.jsonText other

def isSlug (c : Char) : Bool := c.isLower || c.isDigit || c = '-'

/-- Every run of other characters becomes one hyphen; `inRun` inside such a run. -/
def hyphenate (inRun : Bool) : List Char → List Char
  | [] => []
  | c :: t =>
      if isSlug c then c :: hyphenate false t
      else if inRun then hyphenate true t
      else '-' :: hyphenate true t

/-- No two hyphens in a row; `dash` when what is kept so far ends with one. -/
def squeeze (dash : Bool) : List Char → List Char
  | [] => []
  | c :: t => if c = '-' ∧ dash then squeeze dash t else c :: squeeze (c = '-') t

/-- `normalize_name`. -/
def normalizeName (name : Option Json) : List Char :=
  let lowered := env.lowercase.lower (pyStrip (pyStrOrEmpty env name))
  (squeeze false (Text.trimMatches (· = '-') (hyphenate false lowered))).take NAME_MAX

/-! ## One skill -/

/-- A skill read from files: path and text, first-seen order. -/
structure Skill where
  name : List Char
  description : List Char
  instructions : List Char
  version : List Char
  files : List (List Char × List Char)
deriving DecidableEq

/-- The file a skill is read from. -/
def isSkillMd (path : List Char) : Bool := env.lowercase.lower path = "skill.md".toList

/-- The name in the front matter, or that of the folder. -/
def nameOf (entries : Meta) (folderName : List Char) : List Char :=
  normalizeName env (some (.str (((entries.lookup "name".toList).filter (· ≠ [])).getD folderName)))

def descriptionOf (entries : Meta) : List Char :=
  (pyStrip ((entries.lookup "description".toList).getD [])).take DESCRIPTION_MAX

def instructionsOf (body : List Char) : List Char := (pyStrip body).take INSTRUCTIONS_MAX

def versionOf (entries : Meta) : List Char :=
  (pyStrip ((entries.lookup "version".toList).getD [])).take 40

/-- `skill_from_files`: one skill folder, or the refusal. -/
def skillFromFiles (files : List (List Char × List Char)) (folderName : List Char) :
    Except (List Char) Skill :=
  match files.find? fun f => isSkillMd env f.1 with
  | none => .error "SKILL.md manquant.".toList
  | some (_, md) =>
      let (entries, body) := parseFrontMatter env md
      let name := nameOf env entries folderName
      if name = [] then
        .error "Nom de compétence manquant (champ « name » du SKILL.md).".toList
      else if descriptionOf entries = [] then
        .error ("« ".toList ++ name ++
          " » : description manquante (champ « description »).".toList)
      else if pyStrip body = [] then
        .error ("« ".toList ++ name ++ " » : SKILL.md sans instructions.".toList)
      else
        .ok {
          name
          description := descriptionOf entries
          instructions := instructionsOf body
          version := versionOf entries
          files }

/-- `replace('\n', " ").replace('"', "'")`. -/
def oneLine (description : List Char) : List Char :=
  (description.map fun c => if c = '\n' then ' ' else c).map fun c => if c = '"' then '\x27' else c

/-- `manual_skill_md`: the file of a skill written in the interface. -/
def manualSkillMd (name description instructions : List Char) : List Char :=
  "---\nname: ".toList ++ name ++ "\ndescription: \"".toList ++ oneLine description ++
    "\"\n---\n\n".toList ++ pyStrip instructions ++ ['\n']

/-! ## Normalised names -/

section Names

variable {name t : List Char} {c : Char}

/-- No two neighbours are hyphens. -/
abbrev SingleHyphens (t : List Char) : Prop := t.IsChain fun a b => ¬ (a = '-' ∧ b = '-')

theorem toNat_of_isSlug (h : isSlug c = true) :
    97 ≤ c.toNat ∧ c.toNat ≤ 122 ∨ 48 ≤ c.toNat ∧ c.toNat ≤ 57 ∨ c.toNat = 45 := by
  simp only [isSlug, Bool.or_eq_true, decide_eq_true_eq] at h
  obtain (hlow | hdig) | rfl := h
  · have hbounds : (c.val ≥ 'a'.val && c.val ≤ 'z'.val) = true := hlow
    exact .inl (by simpa [UInt32.le_iff_toNat_le, ← Char.toNat_val] using hbounds)
  · exact .inr (.inl (by simpa [Char.isDigit, UInt32.le_iff_toNat_le, ← Char.toNat_val] using hdig))
  · exact .inr (.inr rfl)

theorem toLower_of_isSlug (h : isSlug c = true) : c.toLower = c := by
  have hn := toNat_of_isSlug h
  unfold Char.toLower
  split
  · next h =>
      obtain ⟨h1, h2⟩ := h
      have h1' : 65 ≤ c.toNat := h1
      have h2' : c.toNat ≤ 90 := h2
      omega
  · rfl

theorem pyIsSpace_of_isSlug (h : isSlug c = true) : pyIsSpace c = false := by
  have hn := toNat_of_isSlug h
  rw [Bool.eq_false_iff]
  intro hspace
  simp only [pyIsSpace, Text.isWhitespace, Bool.or_eq_true, Bool.and_eq_true, decide_eq_true_eq,
    beq_iff_eq] at hspace
  omega

theorem forall_hyphenate (run : Bool) (t : List Char) : ∀ c ∈ hyphenate run t, isSlug c = true := by
  induction t generalizing run with
  | nil => exact List.forall_mem_nil _
  | cons c t ih =>
    unfold hyphenate
    split_ifs with hslug hrun
    · exact List.forall_mem_cons.2 ⟨hslug, ih false⟩
    · exact ih true
    · exact List.forall_mem_cons.2 ⟨by decide, ih true⟩

theorem hyphenate_eq_self (h : ∀ c ∈ t, isSlug c = true) (run : Bool) : hyphenate run t = t := by
  induction t generalizing run with
  | nil => rfl
  | cons c t ih =>
    obtain ⟨hc, ht⟩ := List.forall_mem_cons.1 h
    rw [hyphenate, if_pos hc, ih ht]

theorem mem_squeeze {dash : Bool} (h : c ∈ squeeze dash t) : c ∈ t := by
  induction t generalizing dash with
  | nil => exact h
  | cons d t ih =>
    unfold squeeze at h
    split_ifs at h with hskip
    · exact List.mem_cons_of_mem d (ih h)
    · obtain rfl | hmem := List.mem_cons.1 h
      · exact List.mem_cons_self
      · exact List.mem_cons_of_mem d (ih hmem)

theorem head?_squeeze (t : List Char) : (squeeze true t).head? ≠ some '-' := by
  induction t with
  | nil => simp [squeeze]
  | cons c t ih =>
    unfold squeeze
    split_ifs with hskip
    · exact ih
    · intro h
      exact hskip ⟨Option.some.inj h, rfl⟩

theorem singleHyphens_squeeze (dash : Bool) (t : List Char) : SingleHyphens (squeeze dash t) := by
  induction t generalizing dash with
  | nil => exact List.isChain_nil
  | cons c t ih =>
    unfold squeeze
    split_ifs with hskip
    · exact ih dash
    · refine List.isChain_cons.2 ⟨fun d hd hboth => ?_, ih _⟩
      obtain ⟨rfl, rfl⟩ := hboth
      exact head?_squeeze t hd

theorem squeeze_eq_self (h : SingleHyphens t) (dash : Bool) (hdash : dash = true → t.head? ≠ some '-') :
    squeeze dash t = t := by
  induction t generalizing dash with
  | nil => rfl
  | cons c t ih =>
    obtain ⟨hhead, htail⟩ := List.isChain_cons.1 h
    have hkeep : ¬ (c = '-' ∧ dash) := by
      rintro ⟨rfl, hd⟩
      exact hdash hd rfl
    rw [squeeze, if_neg hkeep, ih htail _ ?_]
    intro hc hnext
    exact hhead '-' hnext ⟨of_decide_eq_true hc, rfl⟩

/-- What `normalize_name` gives back. -/
structure Normalised (name : List Char) : Prop where
  slug : ∀ c ∈ name, isSlug c = true
  first : name.head? ≠ some '-'
  single : SingleHyphens name
  length : name.length ≤ NAME_MAX

theorem normalised_normalizeName (v : Option Json) : Normalised (normalizeName env v) := by
  unfold normalizeName
  set lowered := env.lowercase.lower (pyStrip (pyStrOrEmpty env v))
  set trimmed := Text.trimMatches (· = '-') (hyphenate false lowered) with htrim
  have hmem : ∀ c ∈ trimmed, isSlug c = true := by
    obtain ⟨a, b, hab, -, -⟩ := Text.exists_trimMatches (· = '-') (hyphenate false lowered)
    intro c hc
    refine forall_hyphenate false lowered c ?_
    rw [hab]
    exact List.mem_append_left _ (List.mem_append_right _ hc)
  have hhead : trimmed.head? ≠ some '-' := by
    intro h
    have hself := Text.trimMatches_eq_self_iff.1
      (Text.trimMatches_idem (fun c : Char => decide (c = '-')) (hyphenate false lowered))
    exact absurd (hself.1 '-' h) (by decide)
  have hfirst : (squeeze false trimmed).head? ≠ some '-' := by
    cases htr : trimmed with
    | nil => simp [squeeze]
    | cons c t =>
      intro h
      rw [squeeze, if_neg (by simp)] at h
      rw [htr] at hhead
      exact hhead h
  refine ⟨fun c hc => hmem c (mem_squeeze (List.mem_of_mem_take hc)), fun h => ?_,
    (singleHyphens_squeeze false trimmed).take NAME_MAX, List.length_take_le _ _⟩
  rw [List.head?_take] at h
  split_ifs at h
  exact hfirst h

/-- A normalised name that does not end with a hyphen is its own normal form. -/
theorem normalizeName_eq_self (h : Normalised name) (hlast : name.getLast? ≠ some '-') :
    normalizeName env (some (.str name)) = name := by
  have hstrip : pyStrip name = name :=
    Text.trimMatches_of_forall fun c hc => pyIsSpace_of_isSlug (h.slug c hc)
  have hlower : env.lowercase.lower name = name := by
    rw [env.lowercase.ascii]
    · calc name.map Char.toLower
          = name.map id := List.map_congr_left fun c hc => toLower_of_isSlug (h.slug c hc)
        _ = name := List.map_id name
    · intro c hc
      have hn := toNat_of_isSlug (h.slug c hc)
      omega
  have htrim : Text.trimMatches (· = '-') name = name := by
    rw [Text.trimMatches_eq_self_iff]
    constructor
    · intro c hc
      exact decide_eq_false fun heq => h.first (heq ▸ hc)
    · intro c hc
      exact decide_eq_false fun heq => hlast (heq ▸ hc)
  simp only [normalizeName, pyStrOrEmpty, hstrip, hlower, hyphenate_eq_self h.slug, htrim]
  rw [squeeze_eq_self h.single false fun hf => absurd hf Bool.false_ne_true]
  exact List.take_of_length_le h.length

end Names

/-! ## Lines of the front matter -/

section Lines

variable {env} {key value : List Char} {k : Char}

theorem isWord_ascii {c : Char} (h : c.toNat < 128) : isWord env c = (c = '_' || c.isAlphanum) := by
  rw [isWord, env.alphanumeric_ascii c h]

/-- A key of ASCII letters is read with what stands behind the colon. -/
theorem keyValue_colon (hk : ∀ c ∈ k :: key, c.isAlpha = true) (value : List Char) :
    keyValue env (k :: key ++ ':' :: value) = some (k :: key, value.dropWhile pyIsSpace) := by
  obtain ⟨hfirst, hrest⟩ := List.forall_mem_cons.1 hk
  have hkey : ∀ c ∈ key, (isWord env c || decide (c = '-')) = true := by
    intro c hc
    have halnum : c.isAlphanum = true := by simp [Char.isAlphanum, hrest c hc]
    have hn := Text.toNat_of_isAlphanum halnum
    rw [isWord_ascii (by omega), halnum]
    simp
  have hcolon : isWord env ':' = false := by
    rw [isWord_ascii (by decide)]
    decide
  have htake : (key ++ ':' :: value).takeWhile (fun c => isWord env c || decide (c = '-')) = key := by
    rw [List.takeWhile_append_of_pos hkey, List.takeWhile_cons_of_neg (by simp [hcolon]), List.append_nil]
  have hdrop : (key ++ ':' :: value).dropWhile (fun c => isWord env c || decide (c = '-')) = ':' :: value := by
    rw [List.dropWhile_append_of_pos hkey, List.dropWhile_cons_of_neg (by simp [hcolon])]
  have hspace : (':' :: value).dropWhile pyIsSpace = ':' :: value :=
    List.dropWhile_cons_of_neg (by decide)
  rw [List.cons_append, keyValue, if_pos (by simp [hfirst])]
  simp only [htake, hdrop, hspace]

theorem pyIsSpace_of_isAlpha {c : Char} (h : c.isAlpha = true) : pyIsSpace c = false := by
  have hn := Text.toNat_of_isAlphanum (c := c) (by simp [Char.isAlphanum, h])
  rw [Bool.eq_false_iff]
  intro hspace
  simp only [pyIsSpace, Text.isWhitespace, Bool.or_eq_true, Bool.and_eq_true, decide_eq_true_eq,
    beq_iff_eq] at hspace
  omega

/-- A line that begins with a key ends the block and sets the key. -/
theorem readLine_key (r : Reader) (hk : ∀ c ∈ k :: key, c.isAlpha = true) (hvalue : pyStrip value = value) :
    readLine env r (k :: key ++ ':' :: ' ' :: value) =
      ⟨(k :: key, unquote value) :: flush r, some (k :: key), []⟩ := by
  have hspace := pyIsSpace_of_isAlpha (hk k List.mem_cons_self)
  have hblank : ¬ (((k :: key ++ ':' :: ' ' :: value).head? = some ' ' ∨
      (k :: key ++ ':' :: ' ' :: value).head? = some '\t') ∧ r.key.isSome) := by
    rintro ⟨h | h, -⟩
    · rw [Option.some.inj h] at hspace
      exact absurd hspace (by decide)
    · rw [Option.some.inj h] at hspace
      exact absurd hspace (by decide)
  have hstrip : pyStrip ((' ' :: value).dropWhile pyIsSpace) = value := by
    rw [List.dropWhile_cons_of_pos (by decide), pyStrip, Text.trimMatches, List.dropWhile_idempotent]
    exact hvalue
  rw [readLine, if_neg hblank, keyValue_colon hk]
  simp only [hstrip]

theorem head?_pyStrip {c : Char} {t : List Char} (hc : pyIsSpace c = false) :
    (pyStrip (c :: t)).head? = some c := by
  have hstart : (c :: t).dropWhile pyIsSpace = c :: t := List.dropWhile_cons_of_neg (by simp [hc])
  have hend := Text.trimEndMatches_append_cons (a := []) (b := t) hc
  rw [pyStrip, Text.trimMatches, hstart]
  exact congrArg List.head? hend

/-- A line that begins with a letter does not close the front matter. -/
theorem pyStrip_ne_fence {c : Char} {t : List Char} (hc : c.isAlpha = true) : pyStrip (c :: t) ≠ fence := by
  intro h
  have hhead := head?_pyStrip (t := t) (pyIsSpace_of_isAlpha hc)
  rw [h] at hhead
  rw [← Option.some.inj hhead] at hc
  cases hc

theorem unquote_quoted (value : List Char) : unquote ('"' :: (value ++ ['"'])) = value := by
  have hlast : (value ++ ['"']).getLast? = some '"' := List.getLast?_concat
  rw [unquote, if_pos ⟨hlast, .inl rfl⟩, List.dropLast_concat]

theorem unquote_of_isSlug {value : List Char} (h : ∀ c ∈ value, isSlug c = true) : unquote value = value := by
  cases value with
  | nil => rfl
  | cons q rest =>
    have hq := h q List.mem_cons_self
    refine if_neg ?_
    rintro ⟨-, rfl | rfl⟩
    · exact absurd hq (by decide)
    · exact absurd hq (by decide)

end Lines

/-! ## A skill written in the interface -/

section Manual

variable {env} {name description instructions : List Char}

theorem not_mem_oneLine (description : List Char) : '\n' ∉ oneLine description := by
  intro h
  obtain ⟨c, hc, hquote⟩ := List.mem_map.1 h
  obtain ⟨d, -, hline⟩ := List.mem_map.1 hc
  split_ifs at hquote with hq
  · exact absurd hquote (by decide)
  · subst hquote
    split_ifs at hline with hd
    · exact absurd hline (by decide)
    · exact hd hline

theorem manualSkillMd_eq : manualSkillMd name description instructions =
    fence ++ '\n' :: (("name".toList ++ ':' :: ' ' :: name) ++ '\n' ::
      (("description".toList ++ ':' :: ' ' :: '"' :: (oneLine description ++ ['"'])) ++ '\n' ::
        (fence ++ '\n' :: '\n' :: (pyStrip instructions ++ ['\n'])))) := by
  have hfirst : "---\nname: ".toList = fence ++ '\n' :: ("name".toList ++ [':', ' ']) := by decide +kernel
  have hsecond : "\ndescription: \"".toList = '\n' :: ("description".toList ++ [':', ' ', '"']) := by decide +kernel
  have hthird : "\"\n---\n\n".toList = '"' :: '\n' :: (fence ++ ['\n', '\n']) := by decide +kernel
  unfold manualSkillMd
  rw [hfirst, hsecond, hthird]
  generalize "name".toList = n
  generalize "description".toList = d
  simp only [List.append_assoc, List.cons_append, List.nil_append]

/-- A text whose first four lines are the fence, two lines and the fence. -/
theorem parse_lines {l l' rest : List Char} (hl : '\n' ∉ l) (hl' : '\n' ∉ l') (hopen : pyStrip l ≠ fence)
    (hopen' : pyStrip l' ≠ fence) :
    parseFrontMatter env (fence ++ '\n' :: (l ++ '\n' :: (l' ++ '\n' :: (fence ++ '\n' :: rest)))) =
      (flush (readLine env (readLine env ⟨[], none, []⟩ l) l'), rest.dropWhile (· = '\n')) := by
  have hfence : '\n' ∉ fence := by decide
  set text := fence ++ '\n' :: (l ++ '\n' :: (l' ++ '\n' :: (fence ++ '\n' :: rest))) with htext
  have hbom : text.dropWhile (· = '\uFEFF') = text := List.dropWhile_cons_of_neg (by decide)
  have hlines : text.splitOn '\n' = fence :: l :: l' :: fence :: rest.splitOn '\n' := by
    rw [htext, List.splitOn_append_cons_self_of_not_mem hfence,
      List.splitOn_append_cons_self_of_not_mem hl, List.splitOn_append_cons_self_of_not_mem hl',
      List.splitOn_append_cons_self_of_not_mem hfence]
  have hclose : (l :: l' :: fence :: rest.splitOn '\n').findIdx? (fun l => pyStrip l = fence) = some 2 := by
    have hself : pyStrip fence = fence := by decide
    rw [List.findIdx?_cons, if_neg (by simpa using hopen), List.findIdx?_cons, if_neg (by simpa using hopen'),
      List.findIdx?_cons, if_pos (by simpa using hself)]
    rfl
  unfold parseFrontMatter
  simp only [hbom]
  rw [if_pos (List.prefix_append fence _), hlines, List.tail_cons, hclose]
  have hbody : ['\n'].intercalate ((l :: l' :: fence :: rest.splitOn '\n').drop (2 + 1)) = rest :=
    List.intercalate_splitOn '\n'
  simp only [hbody]
  rfl

theorem parse_manual (hname : ∀ c ∈ name, isSlug c = true) (hins : pyStrip instructions ≠ []) :
    parseFrontMatter env (manualSkillMd name description instructions) =
      ([("description".toList, oneLine description), ("name".toList, name)],
        pyStrip instructions ++ ['\n']) := by
  have hnameKey : "name".toList = 'n' :: "ame".toList := by decide
  have hdescKey : "description".toList = 'd' :: "escription".toList := by decide
  have hnameAlpha : ∀ c ∈ 'n' :: "ame".toList, c.isAlpha = true := List.all_eq_true.1 (by decide)
  have hdescAlpha : ∀ c ∈ 'd' :: "escription".toList, c.isAlpha = true := List.all_eq_true.1 (by decide)
  have hstrip : pyStrip name = name :=
    Text.trimMatches_of_forall fun c hc => pyIsSpace_of_isSlug (hname c hc)
  have hquoted : pyStrip ('"' :: (oneLine description ++ ['"'])) = '"' :: (oneLine description ++ ['"']) := by
    refine Text.trimMatches_eq_self_iff.2 ⟨fun c hc => ?_, fun c hc => ?_⟩
    · rw [← Option.some.inj hc]
      decide
    · rw [← List.cons_append, List.getLast?_concat] at hc
      rw [← Option.some.inj hc]
      decide
  have hnameLine : '\n' ∉ "name".toList ++ ':' :: ' ' :: name := by
    intro h
    obtain h | h := List.mem_append.1 h
    · exact absurd h (by decide)
    · simp only [List.mem_cons, Char.reduceEq, false_or] at h
      exact absurd (hname _ h) (by decide)
  have hdescLine : '\n' ∉ "description".toList ++ ':' :: ' ' :: '"' :: (oneLine description ++ ['"']) := by
    intro h
    obtain h | h := List.mem_append.1 h
    · exact absurd h (by decide)
    · simp only [List.mem_cons, Char.reduceEq, false_or, List.mem_append, List.not_mem_nil, or_false] at h
      exact not_mem_oneLine description h
  have hbody : ('\n' :: (pyStrip instructions ++ ['\n'])).dropWhile (· = '\n') =
      pyStrip instructions ++ ['\n'] := by
    obtain ⟨c, t, hct⟩ := List.exists_cons_of_ne_nil hins
    have hspace := (Text.trimMatches_eq_self_iff.1 (Text.trimMatches_idem pyIsSpace instructions)).1 c
    have hc : c ≠ '\n' := by
      rintro rfl
      exact absurd (hspace (by rw [← pyStrip, hct]; rfl)) (by decide)
    rw [List.dropWhile_cons_of_pos (by decide), hct, List.cons_append]
    exact List.dropWhile_cons_of_neg (by simpa using hc)
  rw [manualSkillMd_eq, parse_lines hnameLine hdescLine, hbody, hnameKey, hdescKey,
    readLine_key _ hnameAlpha hstrip, readLine_key _ hdescAlpha hquoted, unquote_quoted,
    unquote_of_isSlug hname]
  · rfl
  · rw [hnameKey]
    exact pyStrip_ne_fence (by decide)
  · rw [hdescKey]
    exact pyStrip_ne_fence (by decide)

theorem isSkillMd_upper : isSkillMd env "SKILL.md".toList = true := by
  rw [isSkillMd, env.lowercase.ascii _ (by decide)]
  decide

theorem pyStrip_concat (t : List Char) : pyStrip (pyStrip t ++ ['\n']) = pyStrip t := by
  by_cases ht : pyStrip t = []
  · rw [ht]
    decide
  · obtain ⟨c, u, hcu⟩ := List.exists_cons_of_ne_nil ht
    have hself := Text.trimMatches_idem pyIsSpace t
    have hc : pyIsSpace c = false :=
      (Text.trimMatches_eq_self_iff.1 hself).1 c (by rw [← pyStrip, hcu]; rfl)
    have hsolid : Text.Solid pyIsSpace (pyStrip t) := ⟨c, by rw [hcu]; exact List.mem_cons_self, hc⟩
    calc pyStrip (pyStrip t ++ ['\n'])
        = Text.trimEndMatches pyIsSpace ((pyStrip t).dropWhile pyIsSpace ++ ['\n']) := by
          rw [← Text.dropWhile_append_of_solid hsolid]
          rfl
      _ = Text.trimEndMatches pyIsSpace ((pyStrip t).dropWhile pyIsSpace) :=
          Text.trimEndMatches_append_of_all (List.forall_mem_singleton.2 (by decide))
      _ = pyStrip t := hself

theorem lookup_manual (d n : List Char) :
    let entries : Meta := [("description".toList, d), ("name".toList, n)]
    entries.lookup "name".toList = some n ∧ entries.lookup "description".toList = some d ∧
      entries.lookup "version".toList = none := by
  have hname : ("name".toList == "description".toList) = false := by decide +kernel
  have hversion : ("version".toList == "description".toList) = false := by decide +kernel
  have hversion' : ("version".toList == "name".toList) = false := by decide +kernel
  refine ⟨?_, List.lookup_cons_self, ?_⟩
  · rw [List.lookup_cons, hname]
    exact List.lookup_cons_self
  · rw [List.lookup_cons, hversion]
    simp only [List.lookup_cons, List.lookup_nil, hversion']

/-- The file written for a skill is read as that skill. -/
theorem manual_parses (env : Env) (v : Option Json) (name description instructions folder : List Char)
    (hname : normalizeName env v = name) (hne : name ≠ []) (hlast : name.getLast? ≠ some '-')
    (hdesc : pyStrip (oneLine description) ≠ []) (hlen : description.length ≤ DESCRIPTION_MAX)
    (hins : pyStrip instructions ≠ []) (hlimit : (pyStrip instructions).length ≤ INSTRUCTIONS_MAX) :
    skillFromFiles env [("SKILL.md".toList, manualSkillMd name description instructions)] folder =
      .ok {
        name
        description := pyStrip (oneLine description)
        instructions := pyStrip instructions
        version := []
        files := [("SKILL.md".toList, manualSkillMd name description instructions)] } := by
  have hnorm : Normalised name := hname ▸ normalised_normalizeName env v
  have hfind : [("SKILL.md".toList, manualSkillMd name description instructions)].find?
      (fun f => isSkillMd env f.1) = some ("SKILL.md".toList, manualSkillMd name description instructions) :=
    List.find?_cons_of_pos isSkillMd_upper
  have hdescLen : (pyStrip (oneLine description)).length ≤ DESCRIPTION_MAX := by
    have hone : (oneLine description).length = description.length := by
      rw [oneLine, List.length_map, List.length_map]
    have hle := Text.length_trimMatches_le pyIsSpace (oneLine description)
    rw [pyStrip]
    omega
  obtain ⟨hlookName, hlookDesc, hlookVersion⟩ := lookup_manual (oneLine description) name
  have hsource : (((some name).filter (· ≠ [])).getD folder) = name := by
    rw [Option.filter_some_pos (by simpa using hne)]
    rfl
  unfold skillFromFiles
  rw [hfind]
  simp only [parse_manual hnorm.slug hins, nameOf, descriptionOf, instructionsOf, versionOf, hlookName,
    hlookDesc, hlookVersion, hsource, normalizeName_eq_self env hnorm hlast, Option.getD_some,
    Option.getD_none, pyStrip_concat]
  rw [if_neg hne, List.take_of_length_le hdescLen, if_neg hdesc, if_neg hins,
    List.take_of_length_le hlimit]
  rfl

/-- The tables of ASCII, and no text for other JSON values. -/
def asciiEnv : Env where
  lowercase := Text.asciiLowercase
  alphanumeric := Char.isAlphanum
  jsonText _ := []
  alphanumeric_ascii _ _ := rfl

theorem manual_parses_demo :
    skillFromFiles asciiEnv [("SKILL.md".toList,
        manualSkillMd "demo-1".toList "Says: \"hi\"\n".toList "---\nname: x\n---".toList)] [] =
      .ok {
        name := "demo-1".toList
        description := pyStrip (oneLine "Says: \"hi\"\n".toList)
        instructions := pyStrip "---\nname: x\n---".toList
        version := []
        files := [("SKILL.md".toList,
          manualSkillMd "demo-1".toList "Says: \"hi\"\n".toList "---\nname: x\n---".toList)] } :=
  manual_parses asciiEnv (some (.str "Demo 1".toList)) _ _ _ _ (by decide +kernel) (by decide) (by decide)
    (by decide +kernel) (by decide) (by decide) (by decide)

/-- The empty name is a normal form; the skill is then named after its folder. -/
theorem empty_name_lost :
    normalizeName asciiEnv none = [] ∧
      (skillFromFiles asciiEnv [("SKILL.md".toList, manualSkillMd [] "d".toList "i".toList)]
        "folder".toList).map Skill.name = .ok "folder".toList ∧
      ¬ ∀ (env : Env) (v : Option Json) (name description instructions folder : List Char),
        normalizeName env v = name → name.getLast? ≠ some '-' → pyStrip (oneLine description) ≠ [] →
        description.length ≤ DESCRIPTION_MAX → pyStrip instructions ≠ [] →
        instructions.length ≤ INSTRUCTIONS_MAX →
        ∃ s, skillFromFiles env [("SKILL.md".toList, manualSkillMd name description instructions)]
            folder = .ok s ∧
          s.name = name ∧ s.description = pyStrip (oneLine description) ∧
          s.instructions = pyStrip instructions := by
  have hfolder : (skillFromFiles asciiEnv [("SKILL.md".toList, manualSkillMd [] "d".toList "i".toList)]
      "folder".toList).map Skill.name = .ok "folder".toList := by decide +kernel
  refine ⟨by decide, hfolder, fun h => ?_⟩
  obtain ⟨s, hs, hname, -, -⟩ := h asciiEnv none [] "d".toList "i".toList "folder".toList (by decide)
    (by decide) (by decide) (by decide) (by decide) (by decide)
  rw [hs] at hfolder
  exact absurd (hname.symm.trans (Except.ok.inj hfolder)) (by decide)

end Manual

end Portal.Skills
