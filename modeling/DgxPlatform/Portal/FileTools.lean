import DgxPlatform.Lib.Journal
import DgxPlatform.Lib.Run
import DgxPlatform.Lib.Scan
import DgxPlatform.Portal.Accounts
import DgxPlatform.Portal.FileLists

/-! # The file tools of the chat

The files of a conversation come with a request (`parse_files`), the model edits them with
three tools (`exec`: `view_file`, `str_replace`, `create_file`), and every file that was
touched goes back once. The state is the files with the first originals of those touched.

A number of the arguments is an integer; a fraction is read as a path or as a new text
exactly as its text is. Positions count characters; the source counts the bytes of the same
places.
-/

namespace Portal.FileTools

open Accounts (pyIsSpace pyStrip)
open Conversations (truthy hexDigit MAX_FILES MAX_FILE_CHARS MAX_TOTAL_CHARS)

abbrev Files := Dict (List Char) (List Char)

/-- The original of every touched file, `none` if it did not exist. -/
abbrev Changes := Dict (List Char) (Option (List Char))

/-- `record` and then `set` are `put`. -/
abbrev State := Journaled (List Char) (List Char)

abbrev State.files (s : State) : Files := s.dict

abbrev State.changes (s : State) : Changes := s.journal

/-! ## Python's texts of a JSON value -/

def reprChar (quote c : Char) : List Char :=
  if c = '\\' then ['\\', '\\']
  else if c = '\n' then ['\\', 'n']
  else if c = '\r' then ['\\', 'r']
  else if c = '\t' then ['\\', 't']
  else if c = quote then ['\\', c]
  else if c.toNat < 0x20 ∨ c.toNat = 0x7F then
    ['\\', 'x', hexDigit (c.toNat / 16), hexDigit (c.toNat % 16)]
  else [c]

def reprStr (s : List Char) : List Char :=
  let quote := if '\x27' ∈ s ∧ '"' ∉ s then '"' else '\x27'
  [quote] ++ s.flatMap (reprChar quote) ++ [quote]

mutual

/-- `py_repr`. -/
def pyRepr : Json → List Char
  | .null => "None".toList
  | .bool b => if b then "True".toList else "False".toList
  | .num n => (toString n).toList
  | .str s => reprStr s
  | .arr xs => ['['] ++ reprItems xs ++ [']']
  | .obj fields => ['\x7b'] ++ reprFields fields ++ ['\x7d']

def reprItems : List Json → List Char
  | [] => []
  | [x] => pyRepr x
  | x :: xs => pyRepr x ++ ", ".toList ++ reprItems xs

def reprFields : List (String × Json) → List Char
  | [] => []
  | [(k, x)] => reprStr k.toList ++ ": ".toList ++ pyRepr x
  | (k, x) :: fields =>
      reprStr k.toList ++ ": ".toList ++ pyRepr x ++ ", ".toList ++ reprFields fields

end

/-- `py_str`: a string as it is, anything else as its `repr`. -/
def pyStr : Json → List Char
  | .str s => s
  | v => pyRepr v

theorem pyStr_str (s : List Char) : pyStr (.str s) = s := rfl

/-- `py_repr_str`. -/
def pyReprStr : Option Json → List Char
  | none => "None".toList
  | some v => pyRepr v

/-! ## Numbers of the arguments -/

def clampI64 (n : Int) : Int := max (-2 ^ 63) (min n (2 ^ 63 - 1))

def wrapI64 (n : Int) : Int := (n + 2 ^ 63) % 2 ^ 64 - 2 ^ 63

/-- A text without its sign, and whether this is a minus. -/
def unsigned : List Char → Bool × List Char
  | '-' :: digits => (true, digits)
  | '+' :: digits => (false, digits)
  | digits => (false, digits)

/-- `py_int`: digits may have single underscores between them. -/
def pyInt : Json → Option Int
  | .bool b => some (if b then 1 else 0)
  | .num n => some (clampI64 n)
  | .str s =>
      let (neg, digits) := unsigned (Text.trim s)
      if digits.isEmpty || digits.head? == some '_' || digits.getLast? == some '_'
          || Text.contains digits ['_', '_'] then none
      else if !digits.all fun c => c.isDigit || c == '_' then none
      else
        let n : Int := (digits.filter (· ≠ '_')).foldl (fun n c => 10 * n + (c.toNat - 48)) 0
        if n > 2 ^ 63 - 1 then none else some (if neg then -n else n)
  | _ => none

def intArg (args : Json) (key : String) (default : Int) : Int :=
  (((args.get? key).filter truthy).bind pyInt).getD default

/-! ## Paths -/

/-- `parse_files`, as `Files`. -/
def parseFiles (raw : Option Json) : Files where
  rows := FileLists.parse pyIsSpace pyStr raw
  nodup := by
    rw [FileLists.parse_eq]
    exact FileLists.nodup_setAll List.nodup_nil

/-- `clean_path`. -/
def cleanPath (v : Option Json) : List Char :=
  Text.trimMatches (· == '\x60') (pyStrip ((v.filter truthy).elim [] pyStr))

/-- `resolve`: the exact name, else the first file with a suffix in common with the path. -/
def resolve (files : Files) (path : List Char) : Option (List Char) :=
  if (files.get? path).isSome then some path
  else files.keys.find? fun n => ('/' :: path).isSuffixOf n || ('/' :: n).isSuffixOf path

theorem get?_of_resolve {files : Files} {path target : List Char} (h : resolve files path = some target) :
    (files.get? target).isSome := by
  unfold resolve at h
  split_ifs at h with hexact
  · obtain rfl := Option.some.inj h
    exact hexact
  · rw [Option.isSome_iff_ne_none, Ne, Dict.get?_eq_none_iff, not_not]
    exact List.mem_of_find?_eq_some h

/-! ## Lines -/

abbrev Line := List Char

def lines (t : List Char) : List Line := t.splitOn '\n'

/-- The lines of a text with their numbers. -/
def numbered (t : List Char) (start : Nat) : List Char :=
  ['\n'].intercalate ((lines t).zipIdx.map fun l => (Nat.toDigits 10 (start + l.2)).leftpad 6 ' ' ++ '\t' :: l.1)

def lineOf (content : List Char) (index : Nat) : Nat := (content.take index).count '\n' + 1

/-- Every line without the white space around it. -/
def stripLines (t : List Char) : List Char := ['\n'].intercalate ((lines t).map pyStrip)

/-! ### The lines that a rewrite keeps -/

/-- Equal lines: where they begin in the old and in the new text, and how many. -/
structure Block where
  i : Nat
  j : Nat
  size : Nat

/-- The order of triples. -/
def Block.le (m m' : Block) : Prop :=
  m.i < m'.i ∨ m.i = m'.i ∧ (m.j < m'.j ∨ m.j = m'.j ∧ m.size ≤ m'.size)

instance : DecidableRel Block.le := fun m m' => by
  unfold Block.le
  infer_instance

/-- The runs of equal lines that end with line `x` of the old text, at each of its
positions in the new one. -/
def runsAt (b : List Line) (blo bhi : Nat) (j2len : List (Nat × Nat)) (x : Line) : List (Nat × Nat) :=
  (b.zipIdx.filter fun y => y.1 = x ∧ blo ≤ y.2 ∧ y.2 < bhi).map fun y =>
    (y.2, (if y.2 = 0 then 0 else (j2len.lookup (y.2 - 1)).getD 0) + 1)

/-- A longer run takes the place of the longest so far. -/
def longer (i : Nat) (best : Block) (run : Nat × Nat) : Block :=
  if run.2 > best.size then ⟨i + 1 - run.2, run.1 + 1 - run.2, run.2⟩ else best

/-- One line of the old text. -/
def longestStep (b : List Line) (blo bhi : Nat) (acc : Block × List (Nat × Nat)) (x : Line × Nat) :
    Block × List (Nat × Nat) :=
  let runs := runsAt b blo bhi acc.2 x.1
  (runs.foldl (longer x.2) acc.1, runs)

/-- The longest block in two ranges, of these the first. -/
def longest (a b : List Line) (alo ahi blo bhi : Nat) : Block :=
  ((((a.take ahi).drop alo).zipIdx alo).foldl (longestStep b blo bhi) (⟨alo, blo, 0⟩, [])).1

/-- What a longest block keeps to while the lines from `alo` to `i` are read. -/
def Inside (alo i : Nat) (acc : Block × List (Nat × Nat)) : Prop :=
  alo ≤ acc.1.i ∧ acc.1.i + acc.1.size ≤ i ∧ ∀ run ∈ acc.2, alo + run.2 ≤ i

theorem le_of_mem_runsAt {b : List Line} {blo bhi alo i : Nat} {j2len : List (Nat × Nat)} {x : Line}
    {run : Nat × Nat} (h : ∀ run ∈ j2len, alo + run.2 ≤ i) (hi : alo ≤ i)
    (hrun : run ∈ runsAt b blo bhi j2len x) : alo + run.2 ≤ i + 1 := by
  obtain ⟨y, -, rfl⟩ := List.mem_map.1 hrun
  show alo + ((if y.2 = 0 then 0 else (j2len.lookup (y.2 - 1)).getD 0) + 1) ≤ i + 1
  split_ifs
  · omega
  · cases hlook : j2len.lookup (y.2 - 1) with
    | none =>
      rw [Option.getD_none]
      omega
    | some k =>
      have hmem : (y.2 - 1, k) ∈ j2len := by
        obtain ⟨l, l', hl, -⟩ := List.lookup_eq_some_iff.1 hlook
        rw [hl]
        simp
      have hk : alo + k ≤ i := h _ hmem
      rw [Option.getD_some]
      omega

theorem inside_step {b : List Line} {blo bhi alo i : Nat} {acc : Block × List (Nat × Nat)} {x : Line}
    (h : Inside alo i acc) : Inside alo (i + 1) (longestStep b blo bhi acc (x, i)) := by
  obtain ⟨hlo, hhi, hruns⟩ := h
  have hnew : ∀ run ∈ runsAt b blo bhi acc.2 x, alo + run.2 ≤ i + 1 := by
    intro run hrun
    exact le_of_mem_runsAt hruns (by omega) hrun
  have hbest : ∀ (runs : List (Nat × Nat)) (best : Block), (∀ run ∈ runs, alo + run.2 ≤ i + 1) →
      alo ≤ best.i → best.i + best.size ≤ i + 1 →
      alo ≤ (runs.foldl (longer i) best).i ∧
        (runs.foldl (longer i) best).i + (runs.foldl (longer i) best).size ≤ i + 1 := by
    intro runs
    induction runs with
    | nil => exact fun best _ hlo hhi => ⟨hlo, hhi⟩
    | cons run runs ih =>
      intro best hall hlo hhi
      obtain ⟨hrun, hall⟩ := List.forall_mem_cons.1 hall
      rw [List.foldl_cons]
      unfold longer
      split_ifs
      · exact ih _ hall (by show alo ≤ i + 1 - run.2; omega)
          (by show i + 1 - run.2 + run.2 ≤ i + 1; omega)
      · exact ih _ hall hlo hhi
  obtain ⟨hlo', hhi'⟩ := hbest _ acc.1 hnew hlo (by omega)
  exact ⟨hlo', hhi', hnew⟩

theorem longest_inside (a b : List Line) {alo ahi : Nat} (blo bhi : Nat) (h : alo ≤ ahi) :
    alo ≤ (longest a b alo ahi blo bhi).i ∧
      (longest a b alo ahi blo bhi).i + (longest a b alo ahi blo bhi).size ≤ ahi := by
  have hrun : ∀ (l : List Line) (i : Nat) (acc : Block × List (Nat × Nat)), Inside alo i acc →
      Inside alo (i + l.length) ((l.zipIdx i).foldl (longestStep b blo bhi) acc) := by
    intro l
    induction l with
    | nil => exact fun i acc hacc => hacc
    | cons x l ih =>
      intro i acc hacc
      rw [List.zipIdx_cons, List.foldl_cons, List.length_cons, ← Nat.add_assoc, Nat.add_right_comm]
      exact ih (i + 1) _ (inside_step hacc)
  have hstart : Inside alo alo (⟨alo, blo, 0⟩, []) :=
    ⟨Nat.le_refl _, Nat.le_refl _, fun _ hmem => absurd hmem List.not_mem_nil⟩
  obtain ⟨hlo, hhi, -⟩ := hrun ((a.take ahi).drop alo) alo _ hstart
  refine ⟨hlo, Nat.le_trans hhi ?_⟩
  rw [List.length_drop, List.length_take]
  omega

/-- The longest block of two ranges and the blocks on both of its sides. -/
def blocksIn (a b : List Line) (alo ahi blo bhi : Nat) : List Block :=
  match hm : longest a b alo ahi blo bhi with
  | ⟨i, j, size⟩ =>
      if h : 0 < size ∧ alo ≤ ahi then
        have hinside : alo ≤ i ∧ i + size ≤ ahi := by
          have := longest_inside a b blo bhi h.2
          rwa [hm] at this
        ⟨i, j, size⟩ :: ((if alo < i ∧ blo < j then blocksIn a b alo i blo j else []) ++
          if i + size < ahi ∧ j + size < bhi then blocksIn a b (i + size) ahi (j + size) bhi else [])
      else []
termination_by ahi - alo

/-- Adjacent blocks become one. -/
def collapseFrom (last : Block) : List Block → List Block
  | [] => [last]
  | m :: ms =>
      if last.i + last.size = m.i ∧ last.j + last.size = m.j then
        collapseFrom { last with size := last.size + m.size } ms
      else last :: collapseFrom m ms

def collapse : List Block → List Block
  | [] => []
  | m :: ms => collapseFrom m ms

/-- `matching_blocks`. -/
def matchingBlocks (a b : List Line) : List Block :=
  collapse ((blocksIn a b 0 a.length 0 b.length).insertionSort Block.le)

/-- `mostly_kept`: a rewrite that keeps half of the old lines, if these are at least 20. -/
def mostlyKept (old new : List Char) : Bool :=
  let a := lines old
  if a.length < 20 then false
  else
    let kept := ((matchingBlocks a (lines new)).map Block.size).sum
    a.length ≤ 2 * kept

/-! ## The tools -/

inductive Error where
  | invalidArguments
  | fileTooLarge
  | rewriteRefused
  | unknownFile
  | textNotFound
  | ambiguousText
  | unknownTool
  deriving DecidableEq

/-- The result for the model, and the error if there is one. -/
structure Reply where
  text : List Char
  error : Option Error

def refused (text : List Char) (e : Error) : Reply := ⟨text, some e⟩

/-- The path of a new file. -/
def newPath (args : Json) : List Char := (cleanPath (args.get? "path")).take 200

/-- The file that `create_file` writes. -/
def targetOf (args : Json) (files : Files) : List Char := (resolve files (newPath args)).getD (newPath args)

/-- The branch of `create_file`. -/
def createFile (args : Json) (s : State) : Reply × State :=
  match (args.get? "content").bind Json.str? with
  | none => (refused "Error: create_file needs \x60path\x60 and \x60content\x60.".toList .invalidArguments, s)
  | some content =>
      if newPath args = [] then
        (refused "Error: create_file needs \x60path\x60 and \x60content\x60.".toList .invalidArguments, s)
      else if content.length > MAX_FILE_CHARS then
        (refused "Error: file too large.".toList .fileTooLarge, s)
      else
        let target := targetOf args s.files
        if (s.files.get? target).any fun old => mostlyKept old content then
          (refused ("Error: ".toList ++ target ++ (" already exists and this rewrite keeps most of it " ++
            "unchanged. Use str_replace for each change instead (several calls in one round are " ++
            "fine). No change made.").toList) .rewriteRefused, s)
        else
          (⟨"File ".toList ++ target ++ " written (".toList ++
            Nat.toDigits 10 (content.count '\n' + 1) ++ " lines).".toList, none⟩, s.put target content)

def VIEW_MAX_LINES : Int := 400

/-- The branch of `view_file`. -/
def viewFile (args : Json) (path content : List Char) : Reply :=
  let all := lines content
  let n : Int := all.length
  let start := max (intArg args "start_line" 1) 1
  let asked := intArg args "end_line" 0
  let limit := wrapI64 (start + VIEW_MAX_LINES - 1)
  let stop := min (min n (if asked ≥ start then asked else limit)) limit
  let slice := if start ≤ n ∧ stop ≥ start then (all.take stop.toNat).drop (start - 1).toNat else []
  let body := numbered (['\n'].intercalate slice) start.toNat
  let more :=
    if stop < n then
      "\n[lines ".toList ++ (toString start).toList ++ "-".toList ++ (toString stop).toList ++
        " of ".toList ++ (toString n).toList ++ "; call again with start_line=".toList ++
        (toString (stop + 1)).toList ++ " for the rest]".toList
    else []
  ⟨path ++ ":\n".toList ++ body ++ more, none⟩

/-- A text stands at a position of another. -/
def Occurs (old content : List Char) (i : Nat) : Prop := old <+: content.drop i

instance (old content : List Char) (i : Nat) : Decidable (Occurs old content i) :=
  inferInstanceAs (Decidable (old <+: content.drop i))

/-- The positions of a text in another, overlapping ones too. -/
def occurrences (old content : List Char) : List Nat :=
  (List.range (content.length + 1)).filter fun i => Occurs old content i

/-- `str::matches`: from the left, each behind the one before. -/
def matchesOf (old content : List Char) : List Nat :=
  (Scan.scan (fun _ t => if old <+: t then some () else none) (fun _ => old.length) 0 content).map Prod.fst

def SNIPPET_CONTEXT : Nat := 4

/-- The lines around the place of an edit. -/
def snippet (updated new : List Char) (pos : Nat) : List Char :=
  let first := lineOf updated pos
  let last := first + new.count '\n'
  let lo := max (first - SNIPPET_CONTEXT) 1
  let hi := min (lines updated).length (last + SNIPPET_CONTEXT)
  numbered (['\n'].intercalate (((lines updated).take hi).drop (lo - 1))) lo

/-- The text to replace: a string that is not empty. -/
def oldStr (args : Json) : Option (List Char) := ((args.get? "old_str").bind Json.str?).filter (· ≠ [])

def newStr (args : Json) : List Char := (args.get? "new_str").elim [] pyStr

/-- The branch of `str_replace`. -/
def strReplace (args : Json) (path content : List Char) (s : State) : Reply × State :=
  match oldStr args with
  | none => (refused "Error: \x60old_str\x60 must be a non-empty string.".toList .invalidArguments, s)
  | some old =>
      let new := newStr args
      let count := (matchesOf old content).length
      if count = 0 then
        let stripped := stripLines old
        let hint :=
          if stripped ≠ [] ∧ Text.contains (stripLines content) stripped then
            (" The text exists with DIFFERENT indentation or spacing: call view_file and copy it " ++
              "exactly.").toList
          else []
        (refused ("Error: old_str not found in ".toList ++ path ++ ".".toList ++ hint ++
          " No change made.".toList) .textNotFound, s)
      else if count > 1 then
        let found := ((occurrences old content).take 8).map fun i => Nat.toDigits 10 (lineOf content i)
        (refused ("Error: old_str appears ".toList ++ Nat.toDigits 10 count ++ " times in ".toList ++ path ++
          " (lines ".toList ++ ", ".toList.intercalate found ++
          "). Include more surrounding lines so it is unique. No change made.".toList) .ambiguousText, s)
      else
        let pos := (occurrences old content).head?.getD 0
        let updated := content.take pos ++ new ++ content.drop (pos + old.length)
        (⟨"Edited ".toList ++ path ++ ". Snippet of the result:\n".toList ++ snippet updated new pos, none⟩,
          s.put path updated)

/-- `exec`. -/
def exec (name : List Char) (args : Json) (s : State) : Reply × State :=
  if name = "create_file".toList then createFile args s
  else
    match resolve s.files (cleanPath (args.get? "path")) with
    | none =>
        let known := if s.files.rows.isEmpty then "none".toList else ", ".toList.intercalate s.files.keys
        (refused ("Error: no file named ".toList ++ pyReprStr (args.get? "path") ++ ". Files: ".toList ++
          known ++ ".".toList) .unknownFile, s)
    | some path =>
        let content := (s.files.get? path).getD []
        if name = "view_file".toList then (viewFile args path content, s)
        else if name = "str_replace".toList then strReplace args path content s
        else (refused ("Error: unknown tool ".toList ++ name ++ ".".toList) .unknownTool, s)

/-- `edits_note`: the files whose content has changed. -/
def editsNote (s : State) : List Char :=
  if s.changed.isEmpty then []
  else
    "\n\n---\n[The platform ALREADY applied your edits to: ".toList ++ ", ".toList.intercalate s.changed ++
      (". The user sees the updated files and a diff. Do NOT output these files again; briefly " ++
        "explain what you changed, in the user's language.]").toList

/-- The name of a tool and its arguments. -/
abbrev Call := List Char × Json

def step (s : State) (call : Call) : Option State := some (exec call.1 call.2 s).2

/-- The state after a list of calls. -/
def run (s : State) (calls : List Call) : State := calls.foldl (fun s call => (exec call.1 call.2 s).2) s

theorem exec_step (s : State) (calls : List Call) : Run.exec step s calls = some (run s calls) := by
  induction calls generalizing s with
  | nil => rfl
  | cons call calls ih => exact ih (exec call.1 call.2 s).2

/-! ## What a call does -/

section Calls

variable {args : Json} {s : State} {path content old : List Char}

/-- `create_file` has nothing to refuse. -/
structure Creates (args : Json) (files : Files) (content : List Char) : Prop where
  given : (args.get? "content").bind Json.str? = some content
  named : newPath args ≠ []
  size : content.length ≤ MAX_FILE_CHARS
  rewritten : (files.get? (targetOf args files)).any (fun old => mostlyKept old content) = false

theorem createFile_of_creates (h : Creates args s.files content) :
    (createFile args s).1.error = none ∧ (createFile args s).2 = s.put (targetOf args s.files) content := by
  obtain ⟨hgiven, hnamed, hsize, hrewritten⟩ := h
  unfold createFile
  simp only [hgiven]
  rw [if_neg hnamed, if_neg (Nat.not_lt.2 hsize), if_neg (Bool.eq_false_iff.1 hrewritten)]
  exact ⟨rfl, rfl⟩

theorem createFile_of_not_creates (h : ∀ content, ¬ Creates args s.files content) :
    (createFile args s).1.error.isSome ∧ (createFile args s).2 = s := by
  unfold createFile
  cases hgiven : (args.get? "content").bind Json.str? with
  | none => exact ⟨rfl, rfl⟩
  | some content =>
    dsimp only
    split_ifs with hnamed hsize hkept
    · exact ⟨rfl, rfl⟩
    · exact ⟨rfl, rfl⟩
    · exact ⟨rfl, rfl⟩
    · exact absurd ⟨hgiven, hnamed, Nat.not_lt.1 hsize, Bool.eq_false_iff.2 hkept⟩ (h content)

/-- `str_replace` finds its text once, counted as `str::matches` counts. -/
structure Replaces (args : Json) (content old : List Char) : Prop where
  given : oldStr args = some old
  once : (matchesOf old content).length = 1

/-- What `str_replace` makes of a content. -/
def replaced (args : Json) (content old : List Char) : List Char :=
  let pos := (occurrences old content).head?.getD 0
  content.take pos ++ newStr args ++ content.drop (pos + old.length)

theorem strReplace_of_replaces (h : Replaces args content old) :
    (strReplace args path content s).1.error = none ∧
      (strReplace args path content s).2 = s.put path (replaced args content old) := by
  obtain ⟨hgiven, honce⟩ := h
  unfold strReplace
  simp only [hgiven, honce]
  exact ⟨rfl, rfl⟩

theorem strReplace_of_not_replaces (h : ∀ old, ¬ Replaces args content old) :
    (strReplace args path content s).1.error.isSome ∧ (strReplace args path content s).2 = s := by
  unfold strReplace
  cases hgiven : oldStr args with
  | none => exact ⟨rfl, rfl⟩
  | some old =>
    dsimp only
    by_cases hzero : (matchesOf old content).length = 0
    · rw [if_pos hzero]
      exact ⟨rfl, rfl⟩
    · rw [if_neg hzero]
      by_cases hmany : (matchesOf old content).length > 1
      · rw [if_pos hmany]
        exact ⟨rfl, rfl⟩
      · exact absurd ⟨hgiven, by omega⟩ (h old)

/-! ### The three tools and any other name -/

variable {name : List Char}

theorem exec_create : exec "create_file".toList args s = createFile args s := rfl

theorem exec_unresolved (hname : name ≠ "create_file".toList)
    (h : resolve s.files (cleanPath (args.get? "path")) = none) :
    (exec name args s).1.error.isSome ∧ (exec name args s).2 = s := by
  unfold exec
  rw [if_neg hname, h]
  exact ⟨rfl, rfl⟩

theorem exec_resolved (hname : name ≠ "create_file".toList)
    (h : resolve s.files (cleanPath (args.get? "path")) = some path) (hget : s.files.get? path = some content) :
    exec name args s =
      if name = "view_file".toList then (viewFile args path content, s)
      else if name = "str_replace".toList then strReplace args path content s
      else (refused ("Error: unknown tool ".toList ++ name ++ ".".toList) .unknownTool, s) := by
  unfold exec
  rw [if_neg hname, h]
  dsimp only
  rw [hget]
  rfl

theorem exec_replace (h : resolve s.files (cleanPath (args.get? "path")) = some path)
    (hget : s.files.get? path = some content) :
    exec "str_replace".toList args s = strReplace args path content s := by
  rw [exec_resolved (by decide) h hget]
  rfl

/-- A call leaves the state as it is, or it sets one file and has no error. -/
theorem exec_cases (name : List Char) (args : Json) (s : State) :
    (exec name args s).2 = s ∨
      (exec name args s).1.error = none ∧ ∃ path content, (exec name args s).2 = s.put path content := by
  by_cases hname : name = "create_file".toList
  · obtain rfl := hname
    rw [exec_create]
    by_cases h : ∃ content, Creates args s.files content
    · obtain ⟨content, hcreates⟩ := h
      obtain ⟨herror, hstate⟩ := createFile_of_creates hcreates
      exact .inr ⟨herror, _, _, hstate⟩
    · exact .inl (createFile_of_not_creates (not_exists.1 h)).2
  · cases hresolve : resolve s.files (cleanPath (args.get? "path")) with
    | none => exact .inl (exec_unresolved hname hresolve).2
    | some path =>
      obtain ⟨content, hget⟩ := Option.isSome_iff_exists.1 (get?_of_resolve hresolve)
      rw [exec_resolved hname hresolve hget]
      split_ifs
      · exact .inl rfl
      · by_cases h : ∃ old, Replaces args content old
        · obtain ⟨old, hreplaces⟩ := h
          obtain ⟨herror, hstate⟩ := strReplace_of_replaces hreplaces
          exact .inr ⟨herror, _, _, hstate⟩
        · exact .inl (strReplace_of_not_replaces (not_exists.1 h)).2
      · exact .inl rfl

end Calls

end Portal.FileTools
