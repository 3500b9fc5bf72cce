import DgxPlatform.Lib.Framing
import DgxPlatform.Lib.Scan
import DgxPlatform.Lib.Text
import DgxPlatform.Portal.Playground

/-! # Files and questionnaires in an answer

A model's answer mixes prose, fenced files and a questionnaire. `parseArtifacts`
takes the files out of the fenced blocks, `parseAsk` looks for question objects
everywhere but in the files, which it finds with a regular expression of its own
(`fileBounds`).

Positions count characters. What a JSON text asks (`questionsOf`) and how a file
gets its name (`Names`) are parameters.
-/

namespace Portal.Ask

open Text
open Playground (utf16Length fences)

def fence : List Char := ['\x60', '\x60', '\x60']

/-- A fenced block: what the opening line says, the length of the opening line, the
text, and whether a fence closes it. -/
structure Block where
  label : List Char
  head : Nat
  body : List Char
  closed : Bool
deriving DecidableEq, Repr

def Block.length (b : Block) : Nat := b.head + b.body.length + if b.closed then 3 else 0

/-- A match at the head of a text: the opening line, then everything up to the first
fence, or, if that is allowed, to the end. -/
def blockAt (opener : List Char → Option (List Char × Nat)) (toEnd : Bool) (t : List Char) :
    Option Block :=
  (opener t).bind fun o =>
    match Framing.cut fence (t.drop o.2) with
    | some (body, _) => some ⟨o.1, o.2, body, true⟩
    | none => if toEnd then some ⟨o.1, o.2, t.drop o.2, false⟩ else none

/-- All the matches of a pattern that starts with a fence. -/
def blocks (opener : List Char → Option (List Char × Nat)) (toEnd : Bool) (t : List Char) :
    List (Nat × Block) :=
  Scan.scan (fun _ => blockAt opener toEnd) Block.length 0 t

/-- `content` with its last fence closed, if their number is odd. -/
def closedContent (content : List Char) : List Char :=
  if fences content % 2 = 1 then content ++ '\n' :: fence else content

/-! ## The expressions of a questionnaire -/

def skip (t : List Char) : List Char := t.dropWhile isJsSpace

/-- The rest behind a word, up to a folding of the letters. -/
def expect (fold : Char → Char) (word t : List Char) : Option (List Char) :=
  if (t.take word.length).map fold = word then some (t.drop word.length) else none

def questionWord : List Char := "\"question\"".toList

def questionsWord : List Char := "\"questions\"".toList

/-- `\s*\{\s*"questions"\s*:\s*\[`. -/
def startsQuestions (fold : Char → Char) (t : List Char) : Bool :=
  ((((expect id ['\x7b'] (skip t)).bind fun t => expect fold questionsWord (skip t)).bind
    fun t => expect id [':'] (skip t)).bind fun t => expect id ['['] (skip t)).isSome

/-- `RE_QUESTIONS_BODY`. -/
def questionsBody (body : List Char) : Bool := startsQuestions id body

def isQuestionsBlock (L : Lowercase) (lang body : List Char) : Bool :=
  let l := L.lower lang
  l = "ask".toList || ((l = "json".toList || l = []) && questionsBody body)

/-- `\{\s*"(?:question|questions)"\s*:`, whatever the case. -/
def candidateAt (t : List Char) : Bool :=
  (((expect id ['\x7b'] t).bind fun t =>
    expect Char.toLower questionWord (skip t) <|> expect Char.toLower questionsWord (skip t)).bind
      fun t => expect id [':'] (skip t)).isSome

/-- Where the object ends whose characters these are; `i` is the position. -/
def objectEnd : Int → Bool → Bool → Nat → List Char → Option Nat
  | _, _, _, _, [] => none
  | depth, true, escaped, i, ch :: t =>
      if escaped then objectEnd depth true false (i + 1) t
      else if ch = '\\' then objectEnd depth true true (i + 1) t
      else objectEnd depth (ch ≠ '"') false (i + 1) t
  | depth, false, _, i, ch :: t =>
      if ch = '"' then objectEnd depth true false (i + 1) t
      else if ch = '\x7b' then objectEnd (depth + 1) false false (i + 1) t
      else if ch = '\x7d' then
        if depth - 1 = 0 then some (i + 1) else objectEnd (depth - 1) false false (i + 1) t
      else objectEnd depth false false (i + 1) t

/-- `questionCandidates`: where each object starts and ends. -/
def questionCandidates (src : List Char) : List (Nat × Nat) :=
  (List.range src.length).filterMap fun i =>
    if candidateAt (src.drop i) then
      some (i, (objectEnd 0 false false i (src.drop i)).getD src.length)
    else none

/-! ## The files, as the questionnaire sees them -/

/-- `[\w+-]`. -/
def isLabelChar (c : Char) : Bool := c.isAlphanum || c = '_' || c = '+' || c = '-'

def isBlank (c : Char) : Bool := c = ' ' || c = '\t'

/-- The rest of an opening line behind the fence and a label: blanks and the line feed. -/
def lineEnd (label t : List Char) : Option (List Char × Nat) :=
  let blanks := t.takeWhile isBlank
  match t.drop blanks.length with
  | '\n' :: _ => some (label, 3 + label.length + blanks.length + 1)
  | _ => none

/-- The opening line that `fileBounds` knows. -/
def fileOpener (t : List Char) : Option (List Char × Nat) :=
  if fence <+: t then
    let label := (t.drop 3).takeWhile isLabelChar
    lineEnd label ((t.drop 3).drop label.length)
  else none

/-- A match that is a file: no questionnaire, and no orphan fence. -/
def isFile (L : Lowercase) (b : Block) : Bool :=
  !isQuestionsBlock L b.label b.body && (b.label ≠ [] || b.closed)

/-- `fileBounds`. -/
def fileBounds (L : Lowercase) (content : List Char) : List (Nat × Nat) :=
  ((blocks fileOpener true content).filter fun m => isFile L m.2).map
    fun m => (m.1, m.1 + m.2.length)

/-! ## The questionnaire -/

structure AskQ where
  question : List Char
  options : List (List Char)
deriving DecidableEq, Repr

/-- A question, and the place of the object it was read from. -/
structure Found where
  question : AskQ
  start : Nat
  stop : Nat
deriving DecidableEq, Repr

/-- What `parseAsk` accumulates: where the first fragment starts, and the questions. -/
structure Collected where
  first : Nat
  found : List Found
deriving DecidableEq, Repr

def maxAskQuestions : Nat := 20

section ParseAsk

-- `questionsOf`: the questions that the text of an object carries
variable (L : Lowercase) (questionsOf : List Char → List AskQ)

/-- A question is kept once, and only so many. -/
def Collected.push (start stop : Nat) (r : Collected) (q : AskQ) : Collected :=
  if (r.found.any fun f => decide (L.lower f.question.question = L.lower q.question)) ∨
      maxAskQuestions ≤ r.found.length then r
  else { r with found := r.found ++ [⟨q, start, stop⟩] }

/-- One candidate of `collected`. The body starts at `origin`; `offset` is where the
source takes it to start. -/
def collectOne (files : List (Nat × Nat)) (body : List Char) (offset origin : Nat)
    (r : Collected) (c : Nat × Nat) : Collected :=
  if files.any fun d => decide (d.1 ≤ offset + c.1 ∧ offset + c.2 ≤ d.2) then r
  else
    (questionsOf ((body.take c.2).drop c.1)).foldl
      (Collected.push L (origin + c.1) (origin + c.2))
      { r with first := min r.first (offset + c.1) }

def collected (files : List (Nat × Nat)) (body : List Char) (offset origin : Nat)
    (r : Collected) : Collected :=
  (questionCandidates body).foldl (collectOne L questionsOf files body offset origin) r

/-- The opening line of a block for questions. -/
def askOpener (t : List Char) : Option (List Char × Nat) :=
  if fence <+: t then
    (expect Char.toLower "ask".toList (t.drop 3)).bind (lineEnd ((t.drop 3).take 3))
  else none

/-- The opening line of a block without label or with `json`, before questions. -/
def jsonOpener (t : List Char) : Option (List Char × Nat) :=
  if fence <+: t then
    (((expect id "json".toList (t.drop 3)).bind (lineEnd "json".toList)) <|>
      lineEnd [] (t.drop 3)).filter fun o => startsQuestions id (t.drop o.2)
  else none

/-- The line `ask`, perhaps in backticks, before questions: from the blanks on. -/
def askLine (t : List Char) : Option Nat :=
  let blanks := t.takeWhile isBlank
  let t := t.drop blanks.length
  let tick := t.takeWhile (· = '\x60') |>.take 1
  (expect Char.toLower "ask".toList (t.drop tick.length)).bind fun rest =>
    let tick' := rest.takeWhile (· = '\x60') |>.take 1
    (lineEnd [] (rest.drop tick'.length)).map fun o =>
      blanks.length + tick.length + 3 + tick'.length + (o.2 - 3)

/-- The degenerate form: at the start of the text or of a line. -/
def bareOpener (pos : Nat) (t : List Char) : Option (List Char × Nat) :=
  ((if pos = 0 then askLine t else none) <|>
    (match t with
    | '\n' :: t' => (askLine t').map (· + 1)
    | _ => none)).bind fun head =>
      if startsQuestions Char.toLower (t.drop head) then some ([], head) else none

/-- One match of one of the three expressions. -/
def collectBlock (files : List (Nat × Nat)) (r : Collected) (m : Nat × Block) : Collected :=
  collected L questionsOf files m.2.body (m.1 + (m.2.length - m.2.body.length)) (m.1 + m.2.head)
    { r with first := min r.first m.1 }

/-- Everything that `parseAsk` collects. -/
def collectAll (content : List Char) : Collected :=
  let files := fileBounds L content
  let r := (blocks askOpener true content).foldl (collectBlock L questionsOf files)
    ⟨content.length, []⟩
  let r := (blocks jsonOpener true content).foldl (collectBlock L questionsOf files) r
  let r := (Scan.scan (fun pos => blockAt (bareOpener pos) true) Block.length 0 content).foldl
    (collectBlock L questionsOf files) r
  collected L questionsOf files content 0 0 r

/-- `(?:[[{]\s*"|```)`. -/
def isDebris (t : List Char) : Bool :=
  (((expect id ['['] t <|> expect id ['\x7b'] t).bind fun t => expect id ['"'] (skip t)).isSome ||
    decide (fence <+: t))

/-- What precedes the first fragment, without the debris. -/
def askProse (before : List Char) : List Char :=
  let cut := ((List.range before.length).find? fun i => isDebris (before.drop i)).getD before.length
  trimMatches isJsSpace (before.take cut)

/-- `parseAsk`: the questions with their places, and the prose. -/
def parseAsk (content : List Char) : Option (List Found × List Char) :=
  let r := collectAll L questionsOf content
  if r.found = [] then none else some (r.found, askProse (content.take r.first))

end ParseAsk

/-! ## The files of an answer -/

/-- The opening line that `parseArtifacts` knows: anything without a backtick. -/
def artifactOpener (t : List Char) : Option (List Char × Nat) :=
  if fence <+: t then
    let info := (t.drop 3).takeWhile fun c => c ≠ '\n' && c ≠ '\x60'
    match (t.drop 3).drop info.length with
    | '\n' :: _ => some (info, 3 + info.length + 1)
    | _ => none
  else none

/-- How files get their names. -/
structure Names where
  titleFromContext : List Char → List Char
  isExcerptOf : List Char → List Char → List Char → Nat → Bool
  known : List Char → Option (List Char)
  /-- The extension of a language. -/
  ext : List Char → Option (List Char)
  askedFileNames : List (List Char)
  /-- The translated name of a file without one. -/
  fallback : Nat → Option (List Char) → List Char

structure Artifact where
  title : List Char
  lang : List Char
  content : List Char
deriving DecidableEq, Repr

/-- `(?:title|file|filename)=(\S+)`, the first in the opening line. -/
def namedIn (info : List Char) : Option (List Char) :=
  info.tails.findSome? fun t =>
    ((expect Char.toLower "title=".toList t <|> expect Char.toLower "file=".toList t) <|>
      expect Char.toLower "filename=".toList t).bind fun rest =>
        let name := rest.takeWhile fun c => !isJsSpace c
        if name = [] then none else some name

/-- `replace(/\n$/, "")`. -/
def dropLastNewline (t : List Char) : List Char :=
  if t.getLast? = some '\n' then t.dropLast else t

/-- The first word of an opening line. -/
def firstWord (info : List Char) : List Char :=
  (trimMatches isJsSpace info).takeWhile fun c => !isJsSpace c

/-- A block that is a protocol, not a file. -/
def isProtocol (L : Lowercase) (b : Block) : Bool :=
  firstWord b.label = "edit".toList ||
    isQuestionsBlock L (firstWord b.label) (dropLastNewline b.body)

/-- The variables of the loop: the names asked for that are left, where the prose goes on,
and the files with the blocks they come from. -/
structure Loop where
  asked : List (List Char)
  lastIndex : Nat
  files : List (Nat × Block × Artifact)

section ParseArtifacts

variable (L : Lowercase) (names : Names)

/-- The name that the opening line gives, if it does. -/
def infoTitle (info : List Char) : List Char :=
  let first := firstWord info
  let title := if '.' ∈ first then first else []
  (namedIn (trimMatches isJsSpace info)).getD title

/-- The language: behind the last dot of a file name. -/
def infoLang (info : List Char) : List Char :=
  let first := firstWord info
  if '.' ∈ first then first.rtakeWhile (· ≠ '.') else first

/-- The name that the request asked for, and the names that are left. -/
def askedTitle (asked : List (List Char)) (lang : List Char) :
    Option (List Char × List (List Char)) :=
  (names.ext (L.lower lang)).bind fun ext =>
    (asked.find? fun name => decide ('.' :: ext <:+ L.lower name)).map fun name =>
      (name, asked.erase name)

/-- One match of the loop. -/
def Loop.next (content : List Char) (r : Loop) (m : Nat × Block) : Loop :=
  let body := dropLastNewline m.2.body
  if isProtocol L m.2 then r
  else
    let lang := infoLang m.2.label
    let given := infoTitle m.2.label
    let fromProse := if given = [] then names.titleFromContext (content.take m.1) else []
    let title := if given = [] then fromProse else given
    let earlier := ((r.files.reverse.find? fun f => f.2.2.title = title).map (·.2.2.content)).or
      (names.known title)
    if fromProse ≠ [] ∧ names.isExcerptOf title body ((content.take m.1).drop r.lastIndex)
        ((earlier.map utf16Length).getD 0) then r
    else
      let requested := if title = [] then askedTitle L names r.asked lang else none
      let asked := (requested.map (·.2)).getD r.asked
      let title := (requested.map (·.1)).getD title
      if title = [] ∧ utf16Length body < 200 ∧ body.count '\n' + 1 < 6 then { r with asked := asked }
      else
        let n := r.files.length + 1
        let ext := names.ext (L.lower lang)
        let title :=
          if title ≠ [] then title
          else if ext = some "html".toList ∧ n = 1 then "index.html".toList
          else names.fallback (n + 1) ext
        { asked := asked
          lastIndex := m.1 + m.2.length
          files := r.files ++
            [(m.1, m.2, ⟨title, if lang = [] then "text".toList else lang, body⟩)] }

/-- The code artifacts that `parseArtifacts` takes from fenced blocks. -/
def fencedArtifacts (content : List Char) : List (Nat × Block × Artifact) :=
  ((blocks artifactOpener false content).foldl (Loop.next L names content)
    ⟨names.askedFileNames, 0, []⟩).files

end ParseArtifacts

end Portal.Ask
