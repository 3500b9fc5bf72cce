import DgxPlatform.Lib.Regex
import DgxPlatform.Portal.MemoryTriples

/-! # The memory as Markdown

`export_markdown` writes the facts of an account under one heading for each subject,
`md_parse` reads them back from the lines of a file. Both are translated here; the seven
expressions that the reader tries on a line are `HEADING` to `STRUCT` and `BOLD_INLINE`.

Unicode's lower case and decimal digits are parameters.
-/

namespace Portal.Memory

open Accounts (pyIsSpace pyStrip)

/-! ## `export_markdown` -/

/-- The texts in the order in which they come up first. -/
def firstSeen (ts : List (List Char)) : List (List Char) :=
  ts.foldl (fun seen x => if x ∈ seen then seen else seen ++ [x]) []

/-- A stable sort by lower case. -/
def sortByLower {α : Type} (L : Text.Lowercase) (name : α → List Char) (xs : List α) : List α :=
  xs.mergeSort fun a b => !decide (L.lower (name b) < L.lower (name a))

def Json.items (j : Json) (key : String) : List Json := ((j.get? key).bind Json.arr?).getD []

/-- The subjects in the exporter's order. -/
def mdSubjects (L : Text.Lowercase) (subjects : List (List Char)) : List (List Char) :=
  sortByLower L id (firstSeen subjects)

/-- The line of the aliases, if there are any. -/
def aliasLine (aliases : List (List Char)) : List (List Char) :=
  if aliases = [] then []
  else ["_alias : ".toList ++ ", ".toList.intercalate aliases ++ "_".toList]

/-- The line of a fact. -/
def factLine (relation object fact : List Char) : List Char :=
  let rel := if relation = [] then memGenericRelation else relation
  if object = [] then "- **".toList ++ rel ++ "** : ".toList ++ fact
  else "- **".toList ++ rel ++ "** ".toList ++ object ++ " : ".toList ++ fact

/-- The line of a subject without a fact. -/
def orphanLine (name kind : List Char) : List Char :=
  "- ".toList ++ name ++ " (".toList ++ kind ++ ")".toList

def mdLines (L : Text.Lowercase) (doc : Json) (platform : List Char) : List (List Char) :=
  let edges := Json.items doc "edges"
  let nodes := Json.items doc "nodes"
  let exported := ((Json.field doc "exported_at").take 19).map fun c => if c = 'T' then ' ' else c
  let subjects := mdSubjects L (edges.map fun e => Json.field e "subject")
  let orphans := nodes.filter fun n =>
    !edges.any fun e => Json.field e "subject" = Json.field n "name"
  ["# Ce que ".toList ++ platform ++ " sait de moi".toList, [],
    "> Exporté le ".toList ++ exported ++ " — ".toList ++ (toString edges.length).toList ++
      " fait(s), ".toList ++ (toString nodes.length).toList ++ " sujet(s).".toList, []] ++
  (subjects.flatMap fun subject =>
    ("## ".toList ++ subject) ::
      -- a name that two nodes had would be the last one's
      (((nodes.filter fun n => Json.field n "name" = subject).getLast?.toList.flatMap fun n =>
          aliasLine ((Json.items n "aliases").map fun a => a.str?.getD [])) ++
        ((edges.filter fun e => Json.field e "subject" = subject).map fun e =>
          factLine (Json.field e "relation") (Json.field e "object") (Json.field e "fact")) ++ [[]])) ++
  (if orphans = [] then []
    else "## Sujets sans fait".toList ::
      ((sortByLower L (fun n => Json.field n "name") orphans).map fun n =>
        orphanLine (Json.field n "name") (Json.field n "kind")) ++ [[]])

/-- `export_markdown`. -/
def exportMarkdown (L : Text.Lowercase) (doc : Json) (platform : List Char) : List Char :=
  ['\n'].intercalate (mdLines L doc platform)

/-! ## The expressions of `md_parse` -/

/-- The groups, by what they hold. -/
inductive MdGroup where
  | level
  | title
  | t
  | rel
  | obj
  | fact
  | content
  | alias
deriving DecidableEq

open Rx (many many1 one opt seqs letters chars)
open Text (isWhitespace)

abbrev MdRx := Rx Char MdGroup

/-- `.` -/
def dot (c : Char) : Bool := c != '\n'

def isChar (d c : Char) : Bool := c == d

def anyOf (ds : List Char) (c : Char) : Bool := ds.contains c

/-- A letter in either case; the long s is an s too. -/
def foldedChar (d c : Char) : Bool := c.toLower == d || (d == 's' && c == 'ſ')

/-- `^\s*(#{1,6})\s+(.*?)\s*#*\s*$` -/
def HEADING : MdRx :=
  seqs [many isWhitespace, chars (some .level) (isChar '#') 1 (some 6) false, many1 isWhitespace,
    chars (some .title) dot 0 none true, many isWhitespace, many (isChar '#'), many isWhitespace,
    .eot]

/-- `^\s*\*\*(?P<t>.+?)\*\*\s*$` -/
def BOLD_LINE : MdRx :=
  seqs ([many isWhitespace] ++ letters "**".toList ++ [chars (some .t) dot 1 none true] ++
    letters "**".toList ++ [many isWhitespace, .eot])

/-- `^\s*\*(?P<t>[^*].*?)\*\s*$` -/
def ITALIC_LINE : MdRx :=
  seqs [many isWhitespace, one (isChar '*'),
    .group .t (.seq (one fun c => !isChar '*' c) (chars none dot 0 none true)), one (isChar '*'),
    many isWhitespace, .eot]

/-- `(?i)^\s*_?alias\s*:\s*(.+?)\s*_?\s*$` -/
def ALIAS : MdRx :=
  seqs ([many isWhitespace, opt (isChar '_')] ++ ("alias".toList.map fun d => one (foldedChar d)) ++
    [many isWhitespace, one (isChar ':'), many isWhitespace, chars (some .alias) dot 1 none true,
      many isWhitespace, opt (isChar '_'), many isWhitespace, .eot])

/-- `^\s*(?:[-*+]|\d+[.)])\s+(.*)$` -/
def BULLET (digit : Char → Bool) : MdRx :=
  seqs [many isWhitespace,
    .alt (one (anyOf ['-', '*', '+'])) (.seq (many1 digit) (one (anyOf ['.', ')']))),
    many1 isWhitespace, chars (some .content) dot 0 none false, .eot]

/-- `^\*\*(?P<rel>[^*]+)\*\*(?:\s+(?P<obj>[^:]+?))?\s*:\s*(?P<fact>.+)$` -/
def STRUCT : MdRx :=
  seqs (letters "**".toList ++ [chars (some .rel) (fun c => !isChar '*' c) 1 none false] ++
    letters "**".toList ++
    [.alt (.seq (many1 isWhitespace) (chars (some .obj) (fun c => !isChar ':' c) 1 none true)) .nothing,
      many isWhitespace, one (isChar ':'), many isWhitespace, chars (some .fact) dot 1 none false,
      .eot])

/-- `\*\*(.+?)\*\*` -/
def BOLD_INLINE : MdRx :=
  seqs (letters "**".toList ++ [chars (some .t) dot 1 none true] ++ letters "**".toList)

/-- The text of a group, empty where it took no part. -/
def capText (n : MdGroup) (caps : List (MdGroup × List Char)) : List Char := (caps.lookup n).getD []

/-! ## `md_parse` -/

/-- A boundary of `str.splitlines()`. -/
def isLineEnd (c : Char) : Bool :=
  anyOf ['\r', '\n', '\x0b', '\x0c', '\x1c', '\x1d', '\x1e', '\u0085', '\u2028', '\u2029'] c

/-- `py_splitlines` behind the characters `cur` of a line. -/
def splitlinesFrom (cur : List Char) : List Char → List (List Char)
  | [] => if cur = [] then [] else [cur]
  | '\r' :: '\n' :: t => cur :: splitlinesFrom [] t
  | c :: t => if isLineEnd c then cur :: splitlinesFrom [] t else splitlinesFrom (cur ++ [c]) t

def pySplitlines (t : List Char) : List (List Char) := splitlinesFrom [] t

/-- `strip_inline`. -/
def stripInline (t : List Char) : List Char := Rx.replaceAll BOLD_INLINE (capText .t) t

/-- A letter that may begin a sentence. -/
def isSentenceStart (c : Char) : Bool :=
  c.isUpper || (0xC0 ≤ c.toNat && c.toNat ≤ 0xD6) || (0xD8 ≤ c.toNat && c.toNat ≤ 0xDE)

/-- The cuts of `split_sentences` behind the piece `part`, with the white space `gap` behind it if
that ends in an end mark. -/
def sentenceParts (part : List Char) (gap : Option (List Char)) : List Char → List (List Char)
  | [] => [part ++ gap.getD []]
  | c :: t =>
      match gap with
      | some spaces =>
          if pyIsSpace c then sentenceParts part (some (spaces ++ [c])) t
          else if isSentenceStart c then part :: sentenceParts [c] none t
          else sentenceParts (part ++ spaces ++ [c]) none t
      | none =>
          if pyIsSpace c && part.getLast?.any (anyOf ['.', '!', '?']) then
            sentenceParts part (some [c]) t
          else sentenceParts (part ++ [c]) none t

/-- The pieces joined: one under 40 characters takes the next one. -/
def joinParts (buf : List Char) : List (List Char) → List (List Char)
  | [] => if buf = [] then [] else [buf]
  | p :: ps =>
      let p := pyStrip p
      if p = [] then joinParts buf ps
      else if buf ≠ [] ∧ buf.length < 40 then joinParts (pyStrip (buf ++ ' ' :: p)) ps
      else (if buf = [] then [] else [buf]) ++ joinParts p ps

def splitSentences (t : List Char) : List (List Char) :=
  joinParts [] (sentenceParts [] none (pyStrip t))

/-- What is read so far: the current subject, the facts and the aliases. -/
structure MdState where
  cur : Option (List Char)
  edges : List MdFact
  aliases : List (List Char × List Char)
deriving DecidableEq

def MdState.init : MdState := ⟨none, [], []⟩

/-- A fact of a bullet, under a subject. -/
def mdBullet (subject content : List Char) : MdFact :=
  match Rx.captures STRUCT content with
  | some caps =>
      let rel := pyStrip (capText .rel caps)
      { subject := subject
        relation := if rel = [] then memGenericRelation else rel
        obj := ((caps.lookup .obj).map pyStrip).filter (· ≠ [])
        fact := stripInline (pyStrip (capText .fact caps)) }
  | none => ⟨subject, memGenericRelation, none, stripInline content⟩

/-- A line that is no title: aliases, a bullet, or prose. -/
def mdText (digit : Char → Bool) (s : MdState) (line : List Char) : MdState :=
  match Rx.captures ALIAS line, s.cur.filter (· ≠ []) with
  | some caps, some subject =>
      { s with aliases := s.aliases ++ [(subject, pyStrip (capText .alias caps))] }
  | _, _ =>
      match Rx.captures (BULLET digit) line with
      | some caps =>
          let content := pyStrip (capText .content caps)
          if content = [] then s
          else
            match s.cur with
            | none => s
            | some subject =>
                let f := mdBullet subject content
                if f.fact = [] then s else { s with edges := s.edges ++ [f] }
      | none =>
          match s.cur with
          | none => s
          | some subject =>
              { s with
                edges := s.edges ++ (splitSentences line).map fun sent =>
                  ⟨subject, memGenericRelation, none, stripInline sent⟩ }

/-- A line that an expression takes for a title; an empty title does not end the line. -/
def mdTitle (rx : MdRx) (next : MdState → List Char → MdState) (s : MdState) (line : List Char) :
    MdState :=
  match Rx.captures rx line with
  | some caps =>
      let t := pyStrip (stripInline (capText .t caps))
      let s := { s with cur := some t }
      if t = [] then next s line else s
  | none => next s line

/-- A line, without the white space at its end. -/
def mdLine (L : Text.Lowercase) (digit : Char → Bool) (s : MdState) (raw : List Char) : MdState :=
  let line := Text.trimEndMatches pyIsSpace raw
  if pyStrip line = [] then s
  else
    match Rx.captures HEADING line with
    | some caps =>
        let title := pyStrip (capText .title caps)
        if title = [] ∨ (capText .level caps).length = 1 then s
        else { s with cur := if L.lower title = "sujets sans fait".toList then none else some title }
    | none => mdTitle BOLD_LINE (mdTitle ITALIC_LINE (mdText digit)) s line

/-- `md_parse`: the facts, and the pairs of a subject and an alias. -/
def mdParse (L : Text.Lowercase) (digit : Char → Bool) (t : List Char) :
    List MdFact × List (List Char × List Char) :=
  let s := (pySplitlines t).foldl (mdLine L digit) .init
  (s.edges, s.aliases)

end Portal.Memory
