import DgxPlatform.Lib.Regex
import DgxPlatform.Portal.ArtifactLayout

/-! # How files get their names

The name of a file in an answer is announced in the text in front of its block, or asked for
in the request, or else made up. `namesOf` puts this together for `parseArtifacts`.
-/

namespace Portal.Ask

open Text
open Playground (utf16Length)

/-! ## Slices -/

/-- At most `n` units of UTF-16; half a character is a replacement character. -/
def takeUnits : Nat → List Char → List Char
  | _, [] => []
  | 0, _ => []
  | n + 1, c :: t =>
      if c.toNat < 0x10000 then c :: takeUnits n t
      else if n = 0 then ['\uFFFD']
      else c :: takeUnits (n - 1) t

/-- `slice(-n)`. -/
def lastUnits (n : Nat) (t : List Char) : List Char := (takeUnits n t.reverse).reverse

/-- `String.prototype.replace` of a text that has no pattern in its replacement. -/
def replaceFirst (pattern by' t : List Char) : List Char :=
  match splitOnce pattern t with
  | some (a, b) => a ++ by' ++ b
  | none => t

/-! ## File names in a text -/

/-- The extensions of `FILE_EXT`. -/
def FILE_EXT : List String :=
  ["yaml", "yml", "json", "jsonc", "toml", "ini", "cfg", "conf", "env", "py", "js", "mjs", "cjs", "ts", "tsx",
    "jsx", "sh", "bash", "zsh", "go", "rs", "rb", "php", "java", "kt", "c", "h", "cpp", "sql", "html", "css",
    "scss", "md", "txt", "log", "xml", "service", "tf", "gradle"]

def BARE_FILES : List String := ["dockerfile", "makefile", "vagrantfile", "jenkinsfile", "procfile"]

def isFileName (name : List Char) : Bool :=
  let name := name.map Char.toLower
  FILE_EXT.any (fun ext => ('.' :: ext.toList).isSuffixOf name) || BARE_FILES.any fun bare => bare.toList = name

/-- `[\w.-]`. -/
def isNameChar (c : Char) : Bool := c.isAlphanum || c = '_' || c = '.' || c = '-'

/-- `[\w.-]+(?:\/[\w.-]+)*` in front of something: the longest match that stops there. -/
def pathAt (stop : Char → Bool) (t : List Char) : Option Nat :=
  let run := t.takeWhile fun c => isNameChar c || c = '/'
  (List.range run.length).reverse.findSome? fun i =>
    if ((run.take (i + 1)).splitOn '/').all (fun part => !part.isEmpty) &&
        (t.drop (i + 1)).head?.all stop then some (i + 1)
    else none

/-- A path at a start, or behind a character that may lead to one: the characters skipped,
and the length of the path. -/
def leadingPath (start : Bool) (lead stop : Char → Bool) (t : List Char) : Option (Nat × Nat) :=
  (if start then (pathAt stop t).map fun n => (0, n) else none) <|>
    match t with
    | c :: t => if lead c then (pathAt stop t).map fun n => (1, n) else none
    | [] => none

/-- All the paths of a text; `start` says where one may start without a lead. -/
def paths (start : Nat → Bool) (lead stop : Char → Bool) (t : List Char) : List (List Char) :=
  (Scan.scan (fun pos t => leadingPath (start pos) lead stop t) (fun m => m.1 + m.2) 0 t).map
    fun m => (t.drop (m.1 + m.2.1)).take m.2.2

/-- `[^\x60\n]{1,80}` in backticks. -/
def tickedAt (t : List Char) : Option Nat :=
  match t with
  | '\x60' :: t =>
      let run := t.takeWhile fun c => c ≠ '\x60' && c ≠ '\n'
      if 1 ≤ utf16Length run ∧ utf16Length run ≤ 80 ∧ (t.drop run.length).head? = some '\x60' then some run.length
      else none
  | _ => none

def tickeds (t : List Char) : List (List Char) :=
  (Scan.scan (fun _ => tickedAt) (· + 2) 0 t).map fun m => jsTrim ((t.drop (m.1 + 1)).take m.2)

/-- A line of a text ends here. -/
def isLineEnd (c : Char) : Bool := c = '\n' || c = '\r' || c = '\u2028' || c = '\u2029'

def withoutDots (name : List Char) : List Char := name.dropWhile fun c => c = '.' || c = '/'

/-- `titleFromContext`. -/
def titleFromContext (before : List Char) : List Char :=
  let zone := ((rsplitOnceText fence before).map Prod.snd).getD before
  let tail := lastUnits 300 zone
  let candidates := tickeds tail ++
    paths (fun pos => pos = 0 || (tail[pos - 1]?).any isLineEnd)
      (fun c => isJsSpace c || c ∈ "(*_\"'>".toList) (fun c => isJsSpace c || c ∈ ":,)*_\"'.".toList) tail
  (candidates.reverse.findSome? fun c =>
    let c := withoutDots c
    if c ≠ [] ∧ utf16Length c ≤ 80 ∧ isFileName c then some c else none).getD []

/-- `askedFileNames`. -/
def askedFileNames (request : List Char) : List (List Char) :=
  (paths (· = 0) (fun c => isJsSpace c || c ∈ "(\x60\"'«".toList)
    (fun c => isJsSpace c || c ∈ ":,;)\x60\"'».!?".toList) request).foldl (fun names m =>
      let c := withoutDots m
      let c := if c.getLast? = some '.' then c.dropLast else c
      if isFileName c ∧ c ∉ names then names ++ [c] else names) []

/-! ## Excerpts -/

section Excerpt

-- the folding of letters that a case-insensitive expression compares with
variable (fold : Char → Char)

def word (w : List Char) : Rx Char Unit := .seqs (w.map fun c => .one fun d => fold d = fold c)

def oneOf (words : List String) : Rx Char Unit :=
  (words.map fun w => word fold w.toList).foldr (fun r s => .alt r s) (.chars none (fun _ => true) 1 (some 0) false)

def optional (r : Rx Char Unit) : Rx Char Unit := .alt r .nothing

/-- The name right behind a « where » preposition. -/
def whereRx (title : List Char) : Rx Char Unit :=
  .seqs [oneOf fold ["dans", "à", "au", "sous", "in", "into", "under"], .many1 isJsSpace,
    optional (.seq (oneOf fold ["le", "la", "ton", "ta", "votre", "the", "your"]) (.many1 isJsSpace)),
    optional (.seq (oneOf fold ["fichier", "file"]) (.many1 isJsSpace)),
    .many fun c => c ∈ "\x60*\"'".toList, word fold title]

/-- `isExcerptOf`. -/
def isExcerptOf (title body lead : List Char) (existing : Nat) : Bool :=
  if existing = 0 ∨ 15 < body.count '\n' + 1 then false
  else if utf16Length body * 3 < existing then true
  else
    let lead := lastUnits 200 lead
    ((whereRx fold title).first lead).isSome ||
      lead.tails.any fun t =>
        match t with
        | c :: t => (isJsSpace c || c = '(') && ((whereRx fold title).first t).isSome
        | [] => false

end Excerpt

/-! ## Languages -/

/-- The extensions of `LANG_INFO`. -/
def langExt : List (String × String) :=
  [("html", "html"), ("htm", "html"), ("css", "css"), ("javascript", "js"), ("js", "js"), ("typescript", "ts"),
    ("ts", "ts"), ("tsx", "tsx"), ("jsx", "jsx"), ("json", "json"), ("yaml", "yml"), ("yml", "yml"),
    ("toml", "toml"), ("python", "py"), ("py", "py"), ("bash", "sh"), ("sh", "sh"), ("shell", "sh"),
    ("sql", "sql"), ("xml", "xml"), ("markdown", "md"), ("md", "md"), ("go", "go"), ("rust", "rs"), ("rs", "rs"),
    ("java", "java"), ("c", "c"), ("cpp", "cpp"), ("php", "php"), ("ruby", "rb"),
    -- inherited by every object, without an extension
    ("constructor", "undefined"), ("__proto__", "undefined")]

/-- The names of the files of an answer to a request; `t` translates, `known` is the content
of a file so far. -/
def namesOf (fold : Char → Char) (t : List Char → List Char) (request : List Char)
    (known : List Char → Option (List Char)) : Names where
  titleFromContext := titleFromContext
  isExcerptOf := isExcerptOf fold
  known := known
  ext := fun lang => (langExt.lookup (String.ofList lang)).map String.toList
  askedFileNames := askedFileNames request
  fallback := fun n ext =>
    match ext with
    | some ext =>
        replaceFirst "\x7bext\x7d".toList ext
          (replaceFirst "\x7bn\x7d".toList (Nat.toDigits 10 n) (t "fichier-\x7bn\x7d.\x7bext\x7d".toList))
    | none => replaceFirst "\x7bn\x7d".toList (Nat.toDigits 10 n) (t "fichier-\x7bn\x7d.txt".toList)

end Portal.Ask
