import DgxPlatform.Lib.Run
import DgxPlatform.Portal.Rejoin
import Mathlib.Data.List.Chain

/-! # The depth at the end of a script

`finalDepth` counts the blocks a script leaves open. One counter serves the three kinds of
brackets and the holes of templates; the depths at which holes were opened are remembered in a
stack, and a brace that gets back to the last of them continues the text of its template.
-/

namespace Portal.ScriptDepth

open Rejoin (JsText isSpace units lineFeed)

/-! ## The scanner -/

abbrev tick : UInt16 := 96
abbrev slash : UInt16 := 47
abbrev star : UInt16 := 42
abbrev backslash : UInt16 := 92
abbrev dollar : UInt16 := 36
abbrev singleQuote : UInt16 := 39
abbrev doubleQuote : UInt16 := 34

/-- `{`, `(` and `[`. -/
inductive Bracket where
  | brace
  | paren
  | square
deriving DecidableEq, Repr

def Bracket.opening : Bracket → UInt16
  | .brace => 123
  | .paren => 40
  | .square => 91

def Bracket.closing : Bracket → UInt16
  | .brace => 125
  | .paren => 41
  | .square => 93

def isOpening (c : UInt16) : Bool := c == 123 || c == 40 || c == 91

def isClosing (c : UInt16) : Bool := c == 125 || c == 41 || c == 93

/-- How far it is to the end of a block comment. -/
def blockLength : JsText → Nat
  | [] => 0
  | c :: rest => if c = star ∧ rest.head? = some slash then 0 else blockLength rest + 1

/-- How far it is to the end of a string. -/
def stringLength (q : UInt16) : JsText → Nat
  | [] => 0
  | c :: rest =>
      if c = q then 0
      else if c = backslash then
        match rest with
        | [] => 2
        | _ :: rest => stringLength q rest + 2
      else stringLength q rest + 1

/-- How far a regular expression goes; it does not go on over the end of its line. -/
def regexLength (inClass : Bool) : JsText → Nat
  | [] => 0
  | c :: rest =>
      if c = backslash then
        match rest with
        | [] => 2
        | _ :: rest => regexLength inClass rest + 2
      else if c = 91 then regexLength true rest + 1
      else if c = 93 then regexLength false rest + 1
      else if c = slash ∧ inClass = false then 1
      else if c = lineFeed then 0
      else regexLength inClass rest + 1

/-- How the text of a template ends, and where: with the script, with its backtick, or with the
beginning of a hole. -/
inductive TextEnd where
  | unfinished
  | closed (pos : Nat)
  | hole (pos : Nat)
deriving DecidableEq, Repr

def templateText (i : Nat) : JsText → TextEnd
  | [] => .unfinished
  | c :: rest =>
      if c = backslash then
        match rest with
        | [] => .unfinished
        | _ :: rest => templateText (i + 2) rest
      else if c = tick then .closed (i + 1)
      else if c = dollar ∧ rest.head? = some 123 then .hole (i + 2)
      else templateText (i + 1) rest

structure Scan where
  i : Nat
  depth : Int
  templates : List Int
  previous : Option UInt16
deriving DecidableEq, Repr

def start : Scan := { i := 0, depth := 0, templates := [], previous := none }

/-- `previous = "x"`. -/
def operand : Option UInt16 := some 120

/-- The last significant character behind one more. -/
def Scan.seen (s : Scan) (c : UInt16) : Option UInt16 := if isSpace c then s.previous else some c

/-- The inner loop over the text of a template, from a position on. -/
def fromText (code : JsText) (i : Nat) (depth : Int) (templates : List Int) : Scan ⊕ Int :=
  match templateText i (code.drop i) with
  | .unfinished => .inr 1
  | .closed pos => .inl { i := pos, depth := depth, templates := templates, previous := operand }
  | .hole pos => .inl { i := pos, depth := depth + 1, templates := depth :: templates, previous := operand }

def beforeRegex (c : UInt16) : Bool := (units "(,=:[!&|?\x7b\x7d;+-*%~^<>").contains c

def isWord (c : UInt16) : Bool := (48 ≤ c && c ≤ 57) || (65 ≤ c && c ≤ 90) || (97 ≤ c && c ≤ 122) || c == 95

def WORDS : List JsText :=
  [units "return", units "typeof", units "instanceof", units "in", units "of", units "new", units "delete",
    units "void", units "do", units "else", units "case", units "yield", units "await"]

/-- `wordsBeforeRegex`, at the end of a text. -/
def wordBeforeRegex (t : JsText) : Bool :=
  WORDS.any fun w => w.isSuffixOf t && ((t.take (t.length - w.length)).getLast?).all fun c => !isWord c && c != dollar

def regexAllowed (code : JsText) (s : Scan) : Bool :=
  s.previous.all beforeRegex || wordBeforeRegex ((code.drop (s.i - 12)).take (s.i - (s.i - 12)))

/-- One turn of the main loop: where it goes on, or what is returned. -/
def turn (code : JsText) (s : Scan) : Scan ⊕ Int :=
  match code.drop s.i with
  | [] => .inr s.depth
  | c :: rest =>
      if c = slash ∧ rest.head? = some slash then
        .inl { s with i := s.i + ((c :: rest).takeWhile fun u => u != lineFeed).length }
      else if c = slash ∧ rest.head? = some star then
        .inl { s with i := s.i + 2 + blockLength (rest.drop 1) + 2 }
      else if c = singleQuote ∨ c = doubleQuote then
        .inl { s with i := s.i + 1 + stringLength c rest + 1, previous := operand }
      else if c = tick then fromText code (s.i + 1) s.depth s.templates
      else if c = slash ∧ regexAllowed code s = true then
        .inl { s with i := s.i + 1 + regexLength false rest, previous := operand }
      else if isOpening c then .inl { s with i := s.i + 1, depth := s.depth + 1, previous := s.seen c }
      else if isClosing c then
        -- a brace that closes a hole drops back into the template
        if s.templates.head? = some (s.depth - 1) then fromText code (s.i + 1) (s.depth - 1) s.templates.tail
        else .inl { s with i := s.i + 1, depth := s.depth - 1, previous := s.seen c }
      else .inl { s with i := s.i + 1, previous := s.seen c }

/-- So many turns at most. -/
def run (code : JsText) : Nat → Scan → Option Int
  | 0, _ => none
  | k + 1, s =>
      match turn code s with
      | .inl s' => run code k s'
      | .inr d => some d

/-- `finalDepth`; each turn takes a unit at least. -/
def finalDepth (code : JsText) : Option Int := run code (code.length + 1) start

/-! ## The end of the scan -/

theorem lt_templateText (i : Nat) (t : JsText) :
    (∀ pos, templateText i t = .closed pos → i < pos) ∧ ∀ pos, templateText i t = .hole pos → i < pos := by
  fun_induction templateText i t with
  | case1 i => simp
  | case2 i => simp
  | case3 i u rest ih =>
    have hle := Nat.le_add_right i 2
    exact ⟨fun pos h => Nat.lt_of_le_of_lt hle (ih.1 pos h), fun pos h => Nat.lt_of_le_of_lt hle (ih.2 pos h)⟩
  | case4 i rest => simp
  | case5 i c rest => simp
  | case6 i c rest hback htick hdollar ih =>
    exact ⟨fun pos h => Nat.lt_of_succ_lt (ih.1 pos h), fun pos h => Nat.lt_of_succ_lt (ih.2 pos h)⟩

theorem lt_of_fromText {code : JsText} {i : Nat} {depth : Int} {templates : List Int} {s : Scan}
    (h : fromText code i depth templates = .inl s) : i < s.i := by
  unfold fromText at h
  cases htext : templateText i (code.drop i) with
  | unfinished =>
    rw [htext] at h
    cases h
  | closed pos =>
    rw [htext] at h
    cases h
    exact (lt_templateText i _).1 pos htext
  | hole pos =>
    rw [htext] at h
    cases h
    exact (lt_templateText i _).2 pos htext

theorem lt_of_turn {code : JsText} {s s' : Scan} (h : turn code s = .inl s') :
    s.i < code.length ∧ s.i < s'.i := by
  unfold turn at h
  cases hdrop : code.drop s.i with
  | nil =>
    rw [hdrop] at h
    cases h
  | cons c rest =>
    have hin : s.i < code.length := by
      by_contra hge
      rw [List.drop_eq_nil_of_le (Nat.le_of_not_lt hge)] at hdrop
      cases hdrop
    refine ⟨hin, ?_⟩
    rw [hdrop] at h
    dsimp only at h
    split_ifs at h with hline hblock hquote htick hregex hopen hclose hhole
    · cases h
      have hc : (c != lineFeed) = true := by
        rw [hline.1]
        decide
      simp [hc]
    · cases h
      dsimp only
      omega
    · cases h
      dsimp only
      omega
    · have hlt := lt_of_fromText h
      omega
    · cases h
      dsimp only
      omega
    · cases h
      exact Nat.lt_succ_self _
    · have hlt := lt_of_fromText h
      omega
    · cases h
      exact Nat.lt_succ_self _
    · cases h
      exact Nat.lt_succ_self _

theorem run_isSome {code : JsText} {k : Nat} {s : Scan} (hk : code.length + 1 ≤ s.i + k) (hpos : 0 < k) :
    (run code k s).isSome = true := by
  induction k generalizing s with
  | zero => exact absurd hpos (Nat.lt_irrefl 0)
  | succ k ih =>
    rw [run]
    cases hturn : turn code s with
    | inr d => rfl
    | inl s' =>
      rcases lt_of_turn hturn with ⟨hin, hlt⟩
      exact ih (by omega) (by omega)

theorem run_of_le {code : JsText} {k m : Nat} {s : Scan} {d : Int} (h : run code k s = some d) (hkm : k ≤ m) :
    run code m s = some d := by
  induction k generalizing m s with
  | zero => cases h
  | succ k ih =>
    cases m with
    | zero => exact absurd hkm (Nat.not_succ_le_zero k)
    | succ m =>
      rw [run] at h ⊢
      cases hturn : turn code s with
      | inr d' =>
        rw [hturn] at h
        exact h
      | inl s' =>
        rw [hturn] at h
        exact ih h (Nat.le_of_succ_le_succ hkm)

/-- The scan goes on from here to a result. -/
def Ends (code : JsText) (s : Scan) (d : Int) : Prop := ∃ k, run code k s = some d

theorem ends_of_turn {code : JsText} {s s' : Scan} {d : Int} (h : turn code s = .inl s') (hs : Ends code s' d) :
    Ends code s d := by
  rcases hs with ⟨k, hk⟩
  refine ⟨k + 1, ?_⟩
  rw [run, h]
  exact hk

theorem finalDepth_of_ends {code : JsText} {d : Int} (h : Ends code start d) : finalDepth code = some d := by
  rcases h with ⟨k, hk⟩
  have hsome : (finalDepth code).isSome = true := run_isSome (by simp [start]) (Nat.succ_pos _)
  rcases Option.isSome_iff_exists.1 hsome with ⟨e, he⟩
  -- the two results agree where both numbers of turns are enough
  have hk' := run_of_le hk (Nat.le_max_left k (code.length + 1))
  have he' := run_of_le he (Nat.le_max_right k (code.length + 1))
  rw [hk'] at he'
  rw [he, ← he']

/-! ## Scripts -/

/-- What is between the quotes: units other than the quote and the backslash, and escapes. -/
inductive Escaped (q : UInt16) : JsText → Prop
  | nil : Escaped q []
  | char {u : UInt16} {t : JsText} : u ≠ q → u ≠ backslash → Escaped q t → Escaped q (u :: t)
  | escape (u : UInt16) {t : JsText} : Escaped q t → Escaped q (backslash :: u :: t)

inductive Token where
  | plain (u : UInt16)
  | string (q : UInt16) (body : JsText)
  | lineComment (body : JsText)
  | blockComment (body : JsText)
  | opening (b : Bracket)
  | closing (b : Bracket)
  | templateStart
  | templateEnd
  | textChar (u : UInt16)
  | textEscape (u : UInt16)
  | holeStart
  | holeEnd
deriving DecidableEq, Repr

/-- How a token is written. -/
def Token.text : Token → JsText
  | .plain u => [u]
  | .string q body => q :: body ++ [q]
  | .lineComment body => slash :: slash :: body
  | .blockComment body => slash :: star :: body ++ [star, slash]
  | .opening b => [b.opening]
  | .closing b => [b.closing]
  | .templateStart => [tick]
  | .templateEnd => [tick]
  | .textChar u => [u]
  | .textEscape u => [backslash, u]
  | .holeStart => [dollar, 123]
  | .holeEnd => [125]

def write (ts : List Token) : JsText := ts.flatMap Token.text

/-- Which units stand for themselves, and what strings and comments have inside. -/
def Token.Ok : Token → Prop
  | .plain u =>
      (u ≠ singleQuote ∧ u ≠ doubleQuote ∧ u ≠ tick ∧ u ≠ slash ∧ u ≠ backslash) ∧
        isOpening u = false ∧ isClosing u = false
  | .string q body => (q = singleQuote ∨ q = doubleQuote) ∧ Escaped q body
  | .lineComment body => lineFeed ∉ body
  | .blockComment body => ¬ [star, slash] <:+: body
  | .textChar u => u ≠ tick ∧ u ≠ backslash
  | _ => True

/-- What may stand behind a token: a line comment goes on to the end of its line, and a dollar
sign with a brace is a hole. -/
def Token.Before (a : Token) (rest : JsText) : Prop :=
  match a with
  | .lineComment _ => ∀ c ∈ rest.head?, c = lineFeed
  | .textChar u => u = dollar → rest.head? ≠ some 123
  | _ => True

inductive Part where
  | code
  | text

/-- The code of a script, or the text of a template, in which everything that is opened is closed. -/
inductive WellBracketed : Part → List Token → Prop
  | nil (part : Part) : WellBracketed part []
  | plain {u : UInt16} {ts : List Token} : (Token.plain u).Ok → WellBracketed .code ts →
      WellBracketed .code (.plain u :: ts)
  | string {q : UInt16} {body : JsText} {ts : List Token} : (Token.string q body).Ok → WellBracketed .code ts →
      WellBracketed .code (.string q body :: ts)
  | lineComment {body : JsText} {ts : List Token} : (Token.lineComment body).Ok → WellBracketed .code ts →
      WellBracketed .code (.lineComment body :: ts)
  | blockComment {body : JsText} {ts : List Token} : (Token.blockComment body).Ok → WellBracketed .code ts →
      WellBracketed .code (.blockComment body :: ts)
  | group (b : Bracket) {inner ts : List Token} : WellBracketed .code inner → WellBracketed .code ts →
      WellBracketed .code (.opening b :: inner ++ .closing b :: ts)
  | template {inner ts : List Token} : WellBracketed .text inner → WellBracketed .code ts →
      WellBracketed .code (.templateStart :: inner ++ .templateEnd :: ts)
  | textChar {u : UInt16} {ts : List Token} : (Token.textChar u).Ok → WellBracketed .text ts →
      WellBracketed .text (.textChar u :: ts)
  | textEscape (u : UInt16) {ts : List Token} : WellBracketed .text ts → WellBracketed .text (.textEscape u :: ts)
  | hole {inner ts : List Token} : WellBracketed .code inner → WellBracketed .text ts →
      WellBracketed .text (.holeStart :: inner ++ .holeEnd :: ts)

/-- Well-bracketed code. -/
structure Script where
  tokens : List Token
  wellBracketed : WellBracketed .code tokens
  separate : tokens.IsChain fun a b => a.Before b.text

/-! ## What is open -/

inductive Frame where
  | bracket (b : Bracket)
  | template
  | hole
deriving DecidableEq, Repr

/-- What is open behind one more token. -/
def Frame.push (fs : List Frame) : Token → List Frame
  | .opening b => .bracket b :: fs
  | .templateStart => .template :: fs
  | .holeStart => .hole :: fs
  | .closing _ | .templateEnd | .holeEnd => fs.tail
  | _ => fs

/-- What is open behind some tokens, the last one first. -/
def openAfter (ts : List Token) : List Frame := ts.foldl Frame.push []

/-- The brackets and the holes among what is open. -/
def blocks (fs : List Frame) : Nat := fs.countP fun f => f != .template

/-- What is to be returned behind these tokens. -/
def answer (ts : List Token) : Int :=
  if (openAfter ts).head? = some .template then 1 else blocks (openAfter ts)

/-- The token stands where it can: text in a template only, and a closing one where it closes
what was opened last. -/
def fits (fs : List Frame) (t : Token) : Bool :=
  match t with
  | .plain _ | .string _ _ | .lineComment _ | .blockComment _ | .opening _ | .templateStart =>
      fs.head? != some .template
  | .closing b => fs.head? == some (.bracket b) && fs.tail.head? != some .template
  | .templateEnd => fs.head? == some .template && fs.tail.head? != some .template
  | .textChar _ | .textEscape _ | .holeStart => fs.head? == some .template
  | .holeEnd => fs.head? == some .hole && fs.tail.head? == some .template

def read (fs : List Frame) (t : Token) : Option (List Frame) :=
  if fits fs t = true then some (Frame.push fs t) else none

/-- Where the tokens of a part stand. -/
def Part.Fits (fs : List Frame) : Part → Prop
  | .code => fs.head? ≠ some .template
  | .text => fs.head? = some .template

variable {ts : List Token}

theorem exec_cons_of_fits {fs fs' : List Frame} {t : Token} (hfits : fits fs t = true)
    (hrest : Run.exec read (Frame.push fs t) ts = some fs') : Run.exec read fs (t :: ts) = some fs' := by
  refine Run.exec_cons_eq_some.2 ⟨Frame.push fs t, ?_, hrest⟩
  rw [read, if_pos hfits]

/-- A part between an opening token and the closing one of its kind. -/
theorem exec_nested {fs : List Frame} {o c : Token} {inner ts : List Token} (hopen : fits fs o = true)
    (hinner : Run.exec read (Frame.push fs o) inner = some (Frame.push fs o))
    (hclose : fits (Frame.push fs o) c = true) (hback : Frame.push (Frame.push fs o) c = fs)
    (hrest : Run.exec read fs ts = some fs) : Run.exec read fs (o :: inner ++ c :: ts) = some fs := by
  refine exec_cons_of_fits hopen (Run.exec_append_eq_some.2 ⟨_, hinner, ?_⟩)
  apply exec_cons_of_fits hclose
  rw [hback]
  exact hrest

/-- Behind a well-bracketed part the same is open as in front of it. -/
theorem exec_wellBracketed {part : Part} (h : WellBracketed part ts) {fs : List Frame}
    (hfs : part.Fits fs) : Run.exec read fs ts = some fs := by
  induction h generalizing fs with
  | nil part => rfl
  | plain _ _ ih => exact exec_cons_of_fits (by simpa [fits, Part.Fits] using hfs) (ih hfs)
  | string _ _ ih => exact exec_cons_of_fits (by simpa [fits, Part.Fits] using hfs) (ih hfs)
  | lineComment _ _ ih => exact exec_cons_of_fits (by simpa [fits, Part.Fits] using hfs) (ih hfs)
  | blockComment _ _ ih => exact exec_cons_of_fits (by simpa [fits, Part.Fits] using hfs) (ih hfs)
  | group b _ _ ihinner ih =>
    have hfs' : fs.head? ≠ some .template := hfs
    apply exec_nested
    · simpa [fits] using hfs'
    · exact ihinner (by simp [Part.Fits, Frame.push])
    · simpa [fits, Frame.push] using hfs'
    · rfl
    · exact ih hfs
  | template _ _ ihinner ih =>
    have hfs' : fs.head? ≠ some .template := hfs
    apply exec_nested
    · simpa [fits] using hfs'
    · exact ihinner rfl
    · simpa [fits, Frame.push] using hfs'
    · rfl
    · exact ih hfs
  | textChar _ _ ih => exact exec_cons_of_fits (by simpa [fits, Part.Fits] using hfs) (ih hfs)
  | textEscape _ _ ih => exact exec_cons_of_fits (by simpa [fits, Part.Fits] using hfs) (ih hfs)
  | hole _ _ ihinner ih =>
    have hfs' : fs.head? = some .template := hfs
    apply exec_nested
    · simpa [fits] using hfs'
    · exact ihinner (by simp [Part.Fits, Frame.push])
    · simpa [fits, Frame.push] using hfs'
    · rfl
    · exact ih hfs

theorem ok_of_wellBracketed {part : Part} (h : WellBracketed part ts) : ∀ t ∈ ts, t.Ok := by
  induction h with
  | nil part => exact List.forall_mem_nil _
  | plain hok _ ih => exact List.forall_mem_cons.2 ⟨hok, ih⟩
  | string hok _ ih => exact List.forall_mem_cons.2 ⟨hok, ih⟩
  | lineComment hok _ ih => exact List.forall_mem_cons.2 ⟨hok, ih⟩
  | blockComment hok _ ih => exact List.forall_mem_cons.2 ⟨hok, ih⟩
  | group b _ _ ihinner ih =>
    refine List.forall_mem_cons.2 ⟨trivial, List.forall_mem_append.2 ⟨ihinner, ?_⟩⟩
    exact List.forall_mem_cons.2 ⟨trivial, ih⟩
  | template _ _ ihinner ih =>
    refine List.forall_mem_cons.2 ⟨trivial, List.forall_mem_append.2 ⟨ihinner, ?_⟩⟩
    exact List.forall_mem_cons.2 ⟨trivial, ih⟩
  | textChar hok _ ih => exact List.forall_mem_cons.2 ⟨hok, ih⟩
  | textEscape u _ ih => exact List.forall_mem_cons.2 ⟨trivial, ih⟩
  | hole _ _ ihinner ih =>
    refine List.forall_mem_cons.2 ⟨trivial, List.forall_mem_append.2 ⟨ihinner, ?_⟩⟩
    exact List.forall_mem_cons.2 ⟨trivial, ih⟩

theorem foldl_of_exec {fs fs' : List Frame} (h : Run.exec read fs ts = some fs') :
    ts.foldl Frame.push fs = fs' := by
  induction ts generalizing fs with
  | nil => exact Option.some.inj h
  | cons t ts ih =>
    rcases Run.exec_cons_eq_some.1 h with ⟨m, hm, hrest⟩
    rw [read, Option.ite_none_right_eq_some] at hm
    rw [List.foldl_cons, Option.some.inj hm.2]
    exact ih hrest

/-! ## One token -/

/-- The depths at which the open holes were opened. -/
def holes : List Frame → List Int
  | [] => []
  | .hole :: fs => blocks fs :: holes fs
  | _ :: fs => holes fs

theorem blocks_cons (f : Frame) (fs : List Frame) :
    (blocks (f :: fs) : Int) = blocks fs + if f = .template then 0 else 1 := by
  by_cases hf : f = .template <;> simp [blocks, hf]

theorem lt_of_mem_holes {fs : List Frame} : ∀ h ∈ holes fs, h < blocks fs := by
  induction fs with
  | nil => exact List.forall_mem_nil _
  | cons f fs ih =>
    intro h hmem
    rw [blocks_cons]
    cases f with
    | bracket b =>
      have hlt := ih h hmem
      rw [if_neg Frame.noConfusion]
      omega
    | template =>
      have hlt := ih h hmem
      rw [if_pos rfl]
      omega
    | hole =>
      rw [if_neg Frame.noConfusion]
      rcases List.mem_cons.1 hmem with rfl | hmem
      · exact Int.lt_succ _
      · have hlt := ih h hmem
        omega

section Turn

variable {code r : JsText} {s : Scan} {i : Nat} {depth : Int} {templates : List Int}

theorem drop_add {a : JsText} (h : code.drop i = a ++ r) : code.drop (i + a.length) = r := by
  rw [← List.drop_drop, h, List.drop_left]

theorem stringLength_end (q : UInt16) (t : JsText) : stringLength q (q :: t) = 0 := by
  rw [stringLength.eq_def]
  exact if_pos rfl

variable {body : JsText}

theorem stringLength_eq {q : UInt16} (hq : q ≠ backslash) (h : Escaped q body) :
    stringLength q (body ++ q :: r) = body.length := by
  induction h with
  | nil => exact stringLength_end q r
  | char hne hback _ ih =>
    rw [List.cons_append, stringLength.eq_def]
    dsimp only
    rw [if_neg hne, if_neg hback, ih]
    rfl
  | escape u _ ih =>
    rw [List.cons_append, stringLength.eq_def]
    dsimp only
    rw [if_neg (Ne.symm hq), if_pos rfl]
    dsimp only [List.cons_append]
    rw [ih]
    rfl

theorem blockLength_eq (h : ¬ [star, slash] <:+: body) :
    blockLength (body ++ star :: slash :: r) = body.length := by
  induction body with
  | nil => simp [blockLength]
  | cons c body ih =>
    have hno : ¬ (c = star ∧ (body ++ star :: slash :: r).head? = some slash) := by
      rintro ⟨rfl, hhead⟩
      cases body with
      | nil =>
        have heq : star = slash := Option.some.inj hhead
        exact absurd heq (by decide)
      | cons d body =>
        have hd : d = slash := Option.some.inj hhead
        subst hd
        exact h ⟨[], body, rfl⟩
    have hrest : ¬ [star, slash] <:+: body := fun hin => h (List.infix_cons hin)
    rw [List.cons_append, blockLength, if_neg hno, ih hrest]
    rfl

theorem takeWhile_line (h : lineFeed ∉ body) (hr : ∀ c ∈ r.head?, c = lineFeed) :
    (body ++ r).takeWhile (fun u => u != lineFeed) = body := by
  have hbody : ∀ u ∈ body, (u != lineFeed) = true := by
    intro u hu
    rw [bne_iff_ne]
    rintro rfl
    exact h hu
  rw [List.takeWhile_append_of_pos hbody]
  cases r with
  | nil => simp
  | cons c r =>
    have hc : c = lineFeed := hr c rfl
    subst hc
    simp

/-- A unit that begins no comment, string, template or regular expression. -/
theorem turn_unit {c : UInt16} (hquote : c ≠ singleQuote ∧ c ≠ doubleQuote) (htick : c ≠ tick) (hslash : c ≠ slash)
    (hdrop : code.drop s.i = c :: r) :
    turn code s =
      if isOpening c then .inl { s with i := s.i + 1, depth := s.depth + 1, previous := s.seen c }
      else if isClosing c then
        if s.templates.head? = some (s.depth - 1) then fromText code (s.i + 1) (s.depth - 1) s.templates.tail
        else .inl { s with i := s.i + 1, depth := s.depth - 1, previous := s.seen c }
      else .inl { s with i := s.i + 1, previous := s.seen c } := by
  have hq : ¬ (c = singleQuote ∨ c = doubleQuote) := not_or.2 hquote
  unfold turn
  rw [hdrop]
  dsimp only
  rw [if_neg fun h => hslash h.1, if_neg fun h => hslash h.1, if_neg hq, if_neg htick, if_neg fun h => hslash h.1]

theorem turn_plain {u : UInt16} (hok : (Token.plain u).Ok) (hdrop : code.drop s.i = u :: r) :
    turn code s = .inl { s with i := s.i + 1, previous := s.seen u } := by
  rcases hok with ⟨⟨hsingle, hdouble, htick, hslash, -⟩, hopen, hclose⟩
  rw [turn_unit ⟨hsingle, hdouble⟩ htick hslash hdrop, hopen, hclose]
  rfl

theorem turn_string {q : UInt16} (hok : (Token.string q body).Ok)
    (hdrop : code.drop s.i = (Token.string q body).text ++ r) :
    turn code s = .inl { s with i := s.i + (Token.string q body).text.length, previous := operand } := by
  rcases hok with ⟨hq, hbody⟩
  have hdrop' : code.drop s.i = q :: (body ++ q :: r) := by
    rw [hdrop, Token.text]
    simp
  have hslash : q ≠ slash := by rcases hq with rfl | rfl <;> decide
  have hback : q ≠ backslash := by rcases hq with rfl | rfl <;> decide
  have hlen : s.i + (Token.string q body).text.length = s.i + 1 + body.length + 1 := by
    simp only [Token.text, List.length_append, List.length_cons, List.length_nil]
    omega
  unfold turn
  rw [hdrop', hlen]
  dsimp only
  rw [if_neg fun h => hslash h.1, if_neg fun h => hslash h.1, if_pos hq, stringLength_eq hback hbody]

theorem turn_lineComment (hok : (Token.lineComment body).Ok) (hr : ∀ c ∈ r.head?, c = lineFeed)
    (hdrop : code.drop s.i = (Token.lineComment body).text ++ r) :
    turn code s = .inl { s with i := s.i + (Token.lineComment body).text.length } := by
  have hall : lineFeed ∉ slash :: slash :: body := by
    rw [List.mem_cons, List.mem_cons]
    rintro (h | h | h)
    · exact absurd h (by decide)
    · exact absurd h (by decide)
    · exact hok h
  have hline := takeWhile_line hall hr
  unfold turn
  rw [hdrop]
  dsimp only [Token.text, List.cons_append] at hline ⊢
  rw [if_pos ⟨rfl, rfl⟩, hline]

theorem turn_blockComment (hok : (Token.blockComment body).Ok)
    (hdrop : code.drop s.i = (Token.blockComment body).text ++ r) :
    turn code s = .inl { s with i := s.i + (Token.blockComment body).text.length } := by
  have hdrop' : code.drop s.i = slash :: star :: (body ++ star :: slash :: r) := by
    rw [hdrop, Token.text]
    simp
  have hlen : s.i + (Token.blockComment body).text.length = s.i + 2 + body.length + 2 := by
    simp only [Token.text, List.length_append, List.length_cons, List.length_nil]
    omega
  unfold turn
  rw [hdrop', hlen]
  dsimp only
  have hno : ¬ (slash = slash ∧ some star = some slash) := by decide
  rw [List.head?_cons, if_neg hno, if_pos ⟨rfl, rfl⟩, List.drop_one, List.tail_cons, blockLength_eq hok]

theorem turn_opening {b : Bracket} (hdrop : code.drop s.i = b.opening :: r) :
    turn code s = .inl { s with i := s.i + 1, depth := s.depth + 1, previous := s.seen b.opening } := by
  have hopen : isOpening b.opening = true := by cases b <;> rfl
  have hquote : b.opening ≠ singleQuote ∧ b.opening ≠ doubleQuote := by cases b <;> decide
  have htick : b.opening ≠ tick := by cases b <;> decide
  have hslash : b.opening ≠ slash := by cases b <;> decide
  rw [turn_unit hquote htick hslash hdrop, if_pos hopen]

theorem turn_closing {b : Bracket} (hdrop : code.drop s.i = b.closing :: r) : turn code s =
      if s.templates.head? = some (s.depth - 1) then fromText code (s.i + 1) (s.depth - 1) s.templates.tail
      else .inl { s with i := s.i + 1, depth := s.depth - 1, previous := s.seen b.closing } := by
  have hopen : ¬ isOpening b.closing = true := by cases b <;> decide
  have hclose : isClosing b.closing = true := by cases b <;> rfl
  have hquote : b.closing ≠ singleQuote ∧ b.closing ≠ doubleQuote := by cases b <;> decide
  have htick : b.closing ≠ tick := by cases b <;> decide
  have hslash : b.closing ≠ slash := by cases b <;> decide
  rw [turn_unit hquote htick hslash hdrop, if_neg hopen, if_pos hclose]

theorem turn_tick (hdrop : code.drop s.i = tick :: r) :
    turn code s = fromText code (s.i + 1) s.depth s.templates := by
  have hslash : tick ≠ slash := by decide
  have hquote : ¬ (tick = singleQuote ∨ tick = doubleQuote) := by decide
  unfold turn
  rw [hdrop]
  dsimp only
  rw [if_neg fun h => hslash h.1, if_neg fun h => hslash h.1, if_neg hquote, if_pos rfl]

theorem templateText_char {c : UInt16} (hback : c ≠ backslash) : templateText i (c :: r) =
      if c = tick then .closed (i + 1)
      else if c = dollar ∧ r.head? = some 123 then .hole (i + 2)
      else templateText (i + 1) r := by
  rw [templateText.eq_def]
  exact if_neg hback

theorem fromText_char {u : UInt16} (hok : (Token.textChar u).Ok) (hr : u = dollar → r.head? ≠ some 123)
    (hdrop : code.drop i = u :: r) : fromText code i depth templates = fromText code (i + 1) depth templates := by
  have hnext : code.drop (i + 1) = r := drop_add (a := [u]) hdrop
  have hhole : ¬ (u = dollar ∧ r.head? = some 123) := fun h => hr h.1 h.2
  unfold fromText
  rw [hdrop, hnext, templateText_char hok.2, if_neg hok.1, if_neg hhole]

theorem fromText_escape {u : UInt16} (hdrop : code.drop i = backslash :: u :: r) :
    fromText code i depth templates = fromText code (i + 2) depth templates := by
  have hnext : code.drop (i + 2) = r := drop_add (a := [backslash, u]) hdrop
  unfold fromText
  rw [hdrop, hnext, templateText, if_pos rfl]

theorem fromText_end (hdrop : code.drop i = tick :: r) : fromText code i depth templates =
      .inl { i := i + 1, depth := depth, templates := templates, previous := operand } := by
  unfold fromText
  rw [hdrop, templateText_char (by decide), if_pos rfl]

theorem fromText_hole (hdrop : code.drop i = dollar :: 123 :: r) : fromText code i depth templates =
      .inl { i := i + 2, depth := depth + 1, templates := depth :: templates, previous := operand } := by
  unfold fromText
  rw [hdrop, templateText_char (by decide), if_neg (by decide), if_pos ⟨rfl, rfl⟩]

end Turn

/-- What a turn answers leads to a result. -/
def Goes (code : JsText) (d : Int) : Scan ⊕ Int → Prop
  | .inl s => Ends code s d
  | .inr e => e = d

theorem ends_of_goes {code : JsText} {s : Scan} {d : Int} (h : Goes code d (turn code s)) : Ends code s d := by
  cases hturn : turn code s with
  | inl s' =>
    rw [hturn] at h
    exact ends_of_turn hturn h
  | inr e =>
    rw [hturn] at h
    have he : e = d := h
    refine ⟨1, ?_⟩
    rw [run, hturn, ← he]

/-- The scan gets from a position to a result, if this is what is open there: in the text of a
template it stands in the inner loop, else in front of a turn. -/
def At (code : JsText) (d : Int) (fs : List Frame) (i : Nat) : Prop :=
  if fs.head? = some .template then Goes code d (fromText code i (blocks fs) (holes fs))
  else ∀ previous, Ends code { i := i, depth := blocks fs, templates := holes fs, previous := previous } d

section Simulation

variable {code r : JsText} {d : Int} {fs : List Frame} {i : Nat} {t : Token}

theorem at_text (h : fs.head? = some .template) :
    At code d fs i ↔ Goes code d (fromText code i (blocks fs) (holes fs)) := by
  rw [At, if_pos h]

theorem at_code (h : fs.head? ≠ some .template) : At code d fs i ↔
      ∀ previous, Ends code { i := i, depth := blocks fs, templates := holes fs, previous := previous } d := by
  rw [At, if_neg h]

theorem at_end (hdrop : code.drop i = []) :
    At code (if fs.head? = some .template then 1 else blocks fs) fs i := by
  by_cases hfs : fs.head? = some .template
  · rw [at_text hfs, if_pos hfs]
    unfold fromText
    rw [hdrop]
    rfl
  · rw [at_code hfs, if_neg hfs]
    intro previous
    apply ends_of_goes
    unfold turn
    rw [hdrop]
    rfl

theorem at_atom (hfits : fs.head? ≠ some .template)
    (hturn : ∀ previous, ∃ previous', turn code ⟨i, blocks fs, holes fs, previous⟩ =
      .inl { i := i + t.text.length, depth := blocks fs, templates := holes fs, previous := previous' })
    (h : At code d fs (i + t.text.length)) : At code d fs i := by
  rw [at_code hfits] at h ⊢
  intro previous
  rcases hturn previous with ⟨previous', hprevious⟩
  exact ends_of_turn hprevious (h previous')

/-- If the scan gets on behind a token, it does so in front of it. -/
theorem sim_token (hfits : fits fs t = true) (hok : t.Ok) (hr : t.Before r) (hdrop : code.drop i = t.text ++ r)
    (h : At code d (Frame.push fs t) (i + t.text.length)) : At code d fs i := by
  cases t with
  | plain u =>
    have hcode : fs.head? ≠ some .template := by simpa [fits] using hfits
    refine at_atom hcode ?_ h
    intro previous
    exact ⟨_, turn_plain hok hdrop⟩
  | string q body =>
    have hcode : fs.head? ≠ some .template := by simpa [fits] using hfits
    refine at_atom hcode ?_ h
    intro previous
    exact ⟨_, turn_string hok hdrop⟩
  | lineComment body =>
    have hcode : fs.head? ≠ some .template := by simpa [fits] using hfits
    refine at_atom hcode ?_ h
    intro previous
    exact ⟨_, turn_lineComment hok hr hdrop⟩
  | blockComment body =>
    have hcode : fs.head? ≠ some .template := by simpa [fits] using hfits
    refine at_atom hcode ?_ h
    intro previous
    exact ⟨_, turn_blockComment hok hdrop⟩
  | opening b =>
    have hcode : fs.head? ≠ some .template := by simpa [fits] using hfits
    have hin : (Frame.bracket b :: fs).head? ≠ some .template := by simp
    rw [Frame.push, at_code hin, blocks_cons, if_neg Frame.noConfusion] at h
    rw [at_code hcode]
    intro previous
    exact ends_of_turn (turn_opening hdrop) (h _)
  | closing b =>
    rw [fits, Bool.and_eq_true, beq_iff_eq, bne_iff_ne] at hfits
    rcases hfits with ⟨hhead, hcode⟩
    cases fs with
    | nil => cases hhead
    | cons f fs =>
      have hf : f = .bracket b := Option.some.inj hhead
      subst hf
      have hin : (Frame.bracket b :: fs).head? ≠ some .template := by simp
      have hdepth : (blocks (.bracket b :: fs) : Int) - 1 = blocks fs := by
        rw [blocks_cons, if_neg Frame.noConfusion]
        exact Int.add_sub_cancel _ 1
      -- no hole was opened at this depth
      have hno : ¬ (holes (.bracket b :: fs)).head? = some ((blocks (.bracket b :: fs) : Int) - 1) := by
        rw [hdepth]
        intro hsome
        have hlt : (blocks fs : Int) < blocks fs := @lt_of_mem_holes fs _ (List.mem_of_mem_head? hsome)
        exact Int.lt_irrefl _ hlt
      have hcode' : fs.head? ≠ some .template := hcode
      rw [Frame.push, List.tail_cons, at_code hcode'] at h
      rw [at_code hin]
      intro previous
      have hturn := turn_closing (s := ⟨i, blocks (.bracket b :: fs), holes (.bracket b :: fs), previous⟩) hdrop
      rw [if_neg hno, hdepth] at hturn
      exact ends_of_turn hturn (h _)
  | templateStart =>
    have hcode : fs.head? ≠ some .template := by simpa [fits] using hfits
    have hin : (Frame.template :: fs).head? = some .template := rfl
    rw [Frame.push, at_text hin, blocks_cons, if_pos rfl, Int.add_zero] at h
    rw [at_code hcode]
    intro previous
    apply ends_of_goes
    rw [turn_tick hdrop]
    exact h
  | templateEnd =>
    rw [fits, Bool.and_eq_true, beq_iff_eq, bne_iff_ne] at hfits
    rcases hfits with ⟨hhead, hcode⟩
    cases fs with
    | nil => cases hhead
    | cons f fs =>
      have hf : f = .template := Option.some.inj hhead
      subst hf
      have hcode' : fs.head? ≠ some .template := hcode
      rw [Frame.push, List.tail_cons, at_code hcode'] at h
      rw [at_text hhead, fromText_end hdrop, blocks_cons, if_pos rfl, Int.add_zero]
      exact h _
  | textChar u =>
    have htext : fs.head? = some .template := by simpa [fits] using hfits
    have hpush : Frame.push fs (.textChar u) = fs := rfl
    rw [hpush, at_text htext] at h
    rw [at_text htext, fromText_char hok hr hdrop]
    exact h
  | textEscape u =>
    have htext : fs.head? = some .template := by simpa [fits] using hfits
    have hpush : Frame.push fs (.textEscape u) = fs := rfl
    rw [hpush, at_text htext] at h
    rw [at_text htext, fromText_escape hdrop]
    exact h
  | holeStart =>
    have htext : fs.head? = some .template := by simpa [fits] using hfits
    have hin : (Frame.hole :: fs).head? ≠ some .template := by simp
    rw [Frame.push, at_code hin, blocks_cons, if_neg Frame.noConfusion] at h
    rw [at_text htext, fromText_hole hdrop]
    exact h _
  | holeEnd =>
    rw [fits, Bool.and_eq_true, beq_iff_eq, beq_iff_eq] at hfits
    rcases hfits with ⟨hhead, htext⟩
    cases fs with
    | nil => cases hhead
    | cons f fs =>
      have hf : f = .hole := Option.some.inj hhead
      subst hf
      have hin : (Frame.hole :: fs).head? ≠ some .template := by simp
      have hdepth : (blocks (.hole :: fs) : Int) - 1 = blocks fs := by
        rw [blocks_cons, if_neg Frame.noConfusion]
        exact Int.add_sub_cancel _ 1
      have htext' : fs.head? = some .template := htext
      rw [Frame.push, List.tail_cons, at_text htext'] at h
      rw [at_code hin]
      intro previous
      apply ends_of_goes
      -- the depth is the one that was remembered when the hole was opened
      have hturn := turn_closing (b := .brace) (s := ⟨i, blocks (.hole :: fs), holes (.hole :: fs), previous⟩) hdrop
      rw [hdepth, holes, List.head?_cons, if_pos rfl, List.tail_cons] at hturn
      rw [holes, hturn]
      exact h

theorem sim_run {ts : List Token} {fs' : List Frame} (hexec : Run.exec read fs ts = some fs') (hok : ∀ t ∈ ts, t.Ok)
    (hsep : ts.IsChain fun a b => a.Before b.text) (hdrop : code.drop i = write ts) :
    At code (if fs'.head? = some .template then 1 else blocks fs') fs i := by
  induction ts generalizing fs i with
  | nil =>
    have heq : fs = fs' := Option.some.inj hexec
    subst heq
    exact at_end hdrop
  | cons t ts ih =>
    rcases Run.exec_cons_eq_some.1 hexec with ⟨m, hm, hrest⟩
    rw [read, Option.ite_none_right_eq_some] at hm
    rw [List.forall_mem_cons] at hok
    rw [← Option.some.inj hm.2] at hrest
    rw [write, List.flatMap_cons] at hdrop
    have hbefore : t.Before (write ts) := by
      cases ts with
      | nil =>
        unfold Token.Before
        split
        · exact fun c hc => absurd hc (by simp [write])
        · exact fun _ h => absurd h (by simp [write])
        · trivial
      | cons t' ts =>
        have hfirst := (List.isChain_cons_cons.1 hsep).1
        have hhead : (write (t' :: ts)).head? = t'.text.head? := by
          rw [write, List.flatMap_cons]
          cases t' <;> rfl
        unfold Token.Before at hfirst ⊢
        rw [hhead]
        exact hfirst
    exact sim_token hm.1 hok.1 hbefore hdrop (ih hrest hok.2 hsep.tail (drop_add hdrop))

end Simulation

/-- The scan returns whatever the text is. For each beginning of well-bracketed code it returns how
many blocks are open, and one in the text of a template; for the whole code it returns zero. -/
theorem finalDepth_script :
    (∀ (code : JsText) (k : Nat), (run code (code.length + 1 + k) start).isSome = true) ∧
      ∀ script : Script, finalDepth (write script.tokens) = some 0 ∧
        ∀ n, finalDepth (write (script.tokens.take n)) = some (answer (script.tokens.take n)) := by
  constructor
  · intro code k
    refine run_isSome ?_ (by omega)
    dsimp only [start]
    omega
  · intro script
    have hexec : Run.exec read [] script.tokens = some [] :=
      exec_wellBracketed script.wellBracketed (by simp [Part.Fits])
    have hpart : ∀ n, finalDepth (write (script.tokens.take n)) = some (answer (script.tokens.take n)) := by
      intro n
      rw [← List.take_append_drop n script.tokens] at hexec
      rcases Run.exec_append_eq_some.1 hexec with ⟨fs, hfs, -⟩
      have hok : ∀ t ∈ script.tokens.take n, t.Ok := by
        intro t ht
        exact ok_of_wellBracketed script.wellBracketed t (List.mem_of_mem_take ht)
      have hsep : (script.tokens.take n).IsChain fun a b => a.Before b.text :=
        script.separate.take n
      have hat := @sim_run (write (script.tokens.take n)) [] 0 _ _ hfs hok hsep rfl
      have hopen : openAfter (script.tokens.take n) = fs := foldl_of_exec hfs
      rw [answer, hopen]
      apply finalDepth_of_ends
      have hcode : ([] : List Frame).head? ≠ some .template := by simp
      exact (at_code hcode).1 hat none
    refine ⟨?_, hpart⟩
    have hall := hpart script.tokens.length
    rw [List.take_length] at hall
    have hopen : openAfter script.tokens = [] := foldl_of_exec hexec
    rw [hall, answer, hopen]
    rfl

/-- The brace in the hole, the one of the hole and the one behind the template are told apart. -/
example :
    finalDepth (units "f(\x60a$\x7b\x7bb\x7d[0]\x7d)\x60, \x7b") = some 2 ∧
      finalDepth (units "f(\x60a$\x7bb\x7d)") = some 1 := by
  decide +kernel

end Portal.ScriptDepth
