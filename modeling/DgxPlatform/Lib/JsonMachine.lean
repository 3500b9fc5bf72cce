import DgxPlatform.Lib.Doc
import DgxPlatform.Lib.JsonText

/-! # JSON, read character by character

`step` reads one character of a JSON text, with the open arrays and objects on a stack, so what
is known about a text is known about each text that begins with it. Strings are code points while
they are read, since an escape may be one half of a character; a half that stays alone becomes
the replacement character. A number keeps its text.

* `run_over`: a value is read in the same way inside of open arrays and objects.
* `run_closing`: what becomes of a text that is cut and then closed.
-/

namespace JsonMachine

open JsonText (isSpace hexValue unescape)

abbrev Value := Doc (List Char) (List Char)

/-- An open array, or an open object with its last key. -/
inductive Frame where
  | arr (xs : List Value)
  | obj (fields : List (List Char × Value)) (key : List Char)

/-- Where in a string: behind a backslash, or behind `\u` and some digits of the code. -/
inductive Esc where
  | plain
  | slash
  | code (digits : Nat) (u : Nat)
deriving DecidableEq

/-- Where in a number. -/
inductive Numeral where
  | minus
  | zero
  | int
  | point
  | frac
  | exp
  | sign
  | power
deriving DecidableEq

/-- The words that stand for a value. -/
inductive Word where
  | null
  | true
  | false
deriving DecidableEq

def Word.text : Word → List Char
  | null => "null".toList
  | true => "true".toList
  | false => "false".toList

def Word.value : Word → Value
  | null => .null
  | true => .bool Bool.true
  | false => .bool Bool.false

inductive Mode where
  /-- A value. -/
  | value
  /-- The first item of an array, or its end. -/
  | item
  /-- A key. -/
  | key
  /-- The first key of an object, or its end. -/
  | first
  /-- The colon behind a key. -/
  | colon
  /-- Behind a value. -/
  | after
  | str (isKey : Bool) (text : List Nat) (esc : Esc)
  | num (at_ : Numeral) (text : List Char)
  /-- So many characters of a word. -/
  | word (w : Word) (n : Nat)
  /-- The whole text has been read. -/
  | done (v : Value)

structure State where
  frames : List Frame
  mode : Mode

/-! ## The machine -/

/-- A key keeps its place and takes the later value. -/
def setField (key : List Char) (v : Value) : List (List Char × Value) → List (List Char × Value)
  | [] => [(key, v)]
  | (k, x) :: fields => if k = key then (k, v) :: fields else (k, x) :: setField key v fields

def Frame.add (v : Value) : Frame → Frame
  | .arr xs => .arr (xs ++ [v])
  | .obj fields key => .obj (setField key v fields) key

/-- A value has been read. -/
def give (v : Value) : List Frame → State
  | [] => ⟨[], .done v⟩
  | f :: fs => ⟨f.add v :: fs, .after⟩

/-- The value of an array or an object that is closed. -/
def Frame.whole : Frame → Value
  | .arr xs => .arr xs
  | .obj fields _ => .obj fields

/-- What closes it. -/
def Frame.closer : Frame → Char
  | .arr _ => ']'
  | .obj _ _ => '\x7d'

def close (c : Char) : List Frame → Option State
  | [] => none
  | f :: fs => if c = f.closer then some (give f.whole fs) else none

def isScalar (n : Nat) : Bool := decide n.isValidChar

def scalar (n : Nat) : Char := if isScalar n then Char.ofNat n else '\uFFFD'

/-- One more code; the second half of a character is put together with the first. -/
def addCode (text : List Nat) (u : Nat) : List Nat :=
  match text.getLast? with
  | none => [u]
  | some high =>
      if 0xD800 ≤ high ∧ high < 0xDC00 ∧ 0xDC00 ≤ u ∧ u < 0xE000 then
        text.dropLast ++ [0x10000 + (high - 0xD800) * 0x400 + (u - 0xDC00)]
      else text ++ [u]

/-- The closing quote. -/
def endString (isKey : Bool) (text : List Char) (fs : List Frame) : State :=
  match isKey, fs with
  | true, .obj fields _ :: fs => ⟨.obj fields text :: fs, .colon⟩
  | true, fs => ⟨fs, .colon⟩
  | false, fs => give (.str text) fs

def stepString (fs : List Frame) (isKey : Bool) (text : List Nat) (c : Char) : Esc → Option State
  | .plain =>
      if c = '"' then some (endString isKey (text.map scalar) fs)
      else if c = '\\' then some ⟨fs, .str isKey text .slash⟩
      else if c.toNat < 0x20 then none
      else some ⟨fs, .str isKey (text ++ [c.toNat]) .plain⟩
  | .slash =>
      if c = 'u' then some ⟨fs, .str isKey text (.code 0 0)⟩
      else (unescape c).map fun e => ⟨fs, .str isKey (text ++ [e.toNat]) .plain⟩
  | .code n u =>
      (hexValue c).map fun d =>
        if n = 3 then ⟨fs, .str isKey (addCode text (u * 16 + d)) .plain⟩
        else ⟨fs, .str isKey text (.code (n + 1) (u * 16 + d))⟩

def Numeral.next (c : Char) : Numeral → Option Numeral
  | minus => if c = '0' then some zero else if c.isDigit then some int else none
  | zero => if c = '.' then some point else if c = 'e' ∨ c = 'E' then some exp else none
  | int =>
      if c.isDigit then some int else if c = '.' then some point else if c = 'e' ∨ c = 'E' then some exp else none
  | point => if c.isDigit then some frac else none
  | frac => if c.isDigit then some frac else if c = 'e' ∨ c = 'E' then some exp else none
  | exp => if c = '+' ∨ c = '-' then some sign else if c.isDigit then some power else none
  | sign => if c.isDigit then some power else none
  | power => if c.isDigit then some power else none

/-- A number may end here. -/
def Numeral.complete : Numeral → Bool
  | zero | int | frac | power => true
  | _ => false

/-- The first character of a value. -/
def beginValue (fs : List Frame) (c : Char) : Option State :=
  if c = '"' then some ⟨fs, .str false [] .plain⟩
  else if c = '[' then some ⟨.arr [] :: fs, .item⟩
  else if c = '\x7b' then some ⟨.obj [] [] :: fs, .first⟩
  else if c = 'n' then some ⟨fs, .word .null 1⟩
  else if c = 't' then some ⟨fs, .word .true 1⟩
  else if c = 'f' then some ⟨fs, .word .false 1⟩
  else if c = '-' then some ⟨fs, .num .minus [c]⟩
  else (Numeral.minus.next c).map fun n => ⟨fs, .num n [c]⟩

/-- What stands behind a value. -/
def afterValue (fs : List Frame) (c : Char) : Option State :=
  if isSpace c then some ⟨fs, .after⟩
  else if c = ',' then
    match fs with
    | [] => none
    | .arr _ :: _ => some ⟨fs, .value⟩
    | .obj _ _ :: _ => some ⟨fs, .key⟩
  else close c fs

/-- A number ends with the character behind it. -/
def endNumber (text : List Char) (c : Char) : List Frame → Option State
  | [] => if isSpace c then some (give (.num text) []) else none
  | f :: fs => afterValue (give (.num text) (f :: fs)).frames c

def step (s : State) (c : Char) : Option State :=
  match s.mode with
  | .value => if isSpace c then some s else beginValue s.frames c
  | .item => if isSpace c then some s else if c = ']' then close c s.frames else beginValue s.frames c
  | .key => if isSpace c then some s else if c = '"' then some ⟨s.frames, .str true [] .plain⟩ else none
  | .first =>
      if isSpace c then some s
      else if c = '\x7d' then close c s.frames
      else if c = '"' then some ⟨s.frames, .str true [] .plain⟩
      else none
  | .colon => if isSpace c then some s else if c = ':' then some ⟨s.frames, .value⟩ else none
  | .after => afterValue s.frames c
  | .str isKey text esc => stepString s.frames isKey text c esc
  | .num n text =>
      match n.next c with
      | some n' => some ⟨s.frames, .num n' (text ++ [c])⟩
      | none =>
          if n.complete then endNumber text c s.frames else none
  | .word w n =>
      if w.text[n]? = some c then
        some (if n + 1 = w.text.length then give w.value s.frames else ⟨s.frames, .word w (n + 1)⟩)
      else none
  | .done _ => if isSpace c then some s else none

def run (s : State) (t : List Char) : Option State := t.foldlM step s

/-- What has been read when the text ends. -/
def State.result (s : State) : Option Value :=
  match s.frames, s.mode with
  | [], .done v => some v
  | [], .num n text => if n.complete then some (.num text) else none
  | _, _ => none

def start : State := ⟨[], .value⟩

/-- The value of a whole text. -/
def parse (t : List Char) : Option Value := (run start t).bind State.result

@[simp] theorem run_nil (s : State) : run s [] = some s := rfl

theorem run_cons (s : State) (c : Char) (t : List Char) : run s (c :: t) = (step s c).bind fun s => run s t := rfl

theorem run_append (s : State) (t u : List Char) : run s (t ++ u) = (run s t).bind fun s => run s u :=
  List.foldlM_append

/-! ## What a step does to the brackets and quotes -/

/-- In a string, and behind a backslash. -/
structure Quote where
  inString : Bool
  escaped : Bool
deriving DecidableEq

def Quote.next (q : Quote) (c : Char) : Quote :=
  if q.inString then
    if q.escaped then ⟨true, false⟩ else if c = '\\' then ⟨true, true⟩ else ⟨c ≠ '"', false⟩
  else ⟨c = '"', false⟩

def State.quote (s : State) : Quote :=
  match s.mode with
  | .str _ _ .slash => ⟨true, true⟩
  | .str _ _ _ => ⟨true, false⟩
  | _ => ⟨false, false⟩

def State.closers (s : State) : List Char := s.frames.map Frame.closer

@[simp] theorem Frame.closer_add (v : Value) (f : Frame) : (f.add v).closer = f.closer := by
  cases f <;> rfl

@[simp] theorem quote_give (v : Value) (fs : List Frame) : (give v fs).quote = ⟨false, false⟩ := by
  cases fs <;> rfl

@[simp] theorem closers_give (v : Value) (fs : List Frame) : (give v fs).closers = fs.map Frame.closer := by
  cases fs with
  | nil => rfl
  | cons f fs => exact congrArg (· :: fs.map Frame.closer) (f.closer_add v)

/-- The brackets and quotes of one character. -/
def Opens (q : Quote) (before : List Char) (c : Char) (behind : List Char) : Prop :=
  if q.inString then behind = before
  else if c = '\x7b' then behind = '\x7d' :: before
  else if c = '[' then behind = ']' :: before
  else if c = '\x7d' ∨ c = ']' then before = c :: behind
  else behind = before

/-- A character that is no quote and no bracket. -/
def Plain (c : Char) : Prop := c ≠ '"' ∧ c ≠ '\x7b' ∧ c ≠ '[' ∧ c ≠ '\x7d' ∧ c ≠ ']'

theorem plain_of_isSpace {c : Char} (h : isSpace c = true) : Plain c := by
  simp only [isSpace, Bool.or_eq_true, decide_eq_true_eq] at h
  rcases h with ((rfl | rfl) | rfl) | rfl <;> exact ⟨by decide, by decide, by decide, by decide, by decide⟩

theorem Plain.opens {c : Char} (h : Plain c) (q : Quote) (cs : List Char) : Opens q cs c cs := by
  obtain ⟨-, h1, h2, h3, h4⟩ := h
  have hclose : ¬ (c = '\x7d' ∨ c = ']') := fun hc => hc.elim h3 h4
  unfold Opens
  rw [if_neg h1, if_neg h2, if_neg hclose, ite_self]

theorem Plain.next {c : Char} (h : Plain c) : Quote.next ⟨false, false⟩ c = ⟨false, false⟩ := by
  rw [Quote.next, if_neg Bool.false_ne_true, decide_eq_false h.1]

/-- The two things to know about a step outside of strings. -/
def Steps (fs : List Frame) (c : Char) (s' : State) : Prop :=
  s'.quote = Quote.next ⟨false, false⟩ c ∧ Opens ⟨false, false⟩ (fs.map Frame.closer) c s'.closers

theorem Plain.steps {fs : List Frame} {c : Char} {s' : State} (h : Plain c) (hquote : s'.quote = ⟨false, false⟩)
    (hclosers : s'.closers = fs.map Frame.closer) : Steps fs c s' := by
  refine ⟨?_, ?_⟩
  · rw [hquote, h.next]
  · rw [hclosers]
    exact h.opens _ _

theorem close_steps {fs : List Frame} {c : Char} {s' : State} (h : close c fs = some s') : Steps fs c s' := by
  cases fs with
  | nil => cases h
  | cons f fs =>
    rw [close] at h
    split_ifs at h with hc
    obtain rfl := Option.some.inj h
    rw [hc]
    cases f with
    | arr xs => exact ⟨quote_give _ _, congrArg (List.cons ']') (closers_give _ _).symm⟩
    | obj fields key => exact ⟨quote_give _ _, congrArg (List.cons '\x7d') (closers_give _ _).symm⟩

theorem Numeral.next_eq_none (n : Numeral) {c : Char} (h : c ∈ ['"', '\x7b', '[', '\x7d', ']']) :
    n.next c = none := by
  simp only [List.mem_cons, List.not_mem_nil, or_false] at h
  rcases h with rfl | rfl | rfl | rfl | rfl <;> cases n <;> rfl

theorem Numeral.plain_of_next {n n' : Numeral} {c : Char} (h : n.next c = some n') : Plain c := by
  refine ⟨?_, ?_, ?_, ?_, ?_⟩ <;>
    (rintro rfl; rw [n.next_eq_none (by decide)] at h; cases h)

theorem beginValue_steps {fs : List Frame} {c : Char} {s' : State} (h : beginValue fs c = some s') :
    Steps fs c s' := by
  unfold beginValue at h
  split_ifs at h with h1 h2 h3 h4 h5 h6 h7
  · obtain rfl := Option.some.inj h
    rw [h1]
    exact ⟨rfl, rfl⟩
  · obtain rfl := Option.some.inj h
    rw [h2]
    exact ⟨rfl, rfl⟩
  · obtain rfl := Option.some.inj h
    rw [h3]
    exact ⟨rfl, rfl⟩
  · obtain rfl := Option.some.inj h
    rw [h4]
    exact ⟨rfl, rfl⟩
  · obtain rfl := Option.some.inj h
    rw [h5]
    exact ⟨rfl, rfl⟩
  · obtain rfl := Option.some.inj h
    rw [h6]
    exact ⟨rfl, rfl⟩
  · obtain rfl := Option.some.inj h
    rw [h7]
    exact ⟨rfl, rfl⟩
  · obtain ⟨n, hn, rfl⟩ := Option.map_eq_some_iff.1 h
    exact (Numeral.plain_of_next hn).steps rfl rfl

theorem afterValue_steps {fs : List Frame} {c : Char} {s' : State} (h : afterValue fs c = some s') :
    Steps fs c s' := by
  unfold afterValue at h
  split_ifs at h with h1 h2
  · obtain rfl := Option.some.inj h
    exact (plain_of_isSpace h1).steps rfl rfl
  · subst h2
    cases fs with
    | nil => cases h
    | cons f fs =>
      cases f with
      | arr xs =>
        obtain rfl := Option.some.inj h
        exact ⟨rfl, rfl⟩
      | obj fields key =>
        obtain rfl := Option.some.inj h
        exact ⟨rfl, rfl⟩
  · exact close_steps h

theorem endNumber_steps {fs : List Frame} {text : List Char} {c : Char} {s' : State}
    (h : endNumber text c fs = some s') : Steps fs c s' := by
  cases fs with
  | nil =>
    rw [endNumber] at h
    split_ifs at h with hspace
    obtain rfl := Option.some.inj h
    exact (plain_of_isSpace hspace).steps rfl rfl
  | cons f fs =>
    have hsteps := afterValue_steps h
    have hclosers : (give (.num text) (f :: fs)).frames.map Frame.closer = (f :: fs).map Frame.closer :=
      closers_give _ _
    rw [Steps, hclosers] at hsteps
    exact hsteps

theorem Word.plain (w : Word) {n : Nat} {c : Char} (h : w.text[n]? = some c) : Plain c := by
  have hmem := List.mem_of_getElem? h
  refine ⟨?_, ?_, ?_, ?_, ?_⟩ <;> (rintro rfl; revert hmem; cases w <;> decide)

theorem stepString_spec {fs : List Frame} {isKey : Bool} {text : List Nat} {c : Char} {esc : Esc} {s' : State}
    (h : stepString fs isKey text c esc = some s') :
    s'.quote = (State.quote ⟨fs, .str isKey text esc⟩).next c ∧ s'.closers = fs.map Frame.closer := by
  cases esc with
  | plain =>
    rw [stepString] at h
    split_ifs at h with h1 h2 h3
    · obtain rfl := Option.some.inj h
      rw [h1]
      cases isKey with
      | false => exact ⟨quote_give _ _, closers_give _ _⟩
      | true =>
        cases fs with
        | nil => exact ⟨rfl, rfl⟩
        | cons f fs => cases f <;> exact ⟨rfl, rfl⟩
    · obtain rfl := Option.some.inj h
      rw [h2]
      exact ⟨rfl, rfl⟩
    · obtain rfl := Option.some.inj h
      refine ⟨?_, rfl⟩
      show _ = Quote.next ⟨true, false⟩ c
      rw [Quote.next, if_pos rfl, if_neg Bool.false_ne_true, if_neg h2, decide_eq_true h1]
      rfl
  | slash =>
    rw [stepString] at h
    split_ifs at h with h1
    · obtain rfl := Option.some.inj h
      exact ⟨rfl, rfl⟩
    · obtain ⟨e, -, rfl⟩ := Option.map_eq_some_iff.1 h
      exact ⟨rfl, rfl⟩
  | code n u =>
    obtain ⟨d, hd, hs⟩ := Option.map_eq_some_iff.1 h
    have hslash : c ≠ '\\' := by
      rintro rfl
      cases hd
    have hquote : c ≠ '"' := by
      rintro rfl
      cases hd
    have hnext : Quote.next ⟨true, false⟩ c = ⟨true, false⟩ := by
      rw [Quote.next, if_pos rfl, if_neg Bool.false_ne_true, if_neg hslash, decide_eq_true hquote]
    show _ = Quote.next ⟨true, false⟩ c ∧ _
    rw [hnext]
    split_ifs at hs <;> (rw [← hs]; exact ⟨rfl, rfl⟩)

theorem step_spec {s s' : State} {c : Char} (h : step s c = some s') :
    s'.quote = s.quote.next c ∧ Opens s.quote s.closers c s'.closers := by
  obtain ⟨fs, m⟩ := s
  cases m with
  | value =>
    dsimp only [step] at h
    split_ifs at h with hspace
    · obtain rfl := Option.some.inj h
      exact (plain_of_isSpace hspace).steps rfl rfl
    · exact beginValue_steps h
  | item =>
    dsimp only [step] at h
    split_ifs at h with hspace hclose
    · obtain rfl := Option.some.inj h
      exact (plain_of_isSpace hspace).steps rfl rfl
    · exact close_steps h
    · exact beginValue_steps h
  | key =>
    dsimp only [step] at h
    split_ifs at h with hspace hquote
    · obtain rfl := Option.some.inj h
      exact (plain_of_isSpace hspace).steps rfl rfl
    · obtain rfl := Option.some.inj h
      rw [hquote]
      exact ⟨rfl, rfl⟩
  | first =>
    dsimp only [step] at h
    split_ifs at h with hspace hclose hquote
    · obtain rfl := Option.some.inj h
      exact (plain_of_isSpace hspace).steps rfl rfl
    · exact close_steps h
    · obtain rfl := Option.some.inj h
      rw [hquote]
      exact ⟨rfl, rfl⟩
  | colon =>
    dsimp only [step] at h
    split_ifs at h with hspace hcolon
    · obtain rfl := Option.some.inj h
      exact (plain_of_isSpace hspace).steps rfl rfl
    · obtain rfl := Option.some.inj h
      rw [hcolon]
      exact ⟨rfl, rfl⟩
  | after => exact afterValue_steps h
  | str isKey text esc =>
    obtain ⟨hquote, hclosers⟩ := stepString_spec h
    refine ⟨hquote, ?_⟩
    have hin : (State.quote ⟨fs, .str isKey text esc⟩).inString = true := by cases esc <;> rfl
    rw [Opens, if_pos hin]
    exact hclosers
  | num n text =>
    dsimp only [step] at h
    cases hnext : n.next c with
    | some n' =>
      rw [hnext] at h
      obtain rfl := Option.some.inj h
      exact (Numeral.plain_of_next hnext).steps rfl rfl
    | none =>
      rw [hnext] at h
      dsimp only at h
      split_ifs at h with hcomplete
      exact endNumber_steps h
  | word w n =>
    dsimp only [step] at h
    split_ifs at h with hc hlen
    · obtain rfl := Option.some.inj h
      exact (w.plain hc).steps (quote_give _ _) (closers_give _ _)
    · obtain rfl := Option.some.inj h
      exact (w.plain hc).steps rfl rfl
  | done v =>
    dsimp only [step] at h
    split_ifs at h with hspace
    obtain rfl := Option.some.inj h
    exact (plain_of_isSpace hspace).steps rfl rfl

/-! ## The same text with other contents -/

inductive Mode.Like : Mode → Mode → Prop
  | refl (m : Mode) : Like m m
  | str (isKey : Bool) (text text' : List Nat) (esc : Esc) : Like (.str isKey text esc) (.str isKey text' esc)
  | num (n : Numeral) (text text' : List Char) : Like (.num n text) (.num n text')
  | done (v v' : Value) : Like (.done v) (.done v')

/-- The two states differ in the values and texts that have been read. -/
structure Like (s s' : State) : Prop where
  closers : s.closers = s'.closers
  mode : Mode.Like s.mode s'.mode

theorem Like.refl (s : State) : Like s s := ⟨rfl, .refl _⟩

theorem Mode.Like.symm {m m' : Mode} (h : Mode.Like m m') : Mode.Like m' m := by
  cases h <;> constructor

theorem Like.symm {s s' : State} (h : Like s s') : Like s' s := ⟨h.closers.symm, h.mode.symm⟩

theorem Mode.Like.trans {m m' m'' : Mode} (h : Mode.Like m m') (h' : Mode.Like m' m'') : Mode.Like m m'' := by
  cases h <;> cases h' <;> constructor

theorem Like.trans {s s' s'' : State} (h : Like s s') (h' : Like s' s'') : Like s s'' :=
  ⟨h.closers.trans h'.closers, h.mode.trans h'.mode⟩

/-- From like states come like states, or none. -/
def Alike (o o' : Option State) : Prop := ∀ r, o = some r → ∃ r', o' = some r' ∧ Like r r'

variable {fs fs' : List Frame}

theorem alike_some {s s' : State} (h : Like s s') : Alike (some s) (some s') := by
  intro r hr
  rw [← Option.some.inj hr]
  exact ⟨s', rfl, h⟩

theorem alike_none (o : Option State) : Alike none o := nofun

theorem Alike.ite {p : Prop} [Decidable p] {a a' b b' : Option State} (ha : Alike a a') (hb : Alike b b') :
    Alike (if p then a else b) (if p then a' else b') := by
  split_ifs
  · exact ha
  · exact hb

theorem frames_cases (h : fs.map Frame.closer = fs'.map Frame.closer) :
    (fs = [] ∧ fs' = []) ∨ ∃ f gs f' gs', fs = f :: gs ∧ fs' = f' :: gs' ∧ f.closer = f'.closer ∧
      gs.map Frame.closer = gs'.map Frame.closer := by
  cases fs with
  | nil => exact .inl ⟨rfl, List.map_eq_nil_iff.1 h.symm⟩
  | cons f gs =>
    cases fs' with
    | nil => cases h
    | cons f' gs' => exact .inr ⟨f, gs, f', gs', rfl, rfl, (List.cons.inj h).1, (List.cons.inj h).2⟩

theorem like_of_closers (h : fs.map Frame.closer = fs'.map Frame.closer) {m m' : Mode} (hm : Mode.Like m m') :
    Like ⟨fs, m⟩ ⟨fs', m'⟩ := ⟨h, hm⟩

theorem give_like (h : fs.map Frame.closer = fs'.map Frame.closer) (v v' : Value) :
    Like (give v fs) (give v' fs') := by
  refine ⟨by rw [closers_give, closers_give, h], ?_⟩
  rcases frames_cases h with ⟨rfl, rfl⟩ | ⟨f, gs, f', gs', rfl, rfl, -, -⟩
  · exact .done _ _
  · exact .refl _

theorem close_like (h : fs.map Frame.closer = fs'.map Frame.closer) (c : Char) : Alike (close c fs) (close c fs') := by
  rcases frames_cases h with ⟨rfl, rfl⟩ | ⟨f, gs, f', gs', rfl, rfl, hf, hgs⟩
  · exact alike_none _
  · rw [close, close, hf]
    exact (alike_some (give_like hgs _ _)).ite (alike_none _)

theorem beginValue_like (h : fs.map Frame.closer = fs'.map Frame.closer) (c : Char) :
    Alike (beginValue fs c) (beginValue fs' c) := by
  have harr : Like ⟨.arr [] :: fs, .item⟩ ⟨.arr [] :: fs', .item⟩ := ⟨congrArg (List.cons ']') h, .refl _⟩
  have hobj : Like ⟨.obj [] [] :: fs, .first⟩ ⟨.obj [] [] :: fs', .first⟩ :=
    ⟨congrArg (List.cons '\x7d') h, .refl _⟩
  unfold beginValue
  refine (alike_some (like_of_closers h (.refl _))).ite ?_
  refine (alike_some harr).ite ?_
  refine (alike_some hobj).ite ?_
  refine (alike_some (like_of_closers h (.refl _))).ite ?_
  refine (alike_some (like_of_closers h (.refl _))).ite ?_
  refine (alike_some (like_of_closers h (.refl _))).ite ?_
  refine (alike_some (like_of_closers h (.refl _))).ite ?_
  cases Numeral.minus.next c with
  | none => exact alike_none _
  | some n => exact alike_some (like_of_closers h (.refl _))

theorem afterValue_like (h : fs.map Frame.closer = fs'.map Frame.closer) (c : Char) :
    Alike (afterValue fs c) (afterValue fs' c) := by
  unfold afterValue
  refine (alike_some (like_of_closers h (.refl _))).ite (Alike.ite ?_ (close_like h c))
  rcases frames_cases h with ⟨rfl, rfl⟩ | ⟨f, gs, f', gs', rfl, rfl, hf, hgs⟩
  · exact alike_none _
  · have hne : ']' ≠ '\x7d' := by decide
    cases f with
    | arr xs =>
      cases f' with
      | arr xs' => exact alike_some (like_of_closers h (.refl _))
      | obj fields' key' => exact absurd hf hne
    | obj fields key =>
      cases f' with
      | arr xs' => exact absurd hf hne.symm
      | obj fields' key' => exact alike_some (like_of_closers h (.refl _))

theorem endNumber_like (h : fs.map Frame.closer = fs'.map Frame.closer) (text text' : List Char) (c : Char) :
    Alike (endNumber text c fs) (endNumber text' c fs') := by
  rcases frames_cases h with ⟨rfl, rfl⟩ | ⟨f, gs, f', gs', rfl, rfl, hf, hgs⟩
  · exact (alike_some (give_like rfl _ _)).ite (alike_none _)
  · exact afterValue_like (give_like h _ _).closers c

theorem endString_like (h : fs.map Frame.closer = fs'.map Frame.closer) (isKey : Bool) (text text' : List Char) :
    Like (endString isKey text fs) (endString isKey text' fs') := by
  cases isKey with
  | false => exact give_like h _ _
  | true =>
    rcases frames_cases h with ⟨rfl, rfl⟩ | ⟨f, gs, f', gs', rfl, rfl, hf, hgs⟩
    · exact ⟨rfl, .refl _⟩
    · cases f <;> cases f' <;> exact ⟨h, .refl _⟩

theorem stepString_like (h : fs.map Frame.closer = fs'.map Frame.closer) (isKey : Bool) (text text' : List Nat)
    (c : Char) (esc : Esc) : Alike (stepString fs isKey text c esc) (stepString fs' isKey text' c esc) := by
  cases esc with
  | plain =>
    refine (alike_some (endString_like h isKey _ _)).ite ?_
    refine (alike_some (like_of_closers h (.str _ _ _ _))).ite ?_
    exact (alike_none _).ite (alike_some (like_of_closers h (.str _ _ _ _)))
  | slash =>
    refine (alike_some (like_of_closers h (.str _ _ _ _))).ite ?_
    cases unescape c with
    | none => exact alike_none _
    | some e => exact alike_some (like_of_closers h (.str _ _ _ _))
  | code n u =>
    rw [stepString, stepString]
    cases hexValue c with
    | none => exact alike_none _
    | some d =>
      refine alike_some ?_
      split_ifs <;> exact like_of_closers h (.str _ _ _ _)

theorem step_like {s s' : State} (h : Like s s') (c : Char) : Alike (step s c) (step s' c) := by
  obtain ⟨fs, m⟩ := s
  obtain ⟨fs', m'⟩ := s'
  obtain ⟨hclosers, hmode⟩ := h
  have hstay := fun m => alike_some (like_of_closers hclosers (Mode.Like.refl m))
  cases hmode with
  | refl m =>
    cases m with
    | value => exact (hstay _).ite (beginValue_like hclosers c)
    | item => exact (hstay _).ite ((close_like hclosers c).ite (beginValue_like hclosers c))
    | key => exact (hstay _).ite ((hstay _).ite (alike_none _))
    | first => exact (hstay _).ite ((close_like hclosers c).ite ((hstay _).ite (alike_none _)))
    | colon => exact (hstay _).ite ((hstay _).ite (alike_none _))
    | after => exact afterValue_like hclosers c
    | str isKey text esc => exact stepString_like hclosers isKey text text c esc
    | num n text =>
      dsimp only [step]
      cases n.next c with
      | some n' => exact hstay _
      | none => exact (endNumber_like hclosers text text c).ite (alike_none _)
    | word w n =>
      refine Alike.ite (alike_some ?_) (alike_none _)
      split_ifs
      · exact give_like hclosers _ _
      · exact like_of_closers hclosers (.refl _)
    | done v => exact (hstay _).ite (alike_none _)
  | str isKey text text' esc => exact stepString_like hclosers isKey text text' c esc
  | num n text text' =>
    dsimp only [step]
    cases n.next c with
    | some n' => exact alike_some (like_of_closers hclosers (.num _ _ _))
    | none => exact (endNumber_like hclosers text text' c).ite (alike_none _)
  | done v v' => exact (alike_some (like_of_closers hclosers (.done _ _))).ite (alike_none _)

theorem run_like {s s' : State} (h : Like s s') (t : List Char) : Alike (run s t) (run s' t) := by
  induction t generalizing s s' with
  | nil => exact alike_some h
  | cons c t ih =>
    intro r hr
    rw [run_cons] at hr ⊢
    obtain ⟨s1, hs1, hr⟩ := Option.bind_eq_some_iff.1 hr
    obtain ⟨s1', hs1', hlike⟩ := step_like h c s1 hs1
    rw [hs1']
    exact ih hlike r hr

theorem result_like {s s' : State} (h : Like s s') (hnone : s.result = none) : s'.result = none := by
  obtain ⟨fs, m⟩ := s
  obtain ⟨fs', m'⟩ := s'
  obtain ⟨hclosers, hmode⟩ := h
  rcases frames_cases hclosers with ⟨rfl, rfl⟩ | ⟨f, gs, f', gs', rfl, rfl, -, -⟩
  · cases hmode with
    | refl m => exact hnone
    | str _ _ _ _ => rfl
    | num n text text' =>
      cases hcomplete : n.complete with
      | true =>
        dsimp only [State.result] at hnone
        rw [if_pos hcomplete] at hnone
        cases hnone
      | false => exact if_neg (by rw [hcomplete]; exact Bool.false_ne_true)
    | done v v' => cases hnone
  · rfl

/-! ## A text inside of open arrays and objects -/

/-- The state with more arrays and objects around it. -/
def State.over (K : List Frame) (s : State) : State :=
  match s.frames, s.mode with
  | [], .done v => give v K
  | fs, m => ⟨fs ++ K, m⟩

theorem over_cons (K : List Frame) (f : Frame) (gs : List Frame) (m : Mode) :
    State.over K ⟨f :: gs, m⟩ = ⟨f :: (gs ++ K), m⟩ := rfl

theorem give_over (K : List Frame) (v : Value) (fs : List Frame) : (give v fs).over K = give v (fs ++ K) := by
  cases fs <;> rfl

variable {K gs : List Frame} {f : Frame} {c : Char}

theorem close_over : close c (f :: (gs ++ K)) = (close c (f :: gs)).map (State.over K) := by
  rw [close, close]
  split_ifs
  · rw [Option.map_some, give_over]
  · rfl

theorem beginValue_over : beginValue (f :: (gs ++ K)) c = (beginValue (f :: gs) c).map (State.over K) := by
  unfold beginValue
  split_ifs
  iterate 7 exact rfl
  cases Numeral.minus.next c <;> rfl

theorem afterValue_over : afterValue (f :: (gs ++ K)) c = (afterValue (f :: gs) c).map (State.over K) := by
  unfold afterValue
  split_ifs
  · rfl
  · cases f <;> rfl
  · exact close_over

theorem endString_over (isKey : Bool) (text : List Char) :
    endString isKey text (f :: (gs ++ K)) = (endString isKey text (f :: gs)).over K := by
  cases isKey with
  | false => rfl
  | true => cases f <;> rfl

theorem stepString_over (isKey : Bool) (text : List Nat) (esc : Esc) :
    stepString (f :: (gs ++ K)) isKey text c esc = (stepString (f :: gs) isKey text c esc).map (State.over K) := by
  cases esc with
  | plain =>
    rw [stepString, stepString]
    split_ifs
    · exact congrArg some (endString_over isKey _)
    · rfl
    · rfl
    · rfl
  | slash =>
    rw [stepString, stepString]
    split_ifs
    · rfl
    · cases unescape c <;> rfl
  | code n u =>
    rw [stepString, stepString]
    cases hexValue c with
    | none => rfl
    | some d =>
      refine congrArg some ?_
      split_ifs <;> rfl

/-- A step does not see what stands around the innermost array or object. -/
theorem step_over (m : Mode) :
    step ⟨f :: (gs ++ K), m⟩ c = (step ⟨f :: gs, m⟩ c).map (State.over K) := by
  cases m with
  | value =>
    dsimp only [step]
    split_ifs
    · rfl
    · exact beginValue_over
  | item =>
    dsimp only [step]
    split_ifs
    · rfl
    · exact close_over
    · exact beginValue_over
  | key =>
    dsimp only [step]
    split_ifs <;> rfl
  | first =>
    dsimp only [step]
    split_ifs
    · rfl
    · exact close_over
    · rfl
    · rfl
  | colon =>
    dsimp only [step]
    split_ifs <;> rfl
  | after => exact afterValue_over
  | str isKey text esc => exact stepString_over isKey text esc
  | num n text =>
    dsimp only [step]
    cases n.next c with
    | some n' => rfl
    | none =>
      dsimp only
      split_ifs
      · exact afterValue_over
      · rfl
  | word w n =>
    dsimp only [step]
    split_ifs
    · exact congrArg some (give_over K w.value (f :: gs)).symm
    · rfl
    · rfl
  | done v =>
    dsimp only [step]
    split_ifs <;> rfl

theorem run_over {s : State} {t : List Char} (hs : s.frames ≠ [])
    (hopen : ∀ a b s', t = a ++ b → b ≠ [] → run s a = some s' → s'.frames ≠ []) :
    run (s.over K) t = (run s t).map (State.over K) := by
  induction t generalizing s with
  | nil => rfl
  | cons c t ih =>
    obtain ⟨fs, m⟩ := s
    obtain ⟨f, gs, rfl⟩ := List.exists_cons_of_ne_nil hs
    rw [run_cons, run_cons, over_cons, step_over]
    cases hstep : step ⟨f :: gs, m⟩ c with
    | none => rfl
    | some s1 =>
      cases t with
      | nil => rfl
      | cons d t =>
        have hs1 : s1.frames ≠ [] :=
          hopen [c] (d :: t) s1 rfl (List.cons_ne_nil d t) (by rw [run_cons, hstep]; rfl)
        refine ih hs1 ?_
        rintro a b s' hsplit hb hrun
        exact hopen (c :: a) b s' (congrArg (List.cons c) hsplit) hb (by rw [run_cons, hstep]; exact hrun)

/-! ## A text that is cut and then closed -/

/-- What closes the text: the quote of an open string, then all brackets. -/
def State.closing (s : State) : List Char := (if s.quote.inString then ['"'] else []) ++ s.closers

def State.closed (s : State) : Option Value := (run s s.closing).bind State.result

/-- A value inside of open arrays and objects that are closed behind it. -/
def wrap (v : Value) : List Frame → Value
  | [] => v
  | f :: fs => wrap (f.add v).whole fs

theorem Like.closing_eq {s s' : State} (h : Like s s') : s.closing = s'.closing := by
  have hquote : s.quote = s'.quote := by
    obtain ⟨fs, m⟩ := s
    obtain ⟨fs', m'⟩ := s'
    obtain ⟨-, hmode⟩ := h
    cases hmode with
    | str isKey text text' esc => cases esc <;> rfl
    | _ => rfl
  rw [State.closing, State.closing, hquote, h.closers]

/-- The innermost array or object, closed where the text is cut. -/
def State.top (s : State) : Option Value :=
  match s.frames, s.mode with
  | f :: _, .after => some f.whole
  | .arr xs :: _, .item => some (.arr xs)
  | .obj fields _ :: _, .first => some (.obj fields)
  | f :: _, .str false text .plain => some (f.add (.str (text.map scalar))).whole
  | f :: _, .num n text => if n.complete then some (f.add (.num text)).whole else none
  | _, _ => none

theorem wrap_append (v : Value) (fs K : List Frame) : wrap v (fs ++ K) = wrap (wrap v fs) K := by
  induction fs generalizing v with
  | nil => rfl
  | cons f fs ih => exact ih _

theorem Frame.closer_cases (f : Frame) : f.closer = ']' ∨ f.closer = '\x7d' := by
  cases f
  · exact .inl rfl
  · exact .inr rfl

theorem isSpace_closer (f : Frame) : isSpace f.closer = false := by
  rcases f.closer_cases with h | h <;> (rw [h]; decide)

theorem afterValue_closer (fs : List Frame) : afterValue (f :: fs) f.closer = some (give f.whole fs) := by
  have hcomma : f.closer ≠ ',' := by
    rcases f.closer_cases with h | h <;> (rw [h]; decide)
  unfold afterValue
  rw [if_neg (by rw [isSpace_closer]; exact Bool.false_ne_true), if_neg hcomma, close, if_pos rfl]

theorem beginValue_closer (fs : List Frame) : beginValue fs f.closer = none := by
  rcases f.closer_cases with h | h <;> (rw [h]; rfl)

theorem run_give (v : Value) (fs : List Frame) : run (give v fs) (fs.map Frame.closer) = some ⟨[], .done (wrap v fs)⟩ := by
  induction fs generalizing v with
  | nil => rfl
  | cons f fs ih =>
    have hstep : step (give v (f :: fs)) f.closer = some (give (f.add v).whole fs) := by
      rw [← f.closer_add v]
      exact afterValue_closer fs
    rw [List.map_cons, run_cons, hstep]
    exact ih _

theorem closed_of_step {m : Mode} {o : Option Value} (hquote : (State.quote ⟨f :: gs, m⟩).inString = false)
    (h : step ⟨f :: gs, m⟩ f.closer = o.map fun v => give v gs) :
    State.closed ⟨f :: gs, m⟩ = o.map fun v => wrap v gs := by
  rw [State.closed, State.closing, if_neg (by rw [hquote]; exact Bool.false_ne_true), List.nil_append,
    State.closers, List.map_cons, run_cons, h]
  cases o with
  | none => rfl
  | some v =>
    have hrun := run_give v gs
    show (run (give v gs) _).bind State.result = _
    rw [hrun]
    rfl

theorem run_slash (fs : List Frame) (isKey : Bool) (text : List Nat) (gs : List Frame) :
    ∃ text', run ⟨fs, .str isKey text .plain⟩ (gs.map Frame.closer) = some ⟨fs, .str isKey text' .plain⟩ := by
  induction gs generalizing text with
  | nil => exact ⟨text, rfl⟩
  | cons g gs ih =>
    have hstep : step ⟨fs, .str isKey text .plain⟩ g.closer =
        some ⟨fs, .str isKey (text ++ [g.closer.toNat]) .plain⟩ := by
      rcases g.closer_cases with h | h <;> (rw [h]; rfl)
    rw [List.map_cons, run_cons, hstep]
    exact ih _

theorem closed_eq (m : Mode) :
    State.closed ⟨f :: gs, m⟩ = (State.top ⟨f :: gs, m⟩).map fun v => wrap v gs := by
  have hspace : ¬ isSpace f.closer = true := by
    rw [isSpace_closer]
    exact Bool.false_ne_true
  cases m with
  | value =>
    refine closed_of_step rfl ?_
    exact (if_neg hspace).trans (beginValue_closer _)
  | item =>
    refine closed_of_step rfl ?_
    cases f <;> rfl
  | key =>
    refine closed_of_step rfl ?_
    cases f <;> rfl
  | first =>
    refine closed_of_step rfl ?_
    cases f <;> rfl
  | colon =>
    refine closed_of_step rfl ?_
    cases f <;> rfl
  | after => exact closed_of_step rfl (afterValue_closer gs)
  | str isKey text esc =>
    cases esc with
    | plain =>
      cases isKey with
      | false =>
        have hrun := run_give (.str (text.map scalar)) (f :: gs)
        show (run (give (.str (text.map scalar)) (f :: gs)) ((f :: gs).map Frame.closer)).bind State.result = _
        rw [hrun]
        rfl
      | true => cases f <;> rfl
    | slash =>
      have hquote : step ⟨f :: gs, .str isKey text .slash⟩ '"' =
          some ⟨f :: gs, .str isKey (text ++ ['"'.toNat]) .plain⟩ := rfl
      obtain ⟨text', hrun⟩ := run_slash (f :: gs) isKey (text ++ ['"'.toNat]) (f :: gs)
      have hclosed : State.closed ⟨f :: gs, .str isKey text .slash⟩ = none := by
        show ((step ⟨f :: gs, .str isKey text .slash⟩ '"').bind fun s =>
          run s ((f :: gs).map Frame.closer)).bind State.result = none
        rw [hquote, Option.bind_some, hrun]
        rfl
      rw [hclosed]
      cases isKey <;> cases f <;> rfl
    | code n u => cases isKey <;> cases f <;> rfl
  | num n text =>
    have hnext : n.next f.closer = none := by
      rcases f.closer_cases with h | h <;> exact n.next_eq_none (by rw [h]; decide)
    refine closed_of_step rfl ?_
    dsimp only [step, State.top]
    rw [hnext]
    dsimp only
    split_ifs
    · have hafter := afterValue_closer (f := f.add (.num text)) gs
      rw [f.closer_add] at hafter
      exact hafter
    · rfl
  | word w n =>
    refine closed_of_step rfl ?_
    have hword : ¬ w.text[n]? = some f.closer := by
      intro h
      obtain ⟨-, -, -, h1, h2⟩ := w.plain h
      rcases f.closer_cases with h | h
      · exact h2 h
      · exact h1 h
    exact if_neg hword
  | done v =>
    refine closed_of_step rfl ?_
    exact if_neg hspace

theorem closed_over {m : Mode} :
    (State.over K ⟨f :: gs, m⟩).closed = (State.closed ⟨f :: gs, m⟩).map fun v => wrap v K := by
  rw [over_cons, closed_eq, closed_eq, Option.map_map]
  have htop : State.top ⟨f :: (gs ++ K), m⟩ = State.top ⟨f :: gs, m⟩ := by
    cases m with
    | str isKey text esc => cases isKey <;> cases esc <;> cases f <;> rfl
    | _ => cases f <;> rfl
  rw [htop]
  exact congrArg (Option.map · _) (funext fun v => wrap_append v gs K)

/-! ## Strings -/

open JsonText (WrittenChar readHex4 quoted toNat_not_surrogate)

theorem scalar_toNat (c : Char) : scalar c.toNat = c := by
  have hvalid : isScalar c.toNat = true := decide_eq_true c.valid
  rw [scalar, if_pos hvalid, Char.ofNat_toNat]

theorem map_scalar (s : List Char) : (s.map Char.toNat).map scalar = s := by
  rw [List.map_map]
  exact List.map_id'' scalar_toNat s

theorem addCode_toNat (text : List Nat) (c : Char) : addCode text c.toNat = text ++ [c.toNat] := by
  have hc := toNat_not_surrogate c
  unfold addCode
  cases hlast : text.getLast? with
  | none =>
    rw [List.getLast?_eq_none_iff.1 hlast]
    rfl
  | some high => exact if_neg fun h => hc ⟨by omega, h.2.2.2⟩

theorem exists_hexValues {h4 : List Char} {u : Nat} (hlen : h4.length = 4) (h : readHex4 h4 = some (u, [])) :
    ∃ a b c d v w x y, h4 = [a, b, c, d] ∧ hexValue a = some v ∧ hexValue b = some w ∧ hexValue c = some x ∧
      hexValue d = some y ∧ u = ((v * 16 + w) * 16 + x) * 16 + y := by
  match h4, hlen with
  | [a, b, c, d], _ =>
    simp only [readHex4, Option.bind_eq_bind, Option.bind_eq_some_iff, Option.some.injEq, Prod.mk.injEq] at h
    obtain ⟨v, hv, w, hw, x, hx, y, hy, hu, -⟩ := h
    exact ⟨a, b, c, d, v, w, x, y, rfl, hv, hw, hx, hy, hu.symm⟩

theorem step_plain {isKey : Bool} {text : List Nat} (hquote : c ≠ '"') (hslash : c ≠ '\\') (hcontrol : 0x20 ≤ c.toNat) :
    step ⟨fs, .str isKey text .plain⟩ c = some ⟨fs, .str isKey (text ++ [c.toNat]) .plain⟩ := by
  dsimp only [step, stepString]
  rw [if_neg hquote, if_neg hslash, if_neg (by omega)]

theorem step_code {isKey : Bool} {text : List Nat} {n u d : Nat} (h : hexValue c = some d) :
    step ⟨fs, .str isKey text (.code n u)⟩ c =
      some (if n = 3 then ⟨fs, .str isKey (addCode text (u * 16 + d)) .plain⟩
        else ⟨fs, .str isKey text (.code (n + 1) (u * 16 + d))⟩) := by
  dsimp only [step, stepString]
  rw [h]
  rfl

theorem run_written {isKey : Bool} {text : List Nat} {e : List Char} (h : WrittenChar c e) :
    run ⟨fs, .str isKey text .plain⟩ e = some ⟨fs, .str isKey (text ++ [c.toNat]) .plain⟩ := by
  cases h with
  | plain hquote hslash hcontrol =>
    rw [run_cons, step_plain hquote hslash hcontrol]
    rfl
  | @escaped e he =>
    have hu : e ≠ 'u' := by
      rintro rfl
      cases he
    show (if e = 'u' then _ else (unescape e).map _).bind _ = _
    rw [if_neg hu, he]
    rfl
  | @unicode h4 hlen hread =>
    obtain ⟨a, b, c', d, v, w, x, y, rfl, ha, hb, hc, hd, hu⟩ := exists_hexValues hlen hread
    show run ⟨fs, .str isKey text (.code 0 0)⟩ [a, b, c', d] = _
    rw [run_cons, step_code ha, Option.bind_some, if_neg (by decide), run_cons, step_code hb, Option.bind_some,
      if_neg (by decide), run_cons, step_code hc, Option.bind_some, if_neg (by decide), run_cons, step_code hd,
      Option.bind_some, if_pos rfl, Nat.zero_mul, Nat.zero_add, ← hu, addCode_toNat]
    rfl

/-- A text of which only a part has been read. -/
def Within (fs : List Frame) (isKey : Bool) (o : Option State) : Prop :=
  ∃ text esc, o = some ⟨fs, .str isKey text esc⟩

theorem within_written {isKey : Bool} {text : List Nat} {e e' : List Char} (h : WrittenChar c e) (he : e' <+: e) :
    Within fs isKey (run ⟨fs, .str isKey text .plain⟩ e') := by
  rcases eq_or_ne e' e with rfl | hne
  · exact ⟨_, _, run_written h⟩
  · cases h with
    | plain hquote hslash hcontrol =>
      rcases List.prefix_cons_iff.1 he with rfl | ⟨t, rfl, ht⟩
      · exact ⟨_, _, rfl⟩
      · obtain rfl := List.prefix_nil.1 ht
        exact absurd rfl hne
    | @escaped e hesc =>
      rcases List.prefix_cons_iff.1 he with rfl | ⟨t1, rfl, h1⟩
      · exact ⟨_, _, rfl⟩
      rcases List.prefix_cons_iff.1 h1 with rfl | ⟨t2, rfl, h2⟩
      · exact ⟨_, _, rfl⟩
      · obtain rfl := List.prefix_nil.1 h2
        exact absurd rfl hne
    | @unicode h4 hlen hread =>
      obtain ⟨a, b, c', d, v, w, x, y, rfl, ha, hb, hc, -, -⟩ := exists_hexValues hlen hread
      rcases List.prefix_cons_iff.1 he with rfl | ⟨t1, rfl, h1⟩
      · exact ⟨_, _, rfl⟩
      rcases List.prefix_cons_iff.1 h1 with rfl | ⟨t2, rfl, h2⟩
      · exact ⟨_, _, rfl⟩
      show Within fs isKey (run ⟨fs, .str isKey text (.code 0 0)⟩ t2)
      rcases List.prefix_cons_iff.1 h2 with rfl | ⟨t3, rfl, h3⟩
      · exact ⟨_, _, rfl⟩
      rw [run_cons, step_code ha]
      rcases List.prefix_cons_iff.1 h3 with rfl | ⟨t4, rfl, h4⟩
      · exact ⟨_, _, rfl⟩
      rw [Option.bind_some, if_neg (by decide), run_cons, step_code hb]
      rcases List.prefix_cons_iff.1 h4 with rfl | ⟨t5, rfl, h5⟩
      · exact ⟨_, _, rfl⟩
      rw [Option.bind_some, if_neg (by decide), run_cons, step_code hc]
      rcases List.prefix_cons_iff.1 h5 with rfl | ⟨t6, rfl, h6⟩
      · exact ⟨_, _, rfl⟩
      · obtain rfl := List.prefix_nil.1 h6
        exact absurd rfl hne

theorem prefix_append_cases {α : Type*} {b x y : List α} (h : b <+: x ++ y) :
    b <+: x ∨ ∃ b', b = x ++ b' ∧ b' <+: y := by
  rcases List.prefix_or_prefix_of_prefix h (List.prefix_append x y) with hx | ⟨b', rfl⟩
  · exact .inl hx
  · exact .inr ⟨b', rfl, (List.prefix_append_right_inj x).1 h⟩

section Literal

-- how each character is written
variable {spell : Char → List Char} (hspell : ∀ c, WrittenChar c (spell c))

include hspell

theorem run_body (isKey : Bool) (text : List Nat) (s : List Char) :
    run ⟨fs, .str isKey text .plain⟩ (s.flatMap spell) = some ⟨fs, .str isKey (text ++ s.map Char.toNat) .plain⟩ := by
  induction s generalizing text with
  | nil => rw [List.flatMap_nil, List.map_nil, List.append_nil, run_nil]
  | cons c s ih =>
    rw [List.flatMap_cons, run_append, run_written (hspell c), Option.bind_some, ih, List.append_assoc]
    rfl

theorem within_body (isKey : Bool) (text : List Nat) {s b : List Char} (hb : b <+: s.flatMap spell) :
    Within fs isKey (run ⟨fs, .str isKey text .plain⟩ b) := by
  induction s generalizing text b with
  | nil =>
    rw [List.prefix_nil.1 hb]
    exact ⟨_, _, rfl⟩
  | cons c s ih =>
    rw [List.flatMap_cons] at hb
    rcases prefix_append_cases hb with hb | ⟨b', rfl, hb'⟩
    · exact within_written (hspell c) hb
    · rw [run_append, run_written (hspell c)]
      exact ih _ hb'

theorem run_literal (s : List Char) : run ⟨fs, .value⟩ (quoted (s.flatMap spell)) = some (give (.str s) fs) := by
  have hend : step ⟨fs, .str false ([] ++ s.map Char.toNat) .plain⟩ '"' = some (give (.str s) fs) := by
    show some (give (.str (([] ++ s.map Char.toNat).map scalar)) fs) = _
    rw [List.nil_append, map_scalar]
  show run ⟨fs, .str false [] .plain⟩ (s.flatMap spell ++ ['"']) = _
  rw [run_append, run_body hspell, Option.bind_some, run_cons, hend]
  rfl

theorem within_literal {s b : List Char} (hb : b <+: quoted (s.flatMap spell)) (hne : b ≠ [])
    (hwhole : b ≠ quoted (s.flatMap spell)) : Within fs false (run ⟨fs, .value⟩ b) := by
  rcases List.prefix_cons_iff.1 hb with rfl | ⟨b1, rfl, h1⟩
  · exact absurd rfl hne
  · rcases prefix_append_cases h1 with h1 | ⟨b2, rfl, h2⟩
    · exact within_body hspell false [] h1
    · rcases List.prefix_cons_iff.1 h2 with rfl | ⟨b3, rfl, h3⟩
      · rw [List.append_nil]
        exact within_body hspell false [] List.prefix_rfl
      · obtain rfl := List.prefix_nil.1 h3
        exact absurd rfl hwhole

end Literal

end JsonMachine
