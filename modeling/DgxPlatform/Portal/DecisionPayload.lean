import DgxPlatform.Lib.Doc
import DgxPlatform.Lib.Text
import Mathlib.Algebra.GroupWithZero.Nat
import Mathlib.Algebra.Order.Group.Nat

/-! # The two validators of a decision request

The page checks the two editors with `validatePayload` and sends the body it
returns; the portal checks what it receives with `validate`, written anew in the
other language.

The page's strings are JavaScript's, where a surrogate may stand alone and the
length counts UTF-16 units; the portal's are texts of characters. Numbers are
written in two ways too, and the page writes null for one that is not finite
(`Numerals`). What the page sends is a document of the one kind, what the portal
receives one of the other (`received`).
-/

namespace Portal.Decisions

open Text

/-! ## The documents of the two sides -/

/-- A character of a JavaScript string, or a surrogate without its partner. -/
inductive JsChar where
  | char (c : Char)
  | lone (unit : Nat)
deriving DecidableEq, Repr

abbrev JsString := List JsChar

abbrev Text := List Char

def js (t : String) : JsString := t.toList.map .char

/-- `length`. -/
def units (s : JsString) : Nat :=
  (s.map fun
    | .char c => if c.toNat < 0x10000 then 1 else 2
    | .lone _ => 1).sum

def isSpace : JsChar → Bool
  | .char c => isJsSpace c
  | .lone _ => false

/-- `trim`. -/
def trim (s : JsString) : JsString := (s.dropWhile isSpace).rdropWhile isSpace

/-- No surrogate stands alone. -/
def wellFormed (s : JsString) : Bool :=
  s.all fun
    | .char _ => true
    | .lone _ => false

/-- The characters. -/
def text (s : JsString) : Text :=
  s.filterMap fun
    | .char c => some c
    | .lone _ => none

/-- The numbers of the two sides, and how long they are written. -/
structure Numerals where
  Js : Type
  Rust : Type
  /-- What the portal reads of what the page writes; none if that is `null`. -/
  wire : Js → Option Rust
  jsBytes : Js → Nat
  rustBytes : Rust → Nat

/-- How long a character is written inside a JSON string, in UTF-8. -/
def escapedBytes (c : Char) : Nat :=
  if c = '"' ∨ c = '\\' then 2
  else if c.toNat ∈ [0x08, 0x09, 0x0A, 0x0C, 0x0D] then 2
  else if c.toNat < 0x20 then 6
  else c.utf8Size

def textBytes (t : Text) : Nat := 2 + (t.map escapedBytes).sum

def jsStringBytes (s : JsString) : Nat :=
  2 + (s.map fun
    | .char c => escapedBytes c
    | .lone _ => 6).sum

inductive Kind where
  | noul
  | choice
  | score
deriving DecidableEq, Repr

def Kind.name : Kind → String
  | .noul => "noul"
  | .choice => "choice"
  | .score => "score"

/-- A question as either side passes it on. -/
structure Question (S N : Type) where
  kind : Kind
  instructions : Doc S N
  criteria : Option (Doc S N)

/-- A question as a document. -/
def Question.doc {S N : Type} (key : String → S) (q : Question S N) : Doc S N :=
  .obj ([(key "type", .str (key q.kind.name)), (key "instructions", q.instructions)] ++
    q.criteria.toList.map fun c => (key "criteria", c))

def maxQuestions : Nat := 32

def maxStateBytes : Nat := 64 * 1024

def maxChoices : Nat := 255

def maxLevels : Nat := 10

/-- The kind a `type` names. -/
def kindOf {S N : Type} [DecidableEq S] (key : String → S) : Option (Doc S N) → Option Kind
  | some (.str s) => [Kind.noul, .choice, .score].find? fun k => decide (s = key k.name)
  | _ => none

variable (n : Numerals)

abbrev JsDoc := Doc JsString n.Js

abbrev ServerDoc := Doc Text n.Rust

variable {n}

/-! ## The page -/

section Client

-- `JSON.parse`: `none` where it throws
variable (parse : JsString → Option (JsDoc n))

/-- What stands for the type in the message. -/
def shownType : Option (JsDoc n) → JsString
  | some (.str s) => if s = [] then js "?" else s
  | _ => js "?"

/-- The kind's own checks. -/
def kindChecks (id s : JsString) (criteria : Option (JsDoc n)) :
    Kind → Except JsString (Question JsString n.Js)
  | .noul => .ok ⟨.noul, .str s, none⟩
  | .choice =>
      match criteria with
      | some (.obj c) =>
          if c.length < 2 ∨ maxChoices < c.length then
            .error (js "La question « " ++ id ++ js " » doit offrir 2 à 255 choix.")
          else .ok ⟨.choice, .str s, some (.obj c)⟩
      | _ =>
          .error (js "La question « " ++ id ++
            js " » (choice) exige « criteria » : \x7b\"valeur\": description|null\x7d.")
  | .score =>
      match criteria with
      | some (.arr c) =>
          if c.length < 2 ∨ maxLevels < c.length then
            .error (js "La question « " ++ id ++ js " » doit avoir 2 à 10 niveaux.")
          else if c.all Doc.isStr then .ok ⟨.score, .str s, some (.arr c)⟩
          else .error (js "La question « " ++ id ++ js " » : chaque niveau doit être un texte.")
      | _ => .error (js "La question « " ++ id ++ js " » doit avoir 2 à 10 niveaux.")

def oneQuestion (id : JsString) : JsDoc n → Except JsString (Question JsString n.Js)
  | .obj q =>
      match kindOf js (Doc.field (js "type") q) with
      | none =>
          .error (js "La question « " ++ id ++ js " » : type « " ++
            shownType (Doc.field (js "type") q) ++ js " » inconnu (noul, choice, score).")
      | some kind =>
          match Doc.field (js "instructions") q with
          | some (.str s) =>
              if trim s = [] then .error (js "La question « " ++ id ++ js " » n'a pas d'énoncé.")
              else kindChecks id s (Doc.field (js "criteria") q) kind
          | _ => .error (js "La question « " ++ id ++ js " » n'a pas d'énoncé.")
  | _ => .error (js "La question « " ++ id ++ js " » doit être un objet.")

/-- The key that an assignment takes for the prototype. -/
def protoKey : JsString := js "__proto__"

/-- The loop over the entries. The ids are the keys of one object, so an assignment to
`questions` adds a property, except under the name of the prototype. -/
def buildQuestions : List (JsString × JsDoc n) →
    Except JsString (List (JsString × Question JsString n.Js))
  | [] => .ok []
  | (id, raw) :: entries =>
      if id = [] ∨ 64 < units id then
        .error (js "Identifiant de question invalide (1 à 64 caractères).")
      else
        match oneQuestion id raw with
        | .error e => .error e
        | .ok q =>
            match buildQuestions entries with
            | .error e => .error e
            | .ok questions => .ok (if id = protoKey then questions else (id, q) :: questions)

/-- What the page sends. -/
structure Body (n : Numerals) where
  state : JsDoc n
  questions : List (JsString × Question JsString n.Js)
  files : Option (List JsString)

def Body.doc (b : Body n) : JsDoc n :=
  .obj ([(js "state", b.state),
      (js "questions", .obj (b.questions.map fun e => (e.1, e.2.doc js)))] ++
    b.files.toList.map fun fs => (js "files", .arr (fs.map .str)))

/-- `parseState`, for a text that is not blank. -/
def stateValue (stateText : JsString) : JsDoc n :=
  (parse (trim stateText)).getD (.str stateText)

def parseState (stateText : JsString) : Except JsString (JsDoc n) :=
  if trim stateText = [] then .error (js "Le champ « state » est vide.")
  else .ok (stateValue parse stateText)

/-- What is parsed for the questions. -/
def questionsSource (questionsText : JsString) : JsString :=
  if trim questionsText = [] then js "\x7b\x7d" else trim questionsText

def stateBytes (d : JsDoc n) : Nat := d.size jsStringBytes n.jsBytes

def validatePayload (stateText questionsText : JsString) (files : List JsString) :
    Except JsString (Body n) :=
  match parseState parse stateText with
  | .error e => .error e
  | .ok state =>
      if maxStateBytes < stateBytes state then
        .error (js "Le « state » dépasse 65536 octets.")
      else
        match parse (questionsSource questionsText) with
        | none => .error (js "Le JSON des questions est invalide.")
        | some (.obj entries) =>
            if entries = [] then .error (js "Ajoute au moins une question.")
            else if maxQuestions < entries.length then .error (js "32 questions au maximum.")
            else
              match buildQuestions entries with
              | .error e => .error e
              | .ok questions => .ok ⟨state, questions, if files = [] then none else some files⟩
        | some _ => .error (js "Les questions doivent être un objet (id → question).")

end Client

/-! ## The portal -/

section Server

def key (t : String) : Text := t.toList

/-- `check_noul`'s loop. -/
def noulFields (id : Text) : List (Text × ServerDoc n) → Except Text Unit
  | [] => .ok ()
  | (k, v) :: fields =>
      if k ≠ key "true" ∧ k ≠ key "false" then
        .error (key "La question « " ++ id ++ key " » (noul) : clé « " ++ k ++
          key " » inconnue (true ou false).")
      else if v.isNull || v.isStr then noulFields id fields
      else
        .error (key "La question « " ++ id ++ key " » (noul) : la description de « " ++ k ++
          key " » doit être un texte ou null.")

def checkNoul (id : Text) : ServerDoc n → Except Text (ServerDoc n)
  | .obj fields =>
      match noulFields id fields with
      | .error e => .error e
      | .ok () => .ok (.obj fields)
  | _ =>
      .error (key "La question « " ++ id ++ key " » (noul) : « criteria » doit être un objet (" ++
        key "\x7b\"true\": …, \"false\": …\x7d).")

/-- The loop over the choices. -/
def choiceFields (id : Text) : List (Text × ServerDoc n) → Except Text Unit
  | [] => .ok ()
  | (value, description) :: fields =>
      if description.isNull || description.isStr then choiceFields id fields
      else
        .error (key "La question « " ++ id ++ key " » : la description du choix « " ++ value ++
          key " » doit être un texte ou null.")

/-- The text of a string field, or nothing. -/
def typeText : Option (ServerDoc n) → Text
  | some (.str s) => s
  | _ => []

/-- The kind's own checks. -/
def checkCriteria (id : Text) (instructions : ServerDoc n) (criteria : Option (ServerDoc n)) :
    Kind → Except Text (Question Text n.Rust)
  | .noul =>
      match criteria with
      | none => .ok ⟨.noul, instructions, none⟩
      | some c =>
          match checkNoul id c with
          | .error e => .error e
          | .ok c => .ok ⟨.noul, instructions, some c⟩
  | .choice =>
      match criteria with
      | some (.obj c) =>
          if c.length < 2 ∨ maxChoices < c.length then
            .error (key "La question « " ++ id ++ key " » doit offrir 2 à 255 choix.")
          else
            match choiceFields id c with
            | .error e => .error e
            | .ok () => .ok ⟨.choice, instructions, some (.obj c)⟩
      | _ =>
          .error (key "La question « " ++ id ++ key " » (choice) exige des « criteria » : " ++
            key "\x7b\"valeur\": description|null\x7d.")
  | .score =>
      match criteria with
      | some (.arr c) =>
          if c.length < 2 ∨ maxLevels < c.length then
            .error (key "La question « " ++ id ++ key " » doit avoir 2 à 10 niveaux.")
          else if c.all Doc.isStr then .ok ⟨.score, instructions, some (.arr c)⟩
          else .error (key "La question « " ++ id ++ key " » : chaque niveau doit être un texte.")
      | _ =>
          .error (key "La question « " ++ id ++ key " » (score) exige des « criteria » : " ++
            key "une liste de niveaux, du plus bas au plus haut.")

/-- A text, an object or a list. -/
def isStatement {S N : Type} : Doc S N → Bool
  | .str _ | .obj _ | .arr _ => true
  | _ => false

/-- One question of `validate`. -/
def checkQuestion (id : Text) : ServerDoc n → Except Text (Question Text n.Rust)
  | .obj q =>
      match Doc.field (key "instructions") q with
      | none => .error (key "La question « " ++ id ++ key " » n'a pas d'« instructions ».")
      | some instructions =>
          if isStatement instructions then
            match kindOf key (Doc.field (key "type") q) with
            | some kind => checkCriteria id instructions (Doc.field (key "criteria") q) kind
            | none =>
                if typeText (Doc.field (key "type") q) = [] then
                  .error (key "La question « " ++ id ++
                    key " » n'a pas de « type » (noul, choice ou score).")
                else
                  .error (key "La question « " ++ id ++ key " » : type « " ++
                    typeText (Doc.field (key "type") q) ++ key " » inconnu (noul, choice ou score).")
          else
            .error (key "La question « " ++ id ++
              key " » : « instructions » doit être un texte, un objet ou une liste.")
  | _ => .error (key "La question « " ++ id ++ key " » doit être un objet.")

/-- The loop over the questions. -/
def checkQuestions : List (Text × ServerDoc n) → Except Text (List (Text × Question Text n.Rust))
  | [] => .ok []
  | (id, q) :: questions =>
      if id = [] ∨ 64 < id.length then
        .error (key "Identifiant de question invalide (1 à 64 caractères).")
      else
        match checkQuestion id q with
        | .error e => .error e
        | .ok entry =>
            match checkQuestions questions with
            | .error e => .error e
            | .ok out => .ok ((id, entry) :: out)

/-- What goes to the engine. -/
structure Payload (n : Numerals) where
  state : ServerDoc n
  questions : List (Text × Question Text n.Rust)
  files : Option (List (ServerDoc n))
  images : Option (List (ServerDoc n))

/-- A list that is relayed if it is there. -/
def relayedList (name : Text) : Option (ServerDoc n) → Except Text (Option (List (ServerDoc n)))
  | none => .ok none
  | some (.arr xs) => .ok (some xs)
  | some _ => .error (key "« " ++ name ++ key " » doit être une liste.")

def knownFields : List Text := [key "state", key "questions", key "files", key "images"]

def serverStateBytes (d : ServerDoc n) : Nat := d.size textBytes n.rustBytes

def validate : ServerDoc n → Except Text (Payload n)
  | .obj obj =>
      match obj.find? fun e => decide (e.1 ∉ knownFields) with
      | some e => .error (key "Champ inconnu « " ++ e.1 ++ key " » (state, questions, files, images).")
      | none =>
          match Doc.field (key "state") obj with
          | none => .error (key "Le champ « state » est requis (texte ou JSON).")
          | some state =>
              if maxStateBytes < serverStateBytes state then
                .error (key "« state » dépasse 65536 octets.")
              else if state.isNull then
                .error (key "« state » ne peut pas être null pour ce modèle (texte ou JSON attendu).")
              else
                match Doc.field (key "questions") obj with
                | some (.obj questions) =>
                    if questions = [] then .error (key "Au moins une question est requise.")
                    else if maxQuestions < questions.length then
                      .error (key "32 questions au maximum.")
                    else
                      match checkQuestions questions with
                      | .error e => .error e
                      | .ok out =>
                          match relayedList (key "files") (Doc.field (key "files") obj) with
                          | .error e => .error e
                          | .ok files =>
                              match relayedList (key "images") (Doc.field (key "images") obj) with
                              | .error e => .error e
                              | .ok images => .ok ⟨state, out, files, images⟩
                | _ => .error (key "« questions » doit être un objet (id → question).")
  | _ => .error (key "Corps JSON attendu (objet).")

end Server

/-! ## Between the two -/

/-- A document of the page as the portal reads it. -/
def sent (d : JsDoc n) : ServerDoc n := d.map text n.wire

/-- What `validate` makes of a document that the page sends; the portal cannot read one
with a surrogate that stands alone. -/
def received (d : JsDoc n) : Option (Payload n) :=
  if d.all wellFormed then (validate (sent d)).toOption else none

end Portal.Decisions
