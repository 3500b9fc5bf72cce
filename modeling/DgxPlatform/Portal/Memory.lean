import DgxPlatform.Lib.Json
import DgxPlatform.Portal.Accounts

/-! # The memory graph: the tables and their queries

An account's memory is three tables: the subjects (`memory_nodes`), other names of them
(`memory_aliases`) and the facts (`memory_edges`), each row with its `username`. A fact
that was corrected by a newer one stays, with a `valid_until`; the others are live.

Every statement that `memory.rs` sends is a definition here, `add_fact`, `update_fact`,
`forget`, `purge` and `add_alias` are made of them. The schema is not part of the
repository. What the code relies on of it is `Supply`: a new row gets an id no row has;
what `INSERT OR IGNORE` takes for the same alias is a field of `Env`, with the
normalised form of a name.
-/

namespace Portal.Memory

open Accounts (pyStrip)

def memMaxFacts : Nat := 400
def memMaxFactLen : Nat := 2000
def memMaxNameLen : Nat := 120
def memGenericRelation : List Char := "à propos de".toList

/-- `KINDS`. -/
inductive Kind where
  | subject
  | person
  | tool
  | preference
deriving DecidableEq

def Kind.text : Kind → List Char
  | .subject => "subject".toList
  | .person => "person".toList
  | .tool => "tool".toList
  | .preference => "preference".toList

/-- The kind of a text, when it is one. -/
def kind? (t : List Char) : Option Kind :=
  [Kind.subject, .person, .tool, .preference].find? fun k => k.text = t

/-- `if KINDS.contains(&kind) { kind } else { "subject" }`. -/
def kindOf (t : List Char) : Kind := (kind? t).getD .subject

@[simp] theorem kind?_text (k : Kind) : kind? k.text = some k := by
  cases k <;> decide

@[simp] theorem kindOf_text (k : Kind) : kindOf k.text = k := by
  simp [kindOf]

inductive Source where
  | user
  | model
deriving DecidableEq

def Source.text : Source → List Char
  | .user => "user".toList
  | .model => "model".toList

/-- `if source == "user" { "user" } else { "model" }`. -/
def sourceOf (t : List Char) : Source := if t = "user".toList then .user else .model

@[simp] theorem sourceOf_text (s : Source) : sourceOf s.text = s := by
  cases s <;> decide

/-- A row of `memory_nodes`. -/
structure Node where
  id : Nat
  username : String
  name : List Char
  nameNorm : List Char
  kind : Kind
  createdAt : Time
deriving DecidableEq

/-- A row of `memory_edges`; the confidence, always 1.0, is not read. -/
structure Edge where
  id : Nat
  username : String
  src : Nat
  relation : List Char
  dst : Option Nat
  fact : List Char
  source : Source
  createdAt : Time
  validUntil : Option Time
deriving DecidableEq

/-- A row of `memory_aliases`. -/
structure Alias where
  nodeId : Nat
  username : String
  aliasNorm : List Char
deriving DecidableEq

structure Tables where
  nodes : List Node
  edges : List Edge
  aliases : List Alias
deriving DecidableEq

/-- `mem_norm`, and whether an alias to insert is taken for one that is there. -/
structure Env where
  norm : List Char → List Char
  clash : Alias → Alias → Bool

/-- The ids the database gives to new rows, and the clock. -/
structure Supply where
  node : List Node → Nat
  edge : List Edge → Nat
  now : Time
  node_unused : ∀ nodes, ∀ n ∈ nodes, n.id ≠ node nodes
  edge_unused : ∀ edges, ∀ e ∈ edges, e.id ≠ edge edges

/-! ## The statements -/

namespace Tables

variable (t : Tables) (u : String)

/-- `SELECT id FROM memory_nodes WHERE username = ? AND name_norm = ?`. -/
def nodeByNorm (norm : List Char) : Option Nat :=
  (t.nodes.find? fun n => decide (n.username = u ∧ n.nameNorm = norm)).map Node.id

/-- The node of an alias, by `a.node_id = n.id`. -/
def nodeByAlias (norm : List Char) : Option Nat :=
  (t.nodes.find? fun n =>
    t.aliases.any fun a =>
      decide (a.nodeId = n.id ∧ a.username = u ∧ a.aliasNorm = norm)).map Node.id

def insertNode (n : Node) : Tables := { t with nodes := t.nodes ++ [n] }

/-- `SELECT COUNT(*) … AND valid_until IS NULL`. -/
def countLive : Nat := t.edges.countP fun e => decide (e.username = u ∧ e.validUntil = none)

/-- The edges that `add_fact` takes for equivalent to a new one. -/
def equivalent (src : Nat) (relation : List Char) (dst : Option Nat) (e : Edge) : Bool :=
  decide (e.username = u ∧ e.src = src ∧ e.relation = relation ∧ e.validUntil = none ∧ e.dst = dst)

/-- `UPDATE memory_edges SET valid_until = ?` of the equivalent facts. -/
def expire (src : Nat) (relation : List Char) (dst : Option Nat) (now : Time) : Tables :=
  { t with
    edges := t.edges.map fun e =>
      if equivalent u src relation dst e then { e with validUntil := some now } else e }

def insertEdge (e : Edge) : Tables := { t with edges := t.edges ++ [e] }

/-- `UPDATE memory_edges SET fact = ?, relation = ?`. -/
def correct (id : Nat) (fact relation : List Char) : Tables :=
  { t with
    edges := t.edges.map fun e =>
      if e.username = u ∧ e.id = id then { e with fact := fact, relation := relation } else e }

/-- `DELETE FROM memory_edges WHERE username = ? AND id = ?`. -/
def deleteEdge (id : Nat) : Tables :=
  { t with edges := t.edges.filter fun e => !decide (e.username = u ∧ e.id = id) }

/-- Whether an edge of the account starts or ends at a node. -/
def linked (id : Nat) : Bool :=
  t.edges.any fun e => decide (e.username = u ∧ (e.src = id ∨ e.dst = some id))

/-- The second statement of `forget`: the nodes left without any edge. -/
def collectNodes : Tables :=
  { t with nodes := t.nodes.filter fun n => !decide (n.username = u) || t.linked u n.id }

def deleteEdges : Tables := { t with edges := t.edges.filter fun e => !decide (e.username = u) }

def deleteAliases : Tables :=
  { t with aliases := t.aliases.filter fun a => !decide (a.username = u) }

def deleteNodes : Tables := { t with nodes := t.nodes.filter fun n => !decide (n.username = u) }

/-- `INSERT OR IGNORE INTO memory_aliases`. -/
def insertAlias (env : Env) (a : Alias) : Tables :=
  if t.aliases.any (env.clash a) then t else { t with aliases := t.aliases ++ [a] }

end Tables

/-- The account has the node. -/
def Tables.has (t : Tables) (u : String) (id : Nat) : Prop :=
  ∃ n ∈ t.nodes, n.id = id ∧ n.username = u

instance (t : Tables) (u : String) (id : Nat) : Decidable (t.has u id) :=
  inferInstanceAs (Decidable (∃ n ∈ t.nodes, n.id = id ∧ n.username = u))

theorem Tables.has.mono {t t' : Tables} {u : String} {id : Nat} (hsub : t.nodes ⊆ t'.nodes)
    (h : t.has u id) : t'.has u id := by
  obtain ⟨n, hn, hid, hu⟩ := h
  exact ⟨n, hsub hn, hid, hu⟩

/-! ## The operations -/

/-- `str_field`: `x.strip()[:n]` of a text, nothing of anything else. -/
def strField (v : Option Json) (n : Nat) : Option (List Char) :=
  (v.bind Json.str?).map fun s => (pyStrip s).take n

/-- The row `node` inserts. -/
def newNode (env : Env) (u : String) (name : List Char) (kind : List Char) (id : Nat)
    (now : Time) : Node :=
  { id := id, username := u, name := (pyStrip name).take memMaxNameLen, nameNorm := env.norm name
    kind := kindOf kind, createdAt := now }

/-- `node`: the id of a name's node, by its normalised form, then by alias; created when
absent unless `create` is false. -/
def node (env : Env) (sup : Supply) (t : Tables) (u : String) (name kind : List Char)
    (create : Bool) : Tables × Option Nat :=
  if env.norm name = [] then (t, none)
  else
    match t.nodeByNorm u (env.norm name) with
    | some id => (t, some id)
    | none =>
        match t.nodeByAlias u (env.norm name) with
        | some id => (t, some id)
        | none =>
            if create then
              let t' := t.insertNode (newNode env u name kind (sup.node t.nodes) sup.now)
              (t', t'.nodeByNorm u (env.norm name))
            else (t, none)

/-- The arguments of `add_fact`. -/
structure FactArgs where
  subject : Option Json
  relation : Option Json
  fact : Option Json
  obj : Option Json
  source : List Char
  kind : Option Json

namespace FactArgs

variable (a : FactArgs)

def subjectText : List Char := (strField a.subject memMaxNameLen).getD []
def relationText : List Char := (strField a.relation 80).getD []
def factText : List Char := (strField a.fact memMaxFactLen).getD []

/-- The object, unless it is blank. -/
def objText : Option (List Char) :=
  (strField a.obj memMaxNameLen).filter fun o => pyStrip o ≠ []

def kindText : List Char := (a.kind.bind Json.str?).getD "subject".toList

/-- A relation that says more than the generic one. -/
def explicit : Bool := a.relationText ≠ [] ∧ a.relationText ≠ memGenericRelation

/-- The row `add_fact` inserts. -/
def edge (u : String) (src : Nat) (dst : Option Nat) (id : Nat) (now : Time) : Edge :=
  { id := id, username := u, src := src, relation := a.relationText, dst := dst, fact := a.factText
    source := sourceOf a.source, createdAt := now, validUntil := none }

end FactArgs

/-- What `add_fact` answers. -/
def missingMessage : List Char := "Sujet et fait sont obligatoires.".toList
def fullMessage : List Char :=
  "Mémoire pleine (400 faits). L'utilisateur doit en supprimer depuis la page Mémoire.".toList
def invalidMessage : List Char := "Sujet invalide.".toList
def storedMessage (fact : List Char) : List Char := "Mémorisé : ".toList ++ fact

/-- The object's node of `add_fact`, if it has an object. -/
def objectNode (env : Env) (sup : Supply) (t : Tables) (u : String) (obj : Option (List Char)) :
    Tables × Option Nat :=
  match obj with
  | some o => node env sup t u o "subject".toList true
  | none => (t, none)

/-- The last two statements of `add_fact`. -/
def writeFact (sup : Supply) (t : Tables) (u : String) (a : FactArgs) (src : Nat)
    (dst : Option Nat) : Tables :=
  let t' := if a.explicit then t.expire u src a.relationText dst sup.now else t
  t'.insertEdge (a.edge u src dst (sup.edge t'.edges) sup.now)

/-- `add_fact`. -/
def addFact (env : Env) (sup : Supply) (t : Tables) (u : String) (a : FactArgs) :
    Tables × List Char × Bool :=
  if a.subjectText = [] ∨ a.factText = [] then (t, missingMessage, false)
  else if t.countLive u ≥ memMaxFacts then (t, fullMessage, false)
  else
    match node env sup t u a.subjectText a.kindText true with
    | (t₁, none) => (t₁, invalidMessage, false)
    | (t₁, some src) =>
        match objectNode env sup t₁ u a.objText with
        | (t₂, dst) => (writeFact sup t₂ u a src dst, storedMessage a.factText, true)

/-- `forget`. -/
def forget (t : Tables) (u : String) (id : Nat) : Tables := (t.deleteEdge u id).collectNodes u

/-- `purge`. -/
def purge (t : Tables) (u : String) : Tables := ((t.deleteEdges u).deleteAliases u).deleteNodes u

/-- `add_alias`. -/
def addAlias (env : Env) (t : Tables) (u : String) (id : Nat) (other : List Char) : Tables :=
  if env.norm other = [] then t else t.insertAlias env ⟨id, u, env.norm other⟩

end Portal.Memory
