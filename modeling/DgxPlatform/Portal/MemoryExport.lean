import DgxPlatform.Lib.Run
import DgxPlatform.Portal.Conversations
import DgxPlatform.Portal.Memory

/-! # Export and import of a memory

`export_doc` writes an account's subjects with their aliases and its live facts, by
name; `api_memory_import` reads such a document into the session's account: it finds or
creates each subject, gives it its aliases, and adds the facts that are not there yet
with `add_fact`.

`graphStep` is a memory under the operations one after another, the imports included.
-/

namespace Portal.Memory

open Accounts (pyStrip)
open Conversations (truthy)

def memorySchema : List Char := "dgx-memory".toList
def importMaxNodes : Nat := 10000

/-! ## `update_fact` -/

/-- The outcome of a correction. -/
inductive Update where
  | done (message : List Char)
  | refused (message : List Char)
  | malformed

/-- The new text of a field, the old one when none is given. -/
def pick (v : Option Json) (old : List Char) : Option (List Char) :=
  match v with
  | none => some old
  | some .null => some old
  | some (.str s) => some s
  | some _ => none

/-- `update_fact`: corrects a live fact in place. -/
def updateFact (t : Tables) (u : String) (id : Nat) (fact relation : Option Json) :
    Tables × Update :=
  match t.edges.find? fun e => decide (e.username = u ∧ e.id = id ∧ e.validUntil = none) with
  | none => (t, .refused "Information introuvable.".toList)
  | some e =>
      match pick fact e.fact, pick relation e.relation with
      | some newFact, some newRel =>
          let newFact := (pyStrip newFact).take memMaxFactLen
          if newFact = [] then (t, .refused "Le texte ne peut pas être vide.".toList)
          else
            let rel := (pyStrip newRel).take 80
            (t.correct u id newFact (if rel = [] then e.relation else rel),
              .done ("Mis à jour : ".toList ++ newFact))
      | _, _ => (t, .malformed)

/-! ## `export_doc` -/

def Tables.nodeById (t : Tables) (id : Nat) : Option Node := t.nodes.find? fun n => n.id = id

/-- A live edge of the account. -/
def Edge.live (u : String) (e : Edge) : Bool := decide (e.username = u ∧ e.validUntil = none)

/-- A fact by names. -/
structure FactView where
  subject : List Char
  relation : List Char
  object : Option (List Char)
  fact : List Char
  source : Source
deriving DecidableEq

/-- An edge with the names of its nodes: none without a subject, and no object when its
node is not there. -/
def Tables.factView (t : Tables) (e : Edge) : Option FactView :=
  (t.nodeById e.src).map fun s =>
    { subject := s.name, relation := e.relation
      object := (e.dst.bind t.nodeById).map Node.name, fact := e.fact, source := e.source }

/-- The live facts of `graph`, newest first. -/
def Tables.exportedFacts (t : Tables) (u : String) : List FactView :=
  ((t.edges.filter (Edge.live u)).mergeSort fun a b => decide (b.createdAt ≤ a.createdAt)).filterMap
    t.factView

/-- The nodes of `graph`, by name. -/
def Tables.exportedNodes (t : Tables) (u : String) : List Node :=
  (t.nodes.filter fun n => decide (n.username = u)).mergeSort fun a b => !decide (b.name < a.name)

/-- The aliases of a node, in their order. -/
def Tables.aliasesOf (t : Tables) (u : String) (id : Nat) : List (List Char) :=
  ((((t.aliases.filter fun a => decide (a.username = u)).mergeSort fun a b =>
    !decide (b.aliasNorm < a.aliasNorm))).filter fun a => decide (a.nodeId = id)).map
      Alias.aliasNorm

def nodeJson (name : List Char) (kind : Kind) (aliases : List (List Char)) : Json :=
  .obj [("name", .str name), ("kind", .str kind.text), ("aliases", .arr (aliases.map .str))]

def FactView.json (f : FactView) : Json :=
  .obj [("subject", .str f.subject), ("relation", .str f.relation), ("fact", .str f.fact),
    ("object", (f.object.map Json.str).getD .null), ("source", .str f.source.text)]

/-- `export_doc`. -/
def exportDoc (t : Tables) (u : String) (exportedAt : List Char) : Json :=
  .obj [("schema", .str memorySchema), ("version", .num 1), ("username", .str u.toList),
    ("exported_at", .str exportedAt),
    ("nodes", .arr ((t.exportedNodes u).map fun n => nodeJson n.name n.kind (t.aliasesOf u n.id))),
    ("edges", .arr ((t.exportedFacts u).map FactView.json))]

/-! ## `api_memory_import` -/

/-- A node of the document: a name that is not too long, a list of aliases; its kind is
fixed in place. -/
def checkNode : Json → Except String Json
  | .obj fields =>
      match (fields.lookup "name").bind Json.str? with
      | none => .error "Un sujet est invalide (champ 'name' manquant)."
      | some name =>
          if name.length > memMaxNameLen then .error "Nom de sujet trop long."
          else
            let fields' :=
              if (((fields.lookup "kind").bind Json.str?).bind kind?).isSome then fields
              else (fields.filter fun f => f.1 != "kind") ++ [("kind", .str Kind.subject.text)]
            match fields.lookup "aliases" with
            | none => .ok (.obj fields')
            | some .null => .ok (.obj fields')
            | some (.arr _) => .ok (.obj fields')
            | some _ => .error "Les alias d'un sujet doivent être une liste."
  | _ => .error "Un sujet est invalide (champ 'name' manquant)."

/-- A fact of the document: a subject, and a text that is not too long. -/
def checkEdge : Json → Except String Json
  | .obj fields =>
      match (fields.lookup "subject").bind Json.str?, (fields.lookup "fact").bind Json.str? with
      | some _, some fact =>
          if fact.length > memMaxFactLen then .error "Fait trop long." else .ok (.obj fields)
      | _, _ => .error "Un fait est invalide (subject/fact manquants)."
  | _ => .error "Un fait est invalide."

/-- The first refusal of a list of checks. -/
def checkAll (check : Json → Except String Json) : List Json → Except String (List Json)
  | [] => .ok []
  | x :: xs =>
      match check x with
      | .error e => .error e
      | .ok y =>
          match checkAll check xs with
          | .error e => .error e
          | .ok ys => .ok (y :: ys)

/-- `validate_import`: the two lists of the document as the handler then reads them. -/
def validateImport : Json → Except String (List Json × List Json)
  | .obj fields =>
      if (fields.lookup "schema").bind Json.str? ≠ some memorySchema then
        .error "Format non reconnu (clé 'schema' manquante ou incorrecte)."
      else
        match fields.lookup "nodes", fields.lookup "edges" with
        | some (.arr nodes), some (.arr edges) =>
            if nodes.length > importMaxNodes then
              .error ("Trop de sujets (" ++ toString nodes.length ++ ").")
            else if edges.length > memMaxFacts then
              .error ("Trop de faits (" ++ toString edges.length ++ " > 400).")
            else
              match checkAll checkNode nodes with
              | .error e => .error e
              | .ok nodes' =>
                  match checkAll checkEdge edges with
                  | .error e => .error e
                  | .ok edges' => .ok (nodes', edges')
        | _, _ => .error "'nodes' et 'edges' doivent être des listes."
  | _ => .error "Document JSON invalide (objet attendu)."

/-- `fact_exists`: a live fact with the same normalised subject and text. -/
def factExists (env : Env) (t : Tables) (u : String) (subject fact : List Char) : Bool :=
  t.edges.any fun e =>
    e.live u && decide (e.fact = fact) &&
      (t.nodeById e.src).any fun s => decide (s.nameNorm = env.norm subject)

/-- A text field, empty when it is none. -/
def Json.field (j : Json) (key : String) : List Char := ((j.get? key).bind Json.str?).getD []

/-- The aliases of a node, all at once. -/
def addAliases (env : Env) (t : Tables) (u : String) (id : Nat) (others : List (List Char)) :
    Tables :=
  others.foldl (fun t other => addAlias env t u id other) t

/-- A node of the document, read. -/
structure NodeEntry where
  name : List Char
  kind : List Char
  aliases : List (List Char)

def readNode (n : Json) : NodeEntry where
  name := Json.field n "name"
  kind := ((n.get? "kind").bind Json.str?).getD "subject".toList
  aliases := (((n.get? "aliases").bind Json.arr?).getD []).filterMap Json.str?

/-- One node of the document; the tables and how many were imported. -/
def importNode (env : Env) (sup : Supply) (u : String) (s : Tables × Nat) (n : NodeEntry) :
    Tables × Nat :=
  match node env sup s.1 u n.name n.kind true with
  | (t, none) => (t, s.2)
  | (t, some id) => (addAliases env t u id n.aliases, s.2 + 1)

/-- A fact of the document, read. -/
structure FactEntry where
  subject : List Char
  fact : List Char
  relation : Json
  obj : Option Json
  source : List Char

def readFact (e : Json) : FactEntry where
  subject := pyStrip (Json.field e "subject")
  fact := (pyStrip (Json.field e "fact")).take memMaxFactLen
  relation := ((e.get? "relation").filter truthy).getD (.str memGenericRelation)
  obj := e.get? "object"
  source := if Json.field e "source" = "user".toList then "user".toList else "model".toList

def FactEntry.args (f : FactEntry) : FactArgs :=
  { subject := some (.str f.subject), relation := some f.relation, fact := some (.str f.fact)
    obj := f.obj, source := f.source, kind := some (.str "subject".toList) }

/-- One fact of the document. -/
def importFact (env : Env) (sup : Supply) (u : String) (s : Tables × Nat) (f : FactEntry) :
    Tables × Nat :=
  if f.subject = [] ∨ f.fact = [] then s
  else if factExists env s.1 u f.subject f.fact then s
  else
    match addFact env sup s.1 u f.args with
    | (t, _, ok) => (t, if ok then s.2 + 1 else s.2)

/-- `api_memory_import`: the tables, and how many nodes and facts were imported. -/
def apiMemoryImport (env : Env) (sup : Supply) (t : Tables) (u : String) (doc : Json) :
    Except Refusal (Tables × Nat × Nat) :=
  match validateImport doc with
  | .error e => .error ⟨e, 400⟩
  | .ok (nodes, edges) =>
      let s₁ := (nodes.map readNode).foldl (importNode env sup u) (t, 0)
      let s₂ := (edges.map readFact).foldl (importFact env sup u) (s₁.1, 0)
      .ok (s₂.1, s₁.2, s₂.2)

/-! ## A memory in use -/

/-- The operations of a memory. An alias is given to a node that `node` has found. -/
inductive GraphOp where
  | addFact (u : String) (a : FactArgs)
  | updateFact (u : String) (id : Nat) (fact relation : Option Json)
  | forget (u : String) (id : Nat)
  | addAlias (u : String) (id : Nat) (other : List Char)
  | importDoc (u : String) (doc : Json)

/-- One operation, with the ids and the time it gets. -/
def graphStep (env : Env) (t : Tables) (op : GraphOp × Supply) : Option Tables :=
  match op.1 with
  | .addFact u a => some (addFact env op.2 t u a).1
  | .updateFact u id fact relation => some (updateFact t u id fact relation).1
  | .forget u id => some (forget t u id)
  | .addAlias u id other => if t.has u id then some (addAlias env t u id other) else none
  | .importDoc u doc =>
      match apiMemoryImport env op.2 t u doc with
      | .ok r => some r.1
      | .error _ => some t

end Portal.Memory
