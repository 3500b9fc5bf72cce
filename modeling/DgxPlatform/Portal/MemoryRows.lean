import DgxPlatform.Portal.MemoryExport
import DgxPlatform.Portal.MemoryNorm
import Mathlib.Data.List.Pairwise

/-! # The rows of a memory in use

What the rows of the three tables have in common after any operations (`Wf`): the nodes'
ids are distinct, an account has no two nodes with one normalised name, a node's name is
stripped and its normalised form is that of the name, a fact is not empty and not too
long, no alias row is there twice, and no account has more live facts than the limit.

That an edge is on nodes of its account is not among it. `forget` removes the nodes that
have no edge left and leaves their aliases behind; where the id of such a node is given
to another account's, the alias leads to that one.
-/

namespace Portal.Memory

open Accounts (pyStrip)
open Run

/-- `mem_norm`, and a key of `memory_aliases` that has the account and the alias, with or
without the node. -/
def memEnv (uni : Unicode) (keyHasNode : Bool) : Env where
  norm := memNorm uni
  clash := fun a b =>
    decide (a.username = b.username ∧ a.aliasNorm = b.aliasNorm) &&
      (!keyHasNode || decide (a.nodeId = b.nodeId))

/-- What the proofs use of the two. -/
structure Env.Law (env : Env) : Prop where
  norm_pyStrip : ∀ name, env.norm (pyStrip name) = env.norm name
  norm_nil : env.norm [] = []
  clash_same : ∀ a b, env.clash a b = true → a.username = b.username ∧ a.aliasNorm = b.aliasNorm
  /-- on two nodes, whether two rows of one account and alias clash is always the same -/
  clash_moved : ∀ a b c d : Alias, a.username = b.username → a.aliasNorm = b.aliasNorm →
    a.nodeId ≠ b.nodeId → c.username = d.username → c.aliasNorm = d.aliasNorm →
      c.nodeId ≠ d.nodeId → env.clash a b = env.clash c d

theorem memEnv_law (uni : Unicode) (keyHasNode : Bool) : (memEnv uni keyHasNode).Law where
  norm_pyStrip := memNorm_pyStrip
  norm_nil := memNorm_nil
  clash_same := by
    intro a b h
    have h' := (Bool.and_eq_true_iff.1 h).1
    exact of_decide_eq_true h'
  clash_moved := by
    intro a b c d hu hn hid hu' hn' hid'
    simp [memEnv, hu, hn, hid, hu', hn', hid']

/-! ## The parts of an operation -/

variable {env : Env} {sup : Supply} {t : Tables} {u : String}

/-- `node` that may create: no name, a node that is there, or a new one. -/
theorem node_cases (env : Env) (sup : Supply) (t : Tables) (u : String) (name kind : List Char) :
    (env.norm name = [] ∧ node env sup t u name kind true = (t, none)) ∨
    (env.norm name ≠ [] ∧ ∃ id,
      (t.nodeByNorm u (env.norm name) = some id ∨
        t.nodeByNorm u (env.norm name) = none ∧ t.nodeByAlias u (env.norm name) = some id) ∧
      node env sup t u name kind true = (t, some id)) ∨
    (env.norm name ≠ [] ∧ t.nodeByNorm u (env.norm name) = none ∧
      t.nodeByAlias u (env.norm name) = none ∧
      node env sup t u name kind true =
        (t.insertNode (newNode env u name kind (sup.node t.nodes) sup.now),
          some (sup.node t.nodes))) := by
  by_cases hne : env.norm name = []
  · exact .inl ⟨hne, by simp [node, hne]⟩
  refine .inr ?_
  cases hn : t.nodeByNorm u (env.norm name) with
  | some id => exact .inl ⟨hne, id, .inl rfl, by simp [node, hne, hn]⟩
  | none =>
    cases ha : t.nodeByAlias u (env.norm name) with
    | some id => exact .inl ⟨hne, id, .inr ⟨rfl, rfl⟩, by simp [node, hne, hn, ha]⟩
    | none =>
      refine .inr ⟨hne, rfl, rfl, ?_⟩
      have hnone := Option.map_eq_none_iff.1 hn
      -- the row is found again, by the form it was inserted with
      have hfound : (t.insertNode (newNode env u name kind (sup.node t.nodes) sup.now)).nodeByNorm u
          (env.norm name) = some (sup.node t.nodes) := by
        simp only [Tables.nodeByNorm, Tables.insertNode, List.find?_append, hnone, Option.none_or]
        simp [newNode]
      simp [node, hne, hn, ha, hfound]

/-- What holds of the tables before `node` and after a new node holds after `node`. -/
theorem node_kept {Q : Tables → Prop} {name kind : List Char} (h : Q t)
    (hnew : env.norm name ≠ [] → t.nodeByNorm u (env.norm name) = none →
      t.nodeByAlias u (env.norm name) = none →
        Q (t.insertNode (newNode env u name kind (sup.node t.nodes) sup.now))) :
    Q (node env sup t u name kind true).1 := by
  rcases node_cases env sup t u name kind with ⟨-, hr⟩ | ⟨-, id, -, hr⟩ | ⟨hne, hnorm, halias, hr⟩
  · rw [hr]
    exact h
  · rw [hr]
    exact h
  · rw [hr]
    exact hnew hne hnorm halias

theorem nodeByNorm_eq_none {norm : List Char} :
    t.nodeByNorm u norm = none ↔ ∀ n ∈ t.nodes, n.username = u → n.nameNorm ≠ norm := by
  simp only [Tables.nodeByNorm, Option.map_eq_none_iff, List.find?_eq_none, decide_eq_true_eq,
    not_and, ne_eq]

theorem nodeByAlias_eq_none {norm : List Char} : t.nodeByAlias u norm = none ↔
      ∀ n ∈ t.nodes, ∀ a ∈ t.aliases, a.nodeId = n.id → a.username = u → a.aliasNorm ≠ norm := by
  simp only [Tables.nodeByAlias, Option.map_eq_none_iff, List.find?_eq_none, List.any_eq_true,
    decide_eq_true_eq, not_exists, not_and, ne_eq]

/-- What `add_fact` does: nothing, only its subject's node, or both nodes and the edge. -/
theorem addFact_cases (env : Env) (sup : Supply) (t : Tables) (u : String) (a : FactArgs) :
    (addFact env sup t u a).1 = t ∨
    (addFact env sup t u a).1 = (node env sup t u a.subjectText a.kindText true).1 ∨
    (∃ src, a.factText ≠ [] ∧ t.countLive u < memMaxFacts ∧
      (node env sup t u a.subjectText a.kindText true).2 = some src ∧
      (addFact env sup t u a).1 =
        writeFact sup
          (objectNode env sup (node env sup t u a.subjectText a.kindText true).1 u a.objText).1 u a src
          (objectNode env sup (node env sup t u a.subjectText a.kindText true).1 u a.objText).2) := by
  unfold addFact
  split
  · exact .inl rfl
  next htexts =>
  split
  · exact .inl rfl
  next hroom =>
  refine .inr ?_
  split
  · next t₁ hnode =>
      exact .inl (by rw [hnode])
  · next t₁ src hnode =>
      refine .inr ⟨src, ?_, by omega, by rw [hnode], by rw [hnode]⟩
      intro hnil
      exact htexts (.inr hnil)

/-! ## Well-formed rows -/

structure Node.Ok (env : Env) (n : Node) : Prop where
  norm : n.nameNorm = env.norm n.name
  norm_ne : n.nameNorm ≠ []
  strip : pyStrip n.name = n.name
  short : n.name.length ≤ memMaxNameLen

structure Edge.Ok (e : Edge) : Prop where
  fact_ne : e.fact ≠ []
  fact_short : e.fact.length ≤ memMaxFactLen
  relation_short : e.relation.length ≤ 80

structure Wf (env : Env) (t : Tables) : Prop where
  ids : (t.nodes.map Node.id).Nodup
  norms : t.nodes.Pairwise fun m n => m.username = n.username → m.nameNorm ≠ n.nameNorm
  node : ∀ n ∈ t.nodes, n.Ok env
  edge : ∀ e ∈ t.edges, e.Ok
  aliases : t.aliases.Pairwise fun a b => env.clash b a = false
  few : ∀ u, t.countLive u ≤ memMaxFacts

theorem wf_empty : Wf env ⟨[], [], []⟩ where
  ids := List.nodup_nil
  norms := List.Pairwise.nil
  node _ h := absurd h List.not_mem_nil
  edge _ h := absurd h List.not_mem_nil
  aliases := List.Pairwise.nil
  few _ := Nat.zero_le _

namespace Wf

variable (h : Wf env t)
include h

theorem eq_of_id {m n : Node} (hm : m ∈ t.nodes) (hn : n ∈ t.nodes) (hid : m.id = n.id) : m = n :=
  List.inj_on_of_nodup_map h.ids hm hn hid

theorem eq_of_norm {m n : Node} (hm : m ∈ t.nodes) (hn : n ∈ t.nodes)
    (hu : m.username = n.username) (hnorm : m.nameNorm = n.nameNorm) : m = n := by
  by_contra hne
  have hsymm : Std.Symm fun m n : Node => m.username = n.username → m.nameNorm ≠ n.nameNorm :=
    ⟨fun _ _ hmn hu he => hmn hu.symm he.symm⟩
  exact h.norms.forall hm hn hne hu hnorm

theorem eq_of_name {m n : Node} (hm : m ∈ t.nodes) (hn : n ∈ t.nodes)
    (hu : m.username = n.username) (hname : m.name = n.name) : m = n := by
  refine h.eq_of_norm hm hn hu ?_
  rw [(h.node m hm).norm, (h.node n hn).norm, hname]

theorem insertNode {n : Node} (hn : n.Ok env) (hid : ∀ m ∈ t.nodes, m.id ≠ n.id)
    (hnone : t.nodeByNorm n.username n.nameNorm = none) : Wf env (t.insertNode n) where
  ids := by
    simp only [Tables.insertNode, List.map_append, List.map_cons, List.map_nil]
    refine List.Nodup.append h.ids (List.nodup_singleton _) ?_
    intro id hid' hsame
    obtain ⟨m, hm, rfl⟩ := List.mem_map.1 hid'
    exact hid m hm (List.mem_singleton.1 hsame)
  norms := by
    refine List.pairwise_append.2 ⟨h.norms, List.pairwise_singleton _ _, ?_⟩
    intro m hm n' hn' hu
    obtain rfl := List.mem_singleton.1 hn'
    exact nodeByNorm_eq_none.1 hnone m hm hu
  node := by
    intro m hm
    rcases List.mem_append.1 hm with hold | hnew
    · exact h.node m hold
    · rw [List.mem_singleton.1 hnew]
      exact hn
  edge := h.edge
  aliases := h.aliases
  few := h.few

theorem setEdges {edges : List Edge} (hok : ∀ e ∈ edges, e.Ok)
    (hfew : ∀ u, Tables.countLive { t with edges := edges } u ≤ memMaxFacts) :
    Wf env { t with edges := edges } where
  ids := h.ids
  norms := h.norms
  node := h.node
  edge := hok
  aliases := h.aliases
  few := hfew

/-- Edges changed in place: none becomes live again or moves to another account. -/
theorem mapEdges {f : Edge → Edge} (hok : ∀ e ∈ t.edges, e.Ok → (f e).Ok)
    (huser : ∀ e, (f e).username = e.username)
    (hlive : ∀ e, (f e).validUntil = none → e.validUntil = none) :
    Wf env { t with edges := t.edges.map f } := by
  refine h.setEdges ?_ ?_
  · intro e' he'
    obtain ⟨e, he, rfl⟩ := List.mem_map.1 he'
    exact hok e he (h.edge e he)
  · intro u
    refine le_trans ?_ (h.few u)
    unfold Tables.countLive
    rw [List.countP_map]
    refine List.countP_mono_left ?_
    intro e _ hl
    simp only [Function.comp, decide_eq_true_eq, huser] at hl ⊢
    exact ⟨hl.1, hlive e hl.2⟩

theorem expire (src : Nat) (relation : List Char) (dst : Option Nat) (now : Time) :
    Wf env (t.expire u src relation dst now) := by
  refine h.mapEdges ?_ ?_ ?_
  · intro e _ hok
    split
    · exact ⟨hok.fact_ne, hok.fact_short, hok.relation_short⟩
    · exact hok
  · intro e
    split <;> rfl
  · intro e hl
    split at hl
    · cases hl
    · exact hl

theorem insertEdge {e : Edge} (hok : e.Ok) (hroom : t.countLive e.username < memMaxFacts) :
    Wf env (t.insertEdge e) := by
  refine h.setEdges ?_ ?_
  · intro e' he'
    rcases List.mem_append.1 he' with hold | hnew
    · exact h.edge e' hold
    · rw [List.mem_singleton.1 hnew]
      exact hok
  · intro v
    simp only [Tables.countLive, List.countP_append, List.countP_singleton]
    have hv := h.few v
    by_cases huv : e.username = v
    · subst huv
      simp only [Tables.countLive] at hroom
      split <;> omega
    · simp only [huv, false_and, decide_false, Bool.false_eq_true, if_false]
      exact hv

theorem filterEdges (p : Edge → Bool) : Wf env { t with edges := t.edges.filter p } := by
  refine h.setEdges ?_ ?_
  · intro e he
    exact h.edge e (List.mem_of_mem_filter he)
  · intro u
    exact (List.filter_sublist.countP_le).trans (h.few u)

theorem filterNodes (p : Node → Bool) : Wf env { t with nodes := t.nodes.filter p } where
  ids := h.ids.sublist (List.filter_sublist.map _)
  norms := h.norms.sublist List.filter_sublist
  node n hn := h.node n (List.mem_of_mem_filter hn)
  edge := h.edge
  aliases := h.aliases
  few := h.few

theorem insertAlias (a : Alias) : Wf env (t.insertAlias env a) := by
  unfold Tables.insertAlias
  split
  · exact h
  · next hclash =>
      refine ⟨h.ids, h.norms, h.node, h.edge, ?_, h.few⟩
      refine List.pairwise_append.2 ⟨h.aliases, List.pairwise_singleton _ _, ?_⟩
      intro b hb a' ha'
      obtain rfl := List.mem_singleton.1 ha'
      by_contra hne
      exact hclash (List.any_eq_true.2 ⟨b, hb, by simpa using hne⟩)

theorem addAlias (id : Nat) (other : List Char) : Wf env (addAlias env t u id other) := by
  unfold Memory.addAlias
  split
  · exact h
  · exact h.insertAlias _

theorem addAliases (id : Nat) (others : List (List Char)) : Wf env (addAliases env t u id others) := by
  unfold Memory.addAliases
  induction others generalizing t with
  | nil => exact h
  | cons other others ih => exact ih (h.addAlias id other)

theorem forget (id : Nat) : Wf env (forget t u id) :=
  (h.filterEdges _).filterNodes _

end Wf

/-! ## Every operation keeps them -/

theorem pyStrip_idem (x : List Char) : pyStrip (pyStrip x) = pyStrip x := Text.trimMatches_idem _ x

theorem length_pyStrip_le (x : List Char) : (pyStrip x).length ≤ x.length :=
  Text.length_trimMatches_le _ x

theorem length_strField_le (v : Option Json) (n : Nat) : ((strField v n).getD []).length ≤ n := by
  unfold strField
  cases v.bind Json.str? with
  | none => exact Nat.zero_le n
  | some s => exact List.length_take_le n _

variable {name : List Char}

theorem newNode_ok (law : env.Law) (hname : name.length ≤ memMaxNameLen)
    (hne : env.norm name ≠ []) (kind : List Char) (id : Nat) (now : Time) :
    (newNode env u name kind id now).Ok env := by
  have hshort : (pyStrip name).length ≤ memMaxNameLen := (length_pyStrip_le name).trans hname
  have htake : (pyStrip name).take memMaxNameLen = pyStrip name := List.take_of_length_le hshort
  constructor
  · simp only [newNode, htake, law.norm_pyStrip]
  · exact hne
  · simp only [newNode, htake, pyStrip_idem]
  · simp only [newNode, htake]
    exact hshort

theorem Wf.node_step (law : env.Law) (h : Wf env t) (hname : name.length ≤ memMaxNameLen) (kind : List Char) :
    Wf env (Memory.node env sup t u name kind true).1 := by
  refine node_kept h ?_
  intro hne hnone _
  exact h.insertNode (newNode_ok law hname hne kind _ _) (sup.node_unused t.nodes) hnone

theorem length_objText_le (a : FactArgs) : ∀ o ∈ a.objText, o.length ≤ memMaxNameLen := by
  intro o ho
  have hfield := (Option.mem_filter_iff.1 ho).1
  have hle := length_strField_le a.obj memMaxNameLen
  rwa [Option.mem_def.1 hfield] at hle

theorem Wf.objectNode_step (law : env.Law) (h : Wf env t) (a : FactArgs) :
    Wf env (objectNode env sup t u a.objText).1 := by
  unfold objectNode
  split
  · next o ho => exact h.node_step law (length_objText_le a o ho) _
  · exact h

@[simp] theorem node_edges (name kind : List Char) :
    (node env sup t u name kind true).1.edges = t.edges :=
  node_kept (Q := fun t' => t'.edges = t.edges) rfl fun _ _ _ => rfl

@[simp] theorem objectNode_edges (obj : Option (List Char)) :
    (objectNode env sup t u obj).1.edges = t.edges := by
  cases obj with
  | none => rfl
  | some o => exact node_edges o _

theorem FactArgs.edge_ok {a : FactArgs} (hfact : a.factText ≠ []) (src : Nat) (dst : Option Nat)
    (id : Nat) (now : Time) : (a.edge u src dst id now).Ok where
  fact_ne := hfact
  fact_short := length_strField_le a.fact memMaxFactLen
  relation_short := length_strField_le a.relation 80

theorem countLive_expire_le (src : Nat) (relation : List Char) (dst : Option Nat) (now : Time) :
    (t.expire u src relation dst now).countLive u ≤ t.countLive u := by
  simp only [Tables.countLive, Tables.expire, List.countP_map]
  refine List.countP_mono_left ?_
  intro e _ hl
  simp only [Function.comp, decide_eq_true_eq] at hl ⊢
  split at hl
  · cases hl.2
  · exact hl

theorem Wf.writeFact (h : Wf env t) {a : FactArgs} (hfact : a.factText ≠ [])
    (hroom : t.countLive u < memMaxFacts) (src : Nat) (dst : Option Nat) :
    Wf env (writeFact sup t u a src dst) := by
  unfold Memory.writeFact
  split
  · refine (h.expire src a.relationText dst sup.now).insertEdge (FactArgs.edge_ok hfact _ _ _ _) ?_
    exact (countLive_expire_le _ _ _ _).trans_lt hroom
  · exact h.insertEdge (FactArgs.edge_ok hfact _ _ _ _) hroom

theorem Wf.addFact (law : env.Law) (h : Wf env t) (a : FactArgs) : Wf env (addFact env sup t u a).1 := by
  have hsubject : Wf env (Memory.node env sup t u a.subjectText a.kindText true).1 :=
    h.node_step law (length_strField_le a.subject memMaxNameLen) _
  rcases addFact_cases env sup t u a with hr | hr | ⟨src, hfact, hroom, -, hr⟩
  · rw [hr]
    exact h
  · rw [hr]
    exact hsubject
  · rw [hr]
    refine (hsubject.objectNode_step law a).writeFact hfact ?_ src _
    simpa [Tables.countLive] using hroom

theorem Wf.updateFact (h : Wf env t) (id : Nat) (fact relation : Option Json) :
    Wf env (updateFact t u id fact relation).1 := by
  unfold Memory.updateFact
  split
  · exact h
  next e he =>
  split
  · next newFact newRel _ _ =>
      dsimp only
      split
      · exact h
      next hne =>
      refine h.mapEdges ?_ ?_ ?_
      · intro e' _ hok
        split
        · refine ⟨hne, List.length_take_le _ _, ?_⟩
          split
          · exact (h.edge e (List.mem_of_find?_eq_some he)).relation_short
          · exact List.length_take_le _ _
        · exact hok
      · intro e'
        split <;> rfl
      · intro e' hl
        split at hl
        · exact hl
        · exact hl
  · exact h

/-! ## The import -/

theorem lookup_filter_ne {key key' : String} (hne : key ≠ key') (fields : List (String × Json)) :
    (fields.filter fun f => f.1 != key').lookup key = fields.lookup key := by
  induction fields with
  | nil => rfl
  | cons f fields ih =>
    obtain ⟨k, v⟩ := f
    by_cases hk : k = key'
    · subst hk
      have hbeq : (key == k) = false := by simpa using hne
      simpa [List.lookup_cons, hbeq] using ih
    · simp [List.lookup_cons, hk, ih]

theorem readNode_name {fields fields' : List (String × Json)}
    (hname : (fields.lookup "name").bind Json.str? = some name)
    (h : fields' = fields ∨
      fields' = (fields.filter fun f => f.1 != "kind") ++ [("kind", .str Kind.subject.text)]) :
    (readNode (.obj fields')).name = name := by
  have hkept : fields'.lookup "name" = fields.lookup "name" := by
    rcases h with rfl | rfl
    · rfl
    · have hkind : [("kind", Json.str Kind.subject.text)].lookup "name" = none := rfl
      rw [List.lookup_append, hkind, Option.or_none, lookup_filter_ne (by decide)]
  simp [readNode, Json.field, hkept, hname]

theorem readNode_short {x y : Json} (h : checkNode x = .ok y) : (readNode y).name.length ≤ memMaxNameLen := by
  unfold checkNode at h
  split at h
  · next fields =>
      split at h
      · cases h
      next name hname =>
      split at h
      · cases h
      next hshort =>
      dsimp only at h
      have hy : ∃ fields', y = .obj fields' ∧ (fields' = fields ∨
          fields' = (fields.filter fun f => f.1 != "kind") ++ [("kind", .str Kind.subject.text)]) := by
        split at h <;> cases h
        all_goals
          refine ⟨_, rfl, ?_⟩
          split
          · exact .inl rfl
          · exact .inr rfl
      obtain ⟨fields', rfl, hfields⟩ := hy
      rw [readNode_name hname hfields]
      omega
  · cases h

theorem mem_of_checkAll {check : Json → Except String Json} {xs ys : List Json}
    (h : checkAll check xs = .ok ys) : ∀ y ∈ ys, ∃ x ∈ xs, check x = .ok y := by
  induction xs generalizing ys with
  | nil =>
    cases h
    intro y hy
    cases hy
  | cons x xs ih =>
    unfold checkAll at h
    split at h
    · cases h
    next y₀ hx =>
    split at h
    · cases h
    next ys₀ hxs =>
    cases h
    intro y hy
    rcases List.mem_cons.1 hy with rfl | hy'
    · exact ⟨x, List.mem_cons_self, hx⟩
    · obtain ⟨x', hx', hc⟩ := ih hxs y hy'
      exact ⟨x', List.mem_cons_of_mem _ hx', hc⟩

theorem validateImport_short {doc : Json} {nodes edges : List Json}
    (h : validateImport doc = .ok (nodes, edges)) :
    ∀ n ∈ nodes.map readNode, n.name.length ≤ memMaxNameLen := by
  unfold validateImport at h
  split at h
  · split at h
    · cases h
    split at h
    · split at h
      · cases h
      split at h
      · cases h
      split at h
      · cases h
      next hnodes =>
      split at h
      · cases h
      cases h
      intro n hn
      obtain ⟨y, hy, rfl⟩ := List.mem_map.1 hn
      obtain ⟨x, -, hx⟩ := mem_of_checkAll hnodes y hy
      exact readNode_short hx
    · cases h
  · cases h

/-- What the import of a node does: only the node, or also its aliases. -/
theorem importNode_cases (env : Env) (sup : Supply) (u : String) (x : Tables × Nat) (n : NodeEntry) :
    (importNode env sup u x n).1 = (node env sup x.1 u n.name n.kind true).1 ∨
    ∃ id, (node env sup x.1 u n.name n.kind true).2 = some id ∧ (importNode env sup u x n).1 =
      addAliases env (node env sup x.1 u n.name n.kind true).1 u id n.aliases := by
  unfold importNode
  split
  · next hr => exact .inl (by rw [hr])
  · next t' id hr => exact .inr ⟨id, by rw [hr], by rw [hr]⟩

theorem importFact_cases (env : Env) (sup : Supply) (u : String) (x : Tables × Nat) (f : FactEntry) :
    (importFact env sup u x f).1 = x.1 ∨
    (importFact env sup u x f).1 = (addFact env sup x.1 u f.args).1 := by
  unfold importFact
  split
  · exact .inl rfl
  split
  · exact .inl rfl
  · exact .inr rfl

variable {s : Tables × Nat}

theorem Wf.importNode (law : env.Law) (h : Wf env s.1) {n : NodeEntry}
    (hn : n.name.length ≤ memMaxNameLen) : Wf env (importNode env sup u s n).1 := by
  have hnode : Wf env (Memory.node env sup s.1 u n.name n.kind true).1 := h.node_step law hn _
  rcases importNode_cases env sup u s n with hr | ⟨id, -, hr⟩
  · rw [hr]
    exact hnode
  · rw [hr]
    exact hnode.addAliases id n.aliases

theorem Wf.importNodes (law : env.Law) (h : Wf env s.1) {ns : List NodeEntry}
    (hns : ∀ n ∈ ns, n.name.length ≤ memMaxNameLen) :
    Wf env (ns.foldl (Memory.importNode env sup u) s).1 := by
  induction ns generalizing s with
  | nil => exact h
  | cons n ns ih =>
    refine ih (h.importNode law (hns n List.mem_cons_self)) ?_
    intro n' hn'
    exact hns n' (List.mem_cons_of_mem _ hn')

theorem Wf.importFact (law : env.Law) (h : Wf env s.1) (f : FactEntry) :
    Wf env (importFact env sup u s f).1 := by
  rcases importFact_cases env sup u s f with hr | hr
  · rw [hr]
    exact h
  · rw [hr]
    exact h.addFact law f.args

theorem Wf.importFacts (law : env.Law) (h : Wf env s.1) (fs : List FactEntry) :
    Wf env (fs.foldl (Memory.importFact env sup u) s).1 := by
  induction fs generalizing s with
  | nil => exact h
  | cons f fs ih => exact ih (h.importFact law f)

theorem Wf.graphStep (law : env.Law) (h : Wf env t) {op : GraphOp × Supply} {t' : Tables}
    (hstep : graphStep env t op = some t') : Wf env t' := by
  obtain ⟨op, sup⟩ := op
  unfold Memory.graphStep at hstep
  cases op with
  | addFact u a =>
    cases hstep
    exact h.addFact law a
  | updateFact u id fact relation =>
    cases hstep
    exact h.updateFact id fact relation
  | forget u id =>
    cases hstep
    exact h.forget id
  | addAlias u id other =>
    dsimp only at hstep
    split at hstep
    · cases hstep
      exact h.addAlias id other
    · cases hstep
  | importDoc u doc =>
    dsimp only at hstep
    unfold apiMemoryImport at hstep
    split at hstep
    · next r hr =>
        cases hstep
        split at hr
        · cases hr
        · next nodes edges hdoc =>
            cases hr
            refine Wf.importFacts (s := (_, 0)) law ?_ _
            exact Wf.importNodes (s := (t, 0)) law h (validateImport_short hdoc)
    · cases hstep
      exact h

theorem exec_wf (law : env.Law) {ops : List (GraphOp × Supply)}
    (hrun : exec (graphStep env) ⟨[], [], []⟩ ops = some t) : Wf env t :=
  exec_kept (fun _ _ _ h hstep => h.graphStep law hstep) wf_empty hrun

end Portal.Memory
