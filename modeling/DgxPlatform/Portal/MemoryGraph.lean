import DgxPlatform.Lib.Calls
import DgxPlatform.Portal.Memory

/-! # The memory graph under concurrent operations

The operations of an account's memory run query by query, with no transaction around
them: between two statements of one everybody else may run. `add_fact` finds or creates
its nodes several statements before the edge that keeps them; `forget` removes an edge,
then the nodes without any; `purge` empties the tables one after another; an import
finds a node, then gives it an alias.

The graph is sound when every edge and every alias is on a node of its account that is
there. `keepsLinks` says of one statement what it must find for that. It is exact: a
statement that finds something else leaves the graph broken.
-/

namespace Portal.Memory

open Run Calls

/-! ## The operations, statement by statement -/

/-- Where `node` stands. -/
inductive NodePc where
  | byNorm
  | byAlias
  | insert
  | reread
  | found (id : Option Nat)

/-- The answers of the operations. -/
inductive Answer where
  | fact (message : List Char) (ok : Bool)
  | forgotten (found : Bool)
  | purged (facts : Nat)
  | linked
  /-- a statement has failed -/
  | failed

/-- Where an operation stands, with its locals. -/
inductive Pc where
  | counting (a : FactArgs)
  | subject (a : FactArgs) (pc : NodePc)
  | object (a : FactArgs) (src : Nat) (obj : List Char) (pc : NodePc)
  | expiring (a : FactArgs) (src : Nat) (dst : Option Nat)
  | inserting (a : FactArgs) (src : Nat) (dst : Option Nat)
  | forgetting (id : Nat)
  | collecting (found : Bool)
  | purging
  | purgingEdges (facts : Nat)
  | purgingAliases (facts : Nat)
  | purgingNodes (facts : Nat)
  /-- an import at the node of one of its names -/
  | linking (name kind : List Char) (create : Bool) (other : List Char) (pc : NodePc)
  | aliasing (id : Nat) (other : List Char)
  | ended (answer : Answer)

structure Call where
  username : String
  pc : Pc

/-- What can be asked for: the facts of the page and of the model, and an alias as the
imports give it. -/
inductive Op where
  | addFact (a : FactArgs)
  | forget (id : Nat)
  | purge
  | link (name kind : List Char) (create : Bool) (other : List Char)

structure Request where
  username : String
  op : Op

def Op.pc : Op → Pc
  | .addFact a => .counting a
  | .forget id => .forgetting id
  | .purge => .purging
  | .link name kind create other => .linking name kind create other .byNorm

/-- A statement, with the id of a row it inserts and the time; or it fails. -/
inductive Move where
  | query (id : Nat) (now : Time)
  | fail

/-- `node`, one statement. -/
def nodeMove (env : Env) (t : Tables) (u : String) (name kind : List Char) (create : Bool)
    (pc : NodePc) (id : Nat) (now : Time) : Option (Tables × NodePc) :=
  match pc with
  | .byNorm =>
      if env.norm name = [] then some (t, .found none)
      else
        match t.nodeByNorm u (env.norm name) with
        | some id => some (t, .found (some id))
        | none => some (t, .byAlias)
  | .byAlias =>
      match t.nodeByAlias u (env.norm name) with
      | some id => some (t, .found (some id))
      | none => if create then some (t, .insert) else some (t, .found none)
  | .insert =>
      if t.nodes.all fun n => n.id != id then
        some (t.insertNode (newNode env u name kind id now), .reread)
      else none
  -- another statement may have removed the row again
  | .reread => some (t, .found (t.nodeByNorm u (env.norm name)))
  | .found _ => none

/-- `add_fact` once both nodes are known. -/
def afterNodes (a : FactArgs) (src : Nat) (dst : Option Nat) : Pc :=
  if a.explicit then .expiring a src dst else .inserting a src dst

/-- `add_fact` after a statement of its subject's node. -/
def afterSubject (a : FactArgs) : NodePc → Pc
  | .found none => .ended (.fact invalidMessage false)
  | .found (some src) =>
      match a.objText with
      | some obj => .object a src obj .byNorm
      | none => afterNodes a src none
  | pc => .subject a pc

/-- `add_fact` after a statement of its object's node. -/
def afterObject (a : FactArgs) (src : Nat) (obj : List Char) : NodePc → Pc
  | .found dst => afterNodes a src dst
  | pc => .object a src obj pc

/-- An import after a statement of the node. -/
def afterLink (env : Env) (name kind : List Char) (create : Bool) (other : List Char) :
    NodePc → Pc
  | .found none => .ended .linked
  | .found (some id) => if env.norm other = [] then .ended .linked else .aliasing id other
  | pc => .linking name kind create other pc

/-- One statement of an operation. -/
def query (env : Env) (t : Tables) (u : String) (pc : Pc) (id : Nat) (now : Time) :
    Option (Tables × Pc) :=
  match pc with
  | .counting a =>
      if a.subjectText = [] ∨ a.factText = [] then some (t, .ended (.fact missingMessage false))
      else if t.countLive u ≥ memMaxFacts then some (t, .ended (.fact fullMessage false))
      else some (t, .subject a .byNorm)
  | .subject a pc =>
      (nodeMove env t u a.subjectText a.kindText true pc id now).map fun x =>
        (x.1, afterSubject a x.2)
  | .object a src obj pc =>
      (nodeMove env t u obj "subject".toList true pc id now).map fun x =>
        (x.1, afterObject a src obj x.2)
  | .expiring a src dst => some (t.expire u src a.relationText dst now, .inserting a src dst)
  | .inserting a src dst =>
      if t.edges.all fun e => e.id != id then
        some (t.insertEdge (a.edge u src dst id now), .ended (.fact (storedMessage a.factText) true))
      else none
  | .forgetting edge =>
      some (t.deleteEdge u edge,
        .collecting (t.edges.any fun e => decide (e.username = u ∧ e.id = edge)))
  | .collecting found => some (t.collectNodes u, .ended (.forgotten found))
  | .purging => some (t, .purgingEdges (t.edges.countP fun e => decide (e.username = u)))
  | .purgingEdges n => some (t.deleteEdges u, .purgingAliases n)
  | .purgingAliases n => some (t.deleteAliases u, .purgingNodes n)
  | .purgingNodes n => some (t.deleteNodes u, .ended (.purged n))
  | .linking name kind create other pc =>
      (nodeMove env t u name kind create pc id now).map fun x =>
        (x.1, afterLink env name kind create other x.2)
  | .aliasing node other => some (t.insertAlias env ⟨node, u, env.norm other⟩, .ended .linked)
  | .ended _ => none

/-- The memory's service: any number of operations of any accounts. -/
def service (env : Env) : Machine Tables Request Call Move Unit where
  first := fun r => ⟨r.username, r.op.pc⟩
  move := fun t c m =>
    match m with
    | .query id now => (query env t c.username c.pc id now).map fun x => (x.1, { c with pc := x.2 })
    | .fail => some (t, { c with pc := .ended .failed })
  env := fun _ _ => none

/-! ## Sound graphs -/

/-- Every edge and every alias is on nodes of its account. -/
structure Sound (t : Tables) : Prop where
  src : ∀ e ∈ t.edges, t.has e.username e.src
  dst : ∀ e ∈ t.edges, ∀ d ∈ e.dst, t.has e.username d
  aliases : ∀ a ∈ t.aliases, t.has a.username a.nodeId

/-- What the next statement of an operation must find. -/
def Call.keepsLinks (env : Env) (t : Tables) (id : Nat) (c : Call) : Prop :=
  match c.pc with
  -- the nodes found earlier are still there
  | .inserting _ src dst =>
      (t.edges.all fun e => e.id != id) = true →
        t.has c.username src ∧ ∀ d ∈ dst, t.has c.username d
  | .aliasing node other =>
      t.aliases.any (env.clash ⟨node, c.username, env.norm other⟩) = false → t.has c.username node
  -- no alias is on a node without an edge
  | .collecting _ => ∀ a ∈ t.aliases, a.username = c.username → t.linked c.username a.nodeId = true
  -- nothing came in since the deletes before
  | .purgingNodes _ =>
      (∀ e ∈ t.edges, e.username ≠ c.username) ∧ ∀ a ∈ t.aliases, a.username ≠ c.username
  | _ => True

def keepsLinks (env : Env) (s : Conf Tables Call) : Act Request Move Unit → Prop
  | .move i (.query id _) => ∀ c ∈ s.calls[i]?, c.keepsLinks env s.shared id
  | _ => True

instance (env : Env) (t : Tables) (id : Nat) (c : Call) : Decidable (c.keepsLinks env t id) := by
  unfold Call.keepsLinks
  split <;> infer_instance

instance (env : Env) (s : Conf Tables Call) :
    (a : Act Request Move Unit) → Decidable (keepsLinks env s a)
  | .move i (.query id _) =>
      inferInstanceAs (Decidable (∀ c ∈ s.calls[i]?, c.keepsLinks env s.shared id))
  | .move _ .fail => isTrue trivial
  | .enter _ => isTrue trivial
  | .env _ => isTrue trivial

/-! ## What one statement does to a sound graph -/

variable {env : Env} {t t' : Tables} {u : String}

/-- More nodes, fewer aliases, and edges on the nodes they were on. -/
theorem Sound.shrink (h : Sound t) (hnodes : t.nodes ⊆ t'.nodes)
    (hedges : ∀ e' ∈ t'.edges, ∃ e ∈ t.edges,
      e'.username = e.username ∧ e'.src = e.src ∧ e'.dst = e.dst)
    (haliases : t'.aliases ⊆ t.aliases) : Sound t' where
  src := by
    intro e' he'
    obtain ⟨e, he, hu, hsrc, -⟩ := hedges e' he'
    rw [hu, hsrc]
    exact (h.src e he).mono hnodes
  dst := by
    intro e' he' d hd
    obtain ⟨e, he, hu, -, hdst⟩ := hedges e' he'
    rw [hu]
    exact (h.dst e he d (hdst ▸ hd)).mono hnodes
  aliases := by
    intro a ha
    exact (h.aliases a (haliases ha)).mono hnodes

theorem Sound.insertNode (h : Sound t) (n : Node) : Sound (t.insertNode n) :=
  h.shrink (List.subset_append_left _ _) (fun e he => ⟨e, he, rfl, rfl, rfl⟩) (List.Subset.refl _)

theorem Sound.expire (h : Sound t) (src : Nat) (relation : List Char) (dst : Option Nat)
    (now : Time) : Sound (t.expire u src relation dst now) := by
  refine h.shrink (List.Subset.refl _) ?_ (List.Subset.refl _)
  intro e' he'
  obtain ⟨e, he, rfl⟩ := List.mem_map.1 he'
  refine ⟨e, he, ?_⟩
  split <;> exact ⟨rfl, rfl, rfl⟩

theorem Sound.filterEdges (h : Sound t) (p : Edge → Bool) :
    Sound { t with edges := t.edges.filter p } :=
  h.shrink (List.Subset.refl _) (fun e he => ⟨e, List.mem_of_mem_filter he, rfl, rfl, rfl⟩)
    (List.Subset.refl _)

theorem Sound.filterAliases (h : Sound t) (p : Alias → Bool) :
    Sound { t with aliases := t.aliases.filter p } :=
  h.shrink (List.Subset.refl _) (fun e he => ⟨e, he, rfl, rfl, rfl⟩) List.filter_sublist.subset

theorem sound_insertEdge (h : Sound t) (e : Edge) :
    Sound (t.insertEdge e) ↔
      t.has e.username e.src ∧ ∀ d ∈ e.dst, t.has e.username d := by
  have he : e ∈ (t.insertEdge e).edges := List.mem_append_right _ (List.mem_singleton.2 rfl)
  constructor
  · intro h'
    exact ⟨h'.src e he, h'.dst e he⟩
  · rintro ⟨hsrc, hdst⟩
    refine ⟨?_, ?_, h.aliases⟩
    · intro e' he'
      rcases List.mem_append.1 he' with hold | hnew
      · exact h.src e' hold
      · rw [List.mem_singleton.1 hnew]
        exact hsrc
    · intro e' he'
      rcases List.mem_append.1 he' with hold | hnew
      · exact h.dst e' hold
      · rw [List.mem_singleton.1 hnew]
        exact hdst

theorem sound_insertAlias (h : Sound t) (a : Alias) :
    Sound (t.insertAlias env a) ↔
      (t.aliases.any (env.clash a) = false → t.has a.username a.nodeId) := by
  unfold Tables.insertAlias
  cases hc : t.aliases.any (env.clash a) with
  | true => simp [h]
  | false =>
    simp only [Bool.false_eq_true, if_false, forall_const]
    constructor
    · intro h'
      exact h'.aliases a (List.mem_append_right _ (List.mem_singleton.2 rfl))
    · intro ha
      refine ⟨h.src, h.dst, ?_⟩
      intro a' ha'
      rcases List.mem_append.1 ha' with hold | hnew
      · exact h.aliases a' hold
      · rw [List.mem_singleton.1 hnew]
        exact ha

/-- A node stays in the collection when it is another account's or has an edge. -/
theorem has_collectNodes {v : String} {id : Nat} :
    (t.collectNodes u).has v id ↔ t.has v id ∧ (v = u → t.linked u id = true) := by
  constructor
  · rintro ⟨n, hn, rfl, rfl⟩
    obtain ⟨hmem, hkept⟩ := List.mem_filter.1 hn
    refine ⟨⟨n, hmem, rfl, rfl⟩, ?_⟩
    intro hv
    simpa [hv] using hkept
  · rintro ⟨⟨n, hn, rfl, rfl⟩, hkept⟩
    refine ⟨n, List.mem_filter.2 ⟨hn, ?_⟩, rfl, rfl⟩
    by_cases hv : n.username = u
    · simp [hkept hv]
    · simp [hv]

theorem sound_collectNodes (h : Sound t) :
    Sound (t.collectNodes u) ↔
      ∀ a ∈ t.aliases, a.username = u → t.linked u a.nodeId = true := by
  constructor
  · intro h' a ha hu
    exact (has_collectNodes.1 (h'.aliases a ha)).2 hu
  · intro hlinked
    refine ⟨?_, ?_, ?_⟩
    · intro e he
      refine has_collectNodes.2 ⟨h.src e he, ?_⟩
      intro hu
      exact List.any_eq_true.2 ⟨e, he, by simp [hu]⟩
    · intro e he d hd
      refine has_collectNodes.2 ⟨h.dst e he d hd, ?_⟩
      intro hu
      exact List.any_eq_true.2 ⟨e, he, by simp [hu, Option.mem_def.1 hd]⟩
    · intro a ha
      exact has_collectNodes.2 ⟨h.aliases a ha, hlinked a ha⟩

theorem has_deleteNodes {v : String} {id : Nat} :
    (t.deleteNodes u).has v id ↔ t.has v id ∧ v ≠ u := by
  constructor
  · rintro ⟨n, hn, rfl, rfl⟩
    obtain ⟨hmem, hkept⟩ := List.mem_filter.1 hn
    exact ⟨⟨n, hmem, rfl, rfl⟩, by simpa using hkept⟩
  · rintro ⟨⟨n, hn, rfl, rfl⟩, hne⟩
    exact ⟨n, List.mem_filter.2 ⟨hn, by simpa using hne⟩, rfl, rfl⟩

theorem sound_deleteNodes (h : Sound t) :
    Sound (t.deleteNodes u) ↔
      (∀ e ∈ t.edges, e.username ≠ u) ∧ ∀ a ∈ t.aliases, a.username ≠ u := by
  constructor
  · intro h'
    exact ⟨fun e he => (has_deleteNodes.1 (h'.src e he)).2,
      fun a ha => (has_deleteNodes.1 (h'.aliases a ha)).2⟩
  · rintro ⟨hedges, haliases⟩
    refine ⟨?_, ?_, ?_⟩
    · intro e he
      exact has_deleteNodes.2 ⟨h.src e he, hedges e he⟩
    · intro e he d hd
      exact has_deleteNodes.2 ⟨h.dst e he d hd, hedges e he⟩
    · intro a ha
      exact has_deleteNodes.2 ⟨h.aliases a ha, haliases a ha⟩

theorem sound_nodeMove {name kind : List Char} {create : Bool} {pc pc' : NodePc} {id : Nat}
    {now : Time} (h : Sound t) (hm : nodeMove env t u name kind create pc id now = some (t', pc')) :
    Sound t' := by
  unfold nodeMove at hm
  split at hm
  case h_3 =>
    split at hm <;> cases hm
    exact h.insertNode _
  all_goals (try split at hm) <;> (try split at hm) <;> cases hm <;> exact h

/-- A statement keeps a sound graph sound exactly when it finds what `keepsLinks` says. -/
theorem sound_query {pc pc' : Pc} {id : Nat} {now : Time} (h : Sound t)
    (hq : query env t u pc id now = some (t', pc')) :
    Sound t' ↔ Call.keepsLinks env t id ⟨u, pc⟩ := by
  unfold query at hq
  split at hq
  case h_1 a =>
    (try split at hq) <;> (try split at hq) <;> cases hq <;> exact iff_of_true h trivial
  case h_2 =>
    obtain ⟨⟨t₁, pc₁⟩, hm, heq⟩ := Option.map_eq_some_iff.1 hq
    cases heq
    exact iff_of_true (sound_nodeMove h hm) trivial
  case h_3 =>
    obtain ⟨⟨t₁, pc₁⟩, hm, heq⟩ := Option.map_eq_some_iff.1 hq
    cases heq
    exact iff_of_true (sound_nodeMove h hm) trivial
  case h_4 =>
    cases hq
    exact iff_of_true (h.expire _ _ _ _) trivial
  case h_5 a src dst =>
    split at hq
    · next hid =>
        cases hq
        rw [sound_insertEdge h]
        simp only [Call.keepsLinks, hid, forall_const]
        rfl
    · cases hq
  case h_6 =>
    cases hq
    exact iff_of_true (h.filterEdges _) trivial
  case h_7 =>
    cases hq
    exact sound_collectNodes h
  case h_8 =>
    cases hq
    exact iff_of_true h trivial
  case h_9 =>
    cases hq
    exact iff_of_true (h.filterEdges _) trivial
  case h_10 =>
    cases hq
    exact iff_of_true (h.filterAliases _) trivial
  case h_11 =>
    cases hq
    exact sound_deleteNodes h
  case h_12 =>
    obtain ⟨⟨t₁, pc₁⟩, hm, heq⟩ := Option.map_eq_some_iff.1 hq
    cases heq
    exact iff_of_true (sound_nodeMove h hm) trivial
  case h_13 =>
    cases hq
    exact sound_insertAlias h _
  case h_14 => cases hq

theorem query_of_not_keepsLinks {pc : Pc} {id : Nat} (now : Time)
    (h : ¬ Call.keepsLinks env t id ⟨u, pc⟩) :
    ∃ t' pc', query env t u pc id now = some (t', pc') := by
  unfold Call.keepsLinks at h
  split at h
  case h_1 a src dst heq =>
    obtain rfl : pc = .inserting a src dst := heq
    push Not at h
    exact ⟨_, _, if_pos h.1⟩
  case h_2 node other heq =>
    obtain rfl : pc = .aliasing node other := heq
    exact ⟨_, _, rfl⟩
  case h_3 found heq =>
    obtain rfl : pc = .collecting found := heq
    exact ⟨_, _, rfl⟩
  case h_4 n heq =>
    obtain rfl : pc = .purgingNodes n := heq
    exact ⟨_, _, rfl⟩
  case h_5 => exact absurd trivial h

/-! ## Runs -/

theorem sound_step {s s' : Conf Tables Call} {a : Act Request Move Unit} (h : Sound s.shared)
    (hG : keepsLinks env s a) (hs : (service env).step s a = some s') : Sound s'.shared := by
  cases a with
  | enter r =>
    cases hs
    exact h
  | move i m =>
    obtain ⟨c, sh, c', hc, hm, rfl⟩ := Machine.step_move hs
    cases m with
    | fail =>
      cases hm
      exact h
    | query id now =>
      obtain ⟨⟨t₁, pc₁⟩, hq, heq⟩ := Option.map_eq_some_iff.1 hm
      cases heq
      exact (sound_query h hq).2 (hG c hc)
  | env e =>
    obtain ⟨sh, hsh, -⟩ := Machine.step_env hs
    cases hsh

theorem broken_step {s : Conf Tables Call} {a : Act Request Move Unit} (h : Sound s.shared)
    (hG : ¬ keepsLinks env s a) :
    ∃ s', (service env).step s a = some s' ∧ ¬ Sound s'.shared := by
  unfold keepsLinks at hG
  split at hG
  · next i id now =>
      push Not at hG
      obtain ⟨c, hc, hkeep⟩ := hG
      obtain ⟨t', pc', hq⟩ := query_of_not_keepsLinks now hkeep
      refine ⟨⟨t', s.calls.set i { c with pc := pc' }⟩, ?_, ?_⟩
      · simp only [Machine.step, Option.mem_def.1 hc, Option.bind_some, service, hq,
          Option.map_some]
      · exact fun h' => hkeep ((sound_query h hq).1 h')
  · exact absurd trivial hG

/-- From a sound graph, the graph is sound in every state of a run exactly when every
statement of the run finds what it must. -/
theorem sound_iff_keepsLinks (env : Env) {t : Tables} (h : Sound t)
    (acts : List (Act Request Move Unit)) :
    Always (service env).step (fun s => Sound s.shared) (Conf.init t) acts ↔
      Meets (service env).step (keepsLinks env) (Conf.init t) acts :=
  always_iff_meets (fun _ h => h) (fun _ _ _ h hG hs => sound_step h hG hs)
    (fun _ _ h hG => broken_step h hG) h

/-! ## Two runs that break the graph -/

/-- Names that are their own normalised form; equal rows clash. -/
def plainEnv : Env := ⟨id, fun a b => decide (a = b)⟩

/-- The fact "bob: aime le thé". -/
def teaFact : FactArgs :=
  { subject := some (.str "bob".toList), relation := none, fact := some (.str "aime le thé".toList)
    obj := none, source := "user".toList, kind := none }

/-- `n` statements of call `i`. -/
def queries (i n : Nat) : List (Act Request Move Unit) :=
  (List.range n).map fun k => .move i (.query (k + 1) 0)

def noMemory : Tables := ⟨[], [], []⟩

/-- A fact is added, then forgotten. -/
def addThenForget : List (Act Request Move Unit) :=
  [.enter ⟨"u", .addFact teaFact⟩] ++ queries 0 6 ++ [.enter ⟨"u", .forget 6⟩] ++ queries 1 2

theorem addThenForget_sound :
    Sound noMemory ∧
      Always (service plainEnv).step (fun s => Sound s.shared) (Conf.init noMemory)
        addThenForget ∧
      (exec (service plainEnv).step (Conf.init noMemory) addThenForget).isSome = true := by
  have h : Sound noMemory := ⟨nofun, nofun, nofun⟩
  exact ⟨h, (sound_iff_keepsLinks plainEnv h addThenForget).2 (by decide +kernel),
    by decide +kernel⟩

/-- A forget between the node of a fact and its edge. -/
def overtaken : List (Act Request Move Unit) :=
  [.enter ⟨"u", .addFact teaFact⟩, .enter ⟨"u", .forget 9⟩] ++ queries 0 5 ++ queries 1 2 ++
    [.move 0 (.query 1 0)]

/-- A subject with one fact and an alias. -/
def aliased : Tables :=
  { nodes := [⟨1, "u", "bob".toList, "bob".toList, .subject, 0⟩]
    edges := [teaFact.edge "u" 1 none 1 0]
    aliases := [⟨1, "u", "robert".toList⟩] }

/-- The fact is forgotten, and with it the subject; the alias stays. -/
def forgotten : List (Act Request Move Unit) := .enter ⟨"u", .forget 1⟩ :: queries 0 2

/-- The graph does not stay sound in general: an edge is left without its subject, and
an alias without its node. -/
theorem memory_graph_breaks :
    (Sound noMemory ∧
      ¬ Always (service plainEnv).step (fun s => Sound s.shared) (Conf.init noMemory) overtaken) ∧
    (Sound aliased ∧
      ¬ Always (service plainEnv).step (fun s => Sound s.shared) (Conf.init aliased)
        forgotten) := by
  refine ⟨⟨⟨nofun, nofun, nofun⟩, ?_⟩, ⟨?_, ?_, ?_⟩, ?_⟩
  · intro h
    have hend := h overtaken (List.prefix_refl _) _ rfl
    exact absurd (hend.src _ (List.mem_singleton.2 rfl)) (by decide +kernel)
  · intro e he
    obtain rfl := List.mem_singleton.1 he
    decide
  · intro e he d hd
    obtain rfl := List.mem_singleton.1 he
    cases hd
  · intro a ha
    obtain rfl := List.mem_singleton.1 ha
    decide
  · intro h
    have hend := h forgotten (List.prefix_refl _) _ rfl
    exact absurd (hend.aliases _ (List.mem_singleton.2 rfl)) (by decide +kernel)

end Portal.Memory
