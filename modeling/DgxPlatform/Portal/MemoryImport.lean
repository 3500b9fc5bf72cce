import DgxPlatform.Portal.MemoryFacts

/-! # The facts of an import

An export is a document the import takes (`validateImport_exportDoc`). The account that
takes it has links to its own nodes only (`OwnLinks`), so that in it a name and a node
are the same thing, and a fact about subjects that are there does to the rows what
`restoreFact` does to the facts by names (`views_importFacts`).
-/

namespace Portal.Memory

open Accounts (pyStrip)

/-! ## The document -/

variable {env : Env} {sup : Supply} {t : Tables} {u : String}

theorem exportedFacts_perm (t : Tables) (u : String) : (t.exportedFacts u).Perm (t.views u) :=
  (List.mergeSort_perm _ _).filterMap _

theorem exportedNodes_perm (t : Tables) (u : String) : (t.exportedNodes u).Perm (t.nodesOf u) :=
  List.mergeSort_perm _ _

theorem Wf.view_ok (h : Wf env t) : ∀ f ∈ t.views u, f.Ok := by
  intro f hf
  obtain ⟨e, he, hview⟩ := List.mem_filterMap.1 hf
  obtain ⟨s, -, rfl⟩ := Option.map_eq_some_iff.1 hview
  have hok := h.edge e (List.mem_of_mem_filter he)
  exact ⟨hok.fact_ne, hok.fact_short, hok.relation_short⟩

theorem Wf.exportedFact_ok (h : Wf env t) : ∀ f ∈ t.exportedFacts u, f.Ok := by
  intro f hf
  exact h.view_ok f ((exportedFacts_perm t u).mem_iff.1 hf)

theorem Wf.length_exportedFacts (h : Wf env t) : (t.exportedFacts u).length ≤ memMaxFacts := by
  rw [(exportedFacts_perm t u).length_eq]
  refine (List.length_filterMap_le _ _).trans (le_of_eq_of_le ?_ (h.few u))
  exact List.countP_eq_length_filter.symm

theorem mem_nodesOf {n : Node} : n ∈ t.nodesOf u ↔ n ∈ t.nodes ∧ n.username = u := by
  simp [Tables.nodesOf]

theorem mem_exportedNodes {n : Node} : n ∈ t.exportedNodes u ↔ n ∈ t.nodes ∧ n.username = u := by
  rw [(exportedNodes_perm t u).mem_iff, mem_nodesOf]

theorem checkAll_self {check : Json → Except String Json} {xs : List Json}
    (h : ∀ x ∈ xs, check x = .ok x) : checkAll check xs = .ok xs := by
  induction xs with
  | nil => rfl
  | cons x xs ih =>
    have hx := h x List.mem_cons_self
    have hxs := ih fun y hy => h y (List.mem_cons_of_mem _ hy)
    simp [checkAll, hx, hxs]

theorem checkNode_nodeJson {name : List Char} (hname : name.length ≤ memMaxNameLen) (kind : Kind)
    (others : List (List Char)) : checkNode (nodeJson name kind others) = .ok (nodeJson name kind others) := by
  have hlong : ¬ name.length > memMaxNameLen := by omega
  simp [checkNode, nodeJson, List.lookup_cons, hlong]

theorem checkEdge_json {f : FactView} (hf : f.Ok) : checkEdge f.json = .ok f.json := by
  have hlong : ¬ f.fact.length > memMaxFactLen := by
    have := hf.fact_short
    omega
  simp [checkEdge, FactView.json, List.lookup_cons, hlong]

theorem validateImport_exportDoc (h : Wf env t) (hnodes : (t.nodesOf u).length ≤ importMaxNodes)
    (exportedAt : List Char) :
    validateImport (exportDoc t u exportedAt) =
      .ok ((t.exportedNodes u).map fun n => nodeJson n.name n.kind (t.aliasesOf u n.id),
        (t.exportedFacts u).map FactView.json) := by
  have hn : ¬ (t.exportedNodes u).length > importMaxNodes := by
    rw [(exportedNodes_perm t u).length_eq]
    omega
  have hf : ¬ (t.exportedFacts u).length > memMaxFacts := by
    have := h.length_exportedFacts (u := u)
    omega
  have hchecked : checkAll checkNode
      ((t.exportedNodes u).map fun n => nodeJson n.name n.kind (t.aliasesOf u n.id)) =
        .ok ((t.exportedNodes u).map fun n => nodeJson n.name n.kind (t.aliasesOf u n.id)) := by
    refine checkAll_self ?_
    intro x hx
    obtain ⟨n, hn, rfl⟩ := List.mem_map.1 hx
    exact checkNode_nodeJson (h.node n (mem_exportedNodes.1 hn).1).short _ _
  have hchecked' : checkAll checkEdge ((t.exportedFacts u).map FactView.json) =
      .ok ((t.exportedFacts u).map FactView.json) := by
    refine checkAll_self ?_
    intro x hx
    obtain ⟨f, hf, rfl⟩ := List.mem_map.1 hx
    exact checkEdge_json (h.exportedFact_ok f hf)
  simp [validateImport, exportDoc, List.lookup_cons, hn, hf, hchecked, hchecked']

/-- A node of the document, read. -/
def Tables.nodeEntry (t : Tables) (u : String) (n : Node) : NodeEntry :=
  ⟨n.name, n.kind.text, t.aliasesOf u n.id⟩

theorem readNode_nodeJson (n : Node) :
    readNode (nodeJson n.name n.kind (t.aliasesOf u n.id)) = t.nodeEntry u n := by
  have hstr : ∀ xs : List (List Char), (xs.map Json.str).filterMap Json.str? = xs := by
    intro xs
    simp [List.filterMap_map, Function.comp_def]
  simp [readNode, nodeJson, Json.field, List.lookup_cons, Tables.nodeEntry, hstr]

/-- A fact of the document, read. -/
def FactView.entry (f : FactView) : FactEntry where
  subject := pyStrip f.subject
  fact := (pyStrip f.fact).take memMaxFactLen
  relation := .str f.read.relation
  obj := some ((f.object.map Json.str).getD .null)
  source := f.source.text

theorem readFact_json (f : FactView) : readFact f.json = f.entry := by
  obtain ⟨subject, relation, object, fact, source⟩ := f
  have hsource : (if source.text = "user".toList then "user".toList else "model".toList) =
      source.text := by
    cases source <;> decide
  cases relation with
  | nil => exact FactEntry.mk.injEq .. ▸ ⟨rfl, rfl, rfl, rfl, hsource⟩
  | cons c r => exact FactEntry.mk.injEq .. ▸ ⟨rfl, rfl, rfl, rfl, hsource⟩

/-! ## The account that takes the document -/

/-- Every edge and alias of the account is on its own nodes. -/
structure OwnLinks (t : Tables) (v : String) : Prop where
  src : ∀ e ∈ t.edges, e.username = v → t.has v e.src
  dst : ∀ e ∈ t.edges, e.username = v → ∀ d ∈ e.dst, t.has v d
  aliases : ∀ a ∈ t.aliases, a.username = v → t.has v a.nodeId

variable {s : Tables} {v : String}

theorem Vacant.ownLinks (h : Vacant t v) : OwnLinks t v where
  src e he hv := absurd hv (h.edges e he)
  dst e he hv := absurd hv (h.edges e he)
  aliases a ha hv := absurd hv (h.aliases a ha)

theorem OwnLinks.insertNode (h : OwnLinks s v) (n : Node) : OwnLinks (s.insertNode n) v where
  src e he hv := (h.src e he hv).mono (List.subset_append_left _ _)
  dst e he hv d hd := (h.dst e he hv d hd).mono (List.subset_append_left _ _)
  aliases a ha hv := (h.aliases a ha hv).mono (List.subset_append_left _ _)

theorem nodeByNorm_has {norm : List Char} {id : Nat} (h : s.nodeByNorm v norm = some id) : s.has v id := by
  obtain ⟨n, hn, rfl⟩ := Option.map_eq_some_iff.1 h
  have hp := List.find?_some hn
  exact ⟨n, List.mem_of_find?_eq_some hn, rfl, (of_decide_eq_true hp).1⟩

theorem OwnLinks.nodeByAlias_has (h : OwnLinks s v) {norm : List Char} {id : Nat}
    (ha : s.nodeByAlias v norm = some id) : s.has v id := by
  obtain ⟨n, hn, rfl⟩ := Option.map_eq_some_iff.1 ha
  have hany := List.find?_some hn
  obtain ⟨a, hmem, hp⟩ := List.any_eq_true.1 hany
  obtain ⟨hid, hv, -⟩ := of_decide_eq_true hp
  rw [← hid]
  exact h.aliases a hmem hv

theorem OwnLinks.node (env : Env) (sup : Supply) (h : OwnLinks s v) (name kind : List Char) :
    OwnLinks (node env sup s v name kind true).1 v ∧
      ∀ id ∈ (Memory.node env sup s v name kind true).2,
        (Memory.node env sup s v name kind true).1.has v id := by
  rcases node_cases env sup s v name kind with ⟨-, hr⟩ | ⟨-, id, hid, hr⟩ | ⟨-, -, -, hr⟩
  · rw [hr]
    exact ⟨h, fun id hid => by cases hid⟩
  · rw [hr]
    refine ⟨h, ?_⟩
    rintro id' hid'
    obtain rfl := Option.some.inj hid'
    rcases hid with hn | ⟨-, ha⟩
    · exact nodeByNorm_has hn
    · exact h.nodeByAlias_has ha
  · rw [hr]
    refine ⟨h.insertNode _, ?_⟩
    rintro id' hid'
    obtain rfl := Option.some.inj hid'
    exact ⟨_, List.mem_append_right _ (List.mem_singleton.2 rfl), rfl, rfl⟩

theorem OwnLinks.addAlias (env : Env) (h : OwnLinks s v) {id : Nat} (hid : s.has v id) (other : List Char) :
    OwnLinks (addAlias env s v id other) v ∧ (Memory.addAlias env s v id other).nodes = s.nodes := by
  unfold Memory.addAlias Tables.insertAlias
  split
  · exact ⟨h, rfl⟩
  split
  · exact ⟨h, rfl⟩
  · refine ⟨⟨h.src, h.dst, ?_⟩, rfl⟩
    intro a ha hv
    rcases List.mem_append.1 ha with hold | hnew
    · exact h.aliases a hold hv
    · rw [List.mem_singleton.1 hnew]
      exact hid

theorem OwnLinks.addAliases (h : OwnLinks s v) {id : Nat} (hid : s.has v id)
    (others : List (List Char)) : OwnLinks (addAliases env s v id others) v := by
  unfold Memory.addAliases
  induction others generalizing s with
  | nil => exact h
  | cons other others ih =>
    obtain ⟨h', hnodes⟩ := h.addAlias env hid other
    exact ih h' (hid.mono (fun n hn => hnodes ▸ hn))

theorem OwnLinks.importNode {x : Tables × Nat} (h : OwnLinks x.1 v) (n : NodeEntry) :
    OwnLinks (importNode env sup v x n).1 v := by
  obtain ⟨hnode, hid⟩ := h.node env sup n.name n.kind
  rcases importNode_cases env sup v x n with hr | ⟨id, hsome, hr⟩
  · rw [hr]
    exact hnode
  · rw [hr]
    exact hnode.addAliases (hid id hsome) n.aliases

theorem OwnLinks.expire (h : OwnLinks s v) (src : Nat) (relation : List Char) (dst : Option Nat)
    (now : Time) : OwnLinks (s.expire u src relation dst now) v := by
  have hedge : ∀ e' ∈ (s.expire u src relation dst now).edges, ∃ e ∈ s.edges,
      e'.username = e.username ∧ e'.src = e.src ∧ e'.dst = e.dst := by
    intro e' he'
    obtain ⟨e, he, rfl⟩ := List.mem_map.1 he'
    refine ⟨e, he, ?_⟩
    split <;> exact ⟨rfl, rfl, rfl⟩
  refine ⟨?_, ?_, h.aliases⟩
  · intro e' he' hv
    obtain ⟨e, he, hu, hsrc, -⟩ := hedge e' he'
    rw [hsrc]
    exact h.src e he (hu ▸ hv)
  · intro e' he' hv d hd
    obtain ⟨e, he, hu, -, hdst⟩ := hedge e' he'
    exact h.dst e he (hu ▸ hv) d (hdst ▸ hd)

theorem OwnLinks.insertEdge (h : OwnLinks s v) {e : Edge} (hsrc : s.has v e.src)
    (hdst : ∀ d ∈ e.dst, s.has v d) : OwnLinks (s.insertEdge e) v := by
  refine ⟨?_, ?_, h.aliases⟩
  · intro e' he' hv
    rcases List.mem_append.1 he' with hold | hnew
    · exact h.src e' hold hv
    · rw [List.mem_singleton.1 hnew]
      exact hsrc
  · intro e' he' hv
    rcases List.mem_append.1 he' with hold | hnew
    · exact h.dst e' hold hv
    · rw [List.mem_singleton.1 hnew]
      exact hdst

theorem node_nodes_subset (name kind : List Char) : s.nodes ⊆ (node env sup s v name kind true).1.nodes :=
  node_kept (Q := fun s' => s.nodes ⊆ s'.nodes) (List.Subset.refl _)
    fun _ _ _ => List.subset_append_left _ _

theorem OwnLinks.objectNode (env : Env) (sup : Supply) (h : OwnLinks s v) {src : Nat}
    (hsrc : s.has v src) (obj : Option (List Char)) :
    OwnLinks (objectNode env sup s v obj).1 v ∧
      (∀ d ∈ (Memory.objectNode env sup s v obj).2, (Memory.objectNode env sup s v obj).1.has v d) ∧
      (Memory.objectNode env sup s v obj).1.has v src := by
  cases obj with
  | none =>
    refine ⟨h, ?_, hsrc⟩
    intro d hd
    cases hd
  | some o =>
    obtain ⟨hnode, hid⟩ := h.node env sup o "subject".toList
    exact ⟨hnode, hid, hsrc.mono (node_nodes_subset _ _)⟩

theorem OwnLinks.addFact (h : OwnLinks s v) (a : FactArgs) : OwnLinks (addFact env sup s v a).1 v := by
  obtain ⟨hnode, hid⟩ := h.node env sup a.subjectText a.kindText
  rcases addFact_cases env sup s v a with hr | hr | ⟨src, -, -, hsrc, hr⟩
  · rw [hr]
    exact h
  · rw [hr]
    exact hnode
  · rw [hr]
    obtain ⟨hown, hdst, hsrc'⟩ := hnode.objectNode env sup (hid src hsrc) a.objText
    unfold writeFact
    split
    · exact (hown.expire _ _ _ _).insertEdge hsrc' hdst
    · exact hown.insertEdge hsrc' hdst

theorem OwnLinks.importFact {x : Tables × Nat} (h : OwnLinks x.1 v) (f : FactEntry) :
    OwnLinks (importFact env sup v x f).1 v := by
  rcases importFact_cases env sup v x f with hr | hr
  · rw [hr]
    exact h
  · rw [hr]
    exact h.addFact f.args

/-! ## The facts of the document -/

theorem Wf.nodeById (h : Wf env s) {n : Node} (hn : n ∈ s.nodes) : s.nodeById n.id = some n := by
  have hsome : (s.nodeById n.id).isSome := List.find?_isSome.2 ⟨n, hn, by simp⟩
  obtain ⟨m, hm⟩ := Option.isSome_iff_exists.1 hsome
  have hid := List.find?_some hm
  rw [hm, h.eq_of_id (List.mem_of_find?_eq_some hm) hn (of_decide_eq_true hid)]

theorem Wf.nodeByNorm (h : Wf env s) {n : Node} (hn : n ∈ s.nodesOf v) :
    s.nodeByNorm v n.nameNorm = some n.id := by
  obtain ⟨hmem, rfl⟩ := mem_nodesOf.1 hn
  have hsome : (s.nodes.find? fun m =>
      decide (m.username = n.username ∧ m.nameNorm = n.nameNorm)).isSome :=
    List.find?_isSome.2 ⟨n, hmem, by simp⟩
  obtain ⟨m, hm⟩ := Option.isSome_iff_exists.1 hsome
  have hp := List.find?_some hm
  obtain ⟨hu, hnorm⟩ := of_decide_eq_true hp
  rw [Tables.nodeByNorm, hm, h.eq_of_norm (List.mem_of_find?_eq_some hm) hmem hu hnorm]
  rfl

theorem Wf.node_named (h : Wf env s) {n : Node} (hn : n ∈ s.nodesOf v) (kind : List Char) :
    Memory.node env sup s v n.name kind true = (s, some n.id) := by
  have hok := h.node n (mem_nodesOf.1 hn).1
  have hne : env.norm n.name ≠ [] := hok.norm ▸ hok.norm_ne
  have hfound : s.nodeByNorm v (env.norm n.name) = some n.id := hok.norm ▸ h.nodeByNorm hn
  simp [Memory.node, hne, hfound]

/-- The node of an object's name, if there is one. -/
def Tables.ObjectAt (s : Tables) (v : String) (object : Option (List Char)) (dst : Option Nat) : Prop :=
  (object = none ∧ dst = none) ∨ ∃ m ∈ s.nodesOf v, object = some m.name ∧ dst = some m.id

theorem OwnLinks.factView (h : Wf env s) (own : OwnLinks s v) {e : Edge} (he : e ∈ s.edges)
    (hv : e.username = v) :
    ∃ n ∈ s.nodesOf v, ∃ object, n.id = e.src ∧ s.ObjectAt v object e.dst ∧
      s.factView e = some ⟨n.name, e.relation, object, e.fact, e.source⟩ := by
  obtain ⟨n, hn, hsrc, hnv⟩ := own.src e he hv
  refine ⟨n, mem_nodesOf.2 ⟨hn, hnv⟩, (e.dst.bind s.nodeById).map Node.name, hsrc, ?_, ?_⟩
  · cases hdst : e.dst with
    | none => exact .inl ⟨rfl, rfl⟩
    | some d =>
      obtain ⟨m, hm, rfl, hmv⟩ := own.dst e he hv d hdst
      refine .inr ⟨m, mem_nodesOf.2 ⟨hm, hmv⟩, ?_, rfl⟩
      simp [h.nodeById hm]
  · simp [Tables.factView, ← hsrc, h.nodeById hn]

theorem Wf.name_inj (h : Wf env s) {m n : Node} (hm : m ∈ s.nodesOf v) (hn : n ∈ s.nodesOf v) :
    m.name = n.name ↔ m.id = n.id := by
  obtain ⟨hm, hmv⟩ := mem_nodesOf.1 hm
  obtain ⟨hn, hnv⟩ := mem_nodesOf.1 hn
  constructor
  · intro hname
    rw [h.eq_of_name hm hn (hmv.trans hnv.symm) hname]
  · intro hid
    rw [h.eq_of_id hm hn hid]

theorem Wf.object_inj (h : Wf env s) {o o' : Option (List Char)} {d d' : Option Nat}
    (ho : s.ObjectAt v o d) (ho' : s.ObjectAt v o' d') : o = o' ↔ d = d' := by
  rcases ho with ⟨rfl, rfl⟩ | ⟨m, hm, rfl, rfl⟩
  · rcases ho' with ⟨rfl, rfl⟩ | ⟨m', hm', rfl, rfl⟩
    · simp
    · simp
  · rcases ho' with ⟨rfl, rfl⟩ | ⟨m', hm', rfl, rfl⟩
    · simp
    · simpa using h.name_inj hm hm'

/-- What the import reads of a fact about the account's own subjects. -/
structure Named (s : Tables) (v : String) (f : FactView) (n : Node) (dst : Option Nat) : Prop where
  node : n ∈ s.nodesOf v
  subject : f.subject = n.name
  object : s.ObjectAt v f.object dst

theorem Node.Ok.name_ne (law : env.Law) {n : Node} (h : n.Ok env) : n.name ≠ [] := by
  intro hnil
  apply h.norm_ne
  rw [h.norm, hnil, law.norm_nil]

theorem Node.Ok.take_name {n : Node} (h : n.Ok env) : (pyStrip n.name).take memMaxNameLen = n.name := by
  rw [h.strip, List.take_of_length_le h.short]

variable {dst : Option Nat}

theorem Named.congr {s' : Tables} {f : FactView} {n : Node} (h : Named s v f n dst)
    (hnodes : s'.nodes = s.nodes) : Named s' v f n dst := by
  have hof : s'.nodesOf v = s.nodesOf v := by rw [Tables.nodesOf, hnodes, Tables.nodesOf]
  refine ⟨hof ▸ h.node, h.subject, ?_⟩
  rcases h.object with hnone | ⟨m, hm, hsome⟩
  · exact .inl hnone
  · exact .inr ⟨m, hof ▸ hm, hsome⟩

/-- The texts of `add_fact` for a fact of the document. -/
structure Reads (f : FactView) (n : Node) : Prop where
  entrySubject : f.entry.subject = n.name
  subject : f.entry.args.subjectText = n.name
  fact : f.entry.args.factText = f.cleaned.fact
  object : f.entry.args.objText = f.object

theorem Named.reads (law : env.Law) (h : Wf env s) {f : FactView} {n : Node}
    (hf : f.Ok) (hn : Named s v f n dst) : Reads f n := by
  have hok := h.node n (mem_nodesOf.1 hn.node).1
  have hsubject : f.entry.subject = n.name := by
    simp only [FactView.entry, hn.subject, hok.strip]
  refine ⟨hsubject, ?_, ?_, ?_⟩
  · have htext : f.entry.args.subjectText = (pyStrip f.entry.subject).take memMaxNameLen := rfl
    rw [htext, hsubject, hok.take_name]
  · have htext : f.entry.args.factText = (pyStrip f.cleaned.fact).take memMaxFactLen := rfl
    rw [htext, hf.cleaned, pyStrip_idem,
      List.take_of_length_le ((length_pyStrip_le f.fact).trans hf.fact_short)]
  · rcases hn.object with ⟨hnone, -⟩ | ⟨m, hm, hsome, -⟩
    · simp [FactArgs.objText, FactEntry.args, FactView.entry, hnone, strField, Json.str?]
    · have hmok := h.node m (mem_nodesOf.1 hm).1
      have hkeep : pyStrip m.name ≠ [] := by
        rw [hmok.strip]
        exact hmok.name_ne law
      simp [FactArgs.objText, FactEntry.args, FactView.entry, hsome, strField, Json.str?,
        hmok.take_name, Option.filter, hkeep]

theorem factExists_iff (h : Wf env s) (own : OwnLinks s v) {n : Node} (hn : n ∈ s.nodesOf v)
    (text : List Char) :
    factExists env s v n.name text = true ↔ ∃ g ∈ s.views v, n.name = g.subject ∧ text = g.fact := by
  have hnorm := (h.node n (mem_nodesOf.1 hn).1).norm
  -- a live edge is the one exactly when its fact by names is
  have hedge : ∀ e ∈ s.edges, ∀ g, e.username = v → s.factView e = some g →
      (((s.nodeById e.src).any fun m => decide (m.nameNorm = env.norm n.name)) = true ↔
        n.name = g.subject) := by
    intro e he g hv hg
    obtain ⟨m, hm, object, hsrc, -, hview⟩ := own.factView h he hv
    obtain rfl := Option.some.inj (hview.symm.trans hg)
    have hmem := (mem_nodesOf.1 hm).1
    rw [← hsrc, h.nodeById hmem, ← hnorm]
    simp only [Option.any_some, decide_eq_true_eq]
    constructor
    · intro hsame
      have hu := (mem_nodesOf.1 hm).2.trans (mem_nodesOf.1 hn).2.symm
      rw [h.eq_of_norm hmem (mem_nodesOf.1 hn).1 hu hsame]
    · intro hname
      rw [(h.node m hmem).norm, hnorm, hname]
  simp only [factExists, List.any_eq_true, Bool.and_eq_true, decide_eq_true_eq]
  constructor
  · rintro ⟨e, he, ⟨hlive, hfact⟩, hsub⟩
    have hv := (of_decide_eq_true hlive).1
    obtain ⟨m, hm, object, -, -, hview⟩ := own.factView h he hv
    refine ⟨_, List.mem_filterMap.2 ⟨e, List.mem_filter.2 ⟨he, hlive⟩, hview⟩, ?_, hfact.symm⟩
    exact (hedge e he _ hv hview).1 hsub
  · rintro ⟨g, hg, hsub, hfact⟩
    obtain ⟨e, he, hview⟩ := List.mem_filterMap.1 hg
    obtain ⟨hmem, hlive⟩ := List.mem_filter.1 he
    have hv := (of_decide_eq_true hlive).1
    refine ⟨e, hmem, ⟨hlive, ?_⟩, (hedge e hmem g hv hview).2 hsub⟩
    obtain ⟨m, hm, object, -, -, hview'⟩ := own.factView h hmem hv
    obtain rfl := Option.some.inj (hview'.symm.trans hview)
    exact hfact.symm

theorem equivalent_iff (h : Wf env s) {n m : Node} (hn : n ∈ s.nodesOf v) (hm : m ∈ s.nodesOf v)
    {o o' : Option (List Char)} (ho : s.ObjectAt v o dst) {e : Edge}
    (hsrc : m.id = e.src) (ho' : s.ObjectAt v o' e.dst) (hlive : e.live v = true)
    (relation : List Char) :
    Tables.equivalent v n.id relation dst e = true ↔
      n.name = m.name ∧ relation = e.relation ∧ o = o' := by
  obtain ⟨hv, huntil⟩ := of_decide_eq_true hlive
  rw [h.name_inj hn hm, h.object_inj ho ho']
  simp only [Tables.equivalent, decide_eq_true_eq, hv, huntil, ← hsrc, true_and]
  constructor
  · rintro ⟨hid, hrel, hdst⟩
    exact ⟨hid.symm, hrel.symm, hdst.symm⟩
  · rintro ⟨hid, hrel, hdst⟩
    exact ⟨hid.symm, hrel.symm, hdst.symm⟩

/-- An equivalent edge is not live any more, the others are as they were. -/
theorem views_expire {src : Nat} {relation : List Char} {keep : FactView → Bool}
    (hkeep : ∀ e ∈ s.edges, e.live v = true →
      ∃ g, s.factView e = some g ∧ keep g = !Tables.equivalent v src relation dst e) (now : Time) :
    (s.expire v src relation dst now).views v = (s.views v).filter keep := by
  have hedges : ∀ l : List Edge, l ⊆ s.edges →
      ((l.map fun e => if Tables.equivalent v src relation dst e then
          { e with validUntil := some now } else e).filter (Edge.live v)).filterMap s.factView =
        ((l.filter (Edge.live v)).filterMap s.factView).filter keep := by
    intro l
    induction l with
    | nil => exact fun _ => rfl
    | cons e l ih =>
      intro hl
      have hrest := ih fun x hx => hl (List.mem_cons_of_mem _ hx)
      by_cases hlive : e.live v = true
      · obtain ⟨g, hview, hg⟩ := hkeep e (hl List.mem_cons_self) hlive
        cases he : Tables.equivalent v src relation dst e with
        | true =>
          have hdead : Edge.live v { e with validUntil := some now } = false := by
            simp [Edge.live]
          have hdrop : keep g = false := by simp [hg, he]
          simp only [List.map_cons, he, if_true, List.filter_cons, hdead, hlive, Bool.false_eq_true,
            if_false, List.filterMap_cons, hview, hdrop]
          exact hrest
        | false =>
          have hstay : keep g = true := by simp [hg, he]
          simp only [List.map_cons, he, Bool.false_eq_true, if_false, List.filter_cons, hlive, if_true,
            List.filterMap_cons, hview, hstay]
          exact congrArg _ hrest
      · have he : Tables.equivalent v src relation dst e = false := by
          refine decide_eq_false ?_
          rintro ⟨hv, -, -, huntil, -⟩
          exact hlive (decide_eq_true ⟨hv, huntil⟩)
        simp only [List.map_cons, he, Bool.false_eq_true, if_false, List.filter_cons, hlive]
        exact hrest
  exact hedges s.edges (List.Subset.refl _)

theorem views_insertEdge (e : Edge) (hlive : e.live v = true) {f : FactView}
    (hf : s.factView e = some f) : (s.insertEdge e).views v = s.views v ++ [f] := by
  calc (s.insertEdge e).views v
      = ((s.edges ++ [e]).filter (Edge.live v)).filterMap s.factView := rfl
    _ = s.views v ++ [f] := by simp [Tables.views, List.filter_append, hlive, hf]

theorem Named.view (h : Wf env s) {f : FactView} {n : Node}
    (hn : Named s v f n dst) (hreads : Reads f n) (id : Nat) (now : Time) :
    s.factView (f.entry.args.edge v n.id dst id now) = some f.cleaned := by
  have hobj : (dst.bind s.nodeById).map Node.name = f.object := by
    rcases hn.object with ⟨hnone, rfl⟩ | ⟨m, hm, hsome, rfl⟩
    · rw [hnone]
      rfl
    · simp [hsome, h.nodeById (mem_nodesOf.1 hm).1]
  have hrel : f.entry.args.relationText = f.cleaned.relation := rfl
  have hsource : f.entry.args.source = f.source.text := rfl
  simp [Tables.factView, FactArgs.edge, h.nodeById (mem_nodesOf.1 hn.node).1, hobj, hreads.fact, hrel,
    hsource, FactView.cleaned, hn.subject]

theorem views_writeFact (h : Wf env s) (own : OwnLinks s v) {f : FactView} {n : Node}
    (hn : Named s v f n dst) (hreads : Reads f n) :
    (writeFact sup s v f.entry.args n.id dst).views v =
      ((s.views v).filter fun g => ¬ f.cleaned.sameLink g) ++ [f.cleaned] := by
  have hlive : ∀ id now, Edge.live v (f.entry.args.edge v n.id dst id now) = true := by
    intro id now
    simp [Edge.live, FactArgs.edge]
  have hexp : f.entry.args.explicit = true ↔
      f.cleaned.relation ≠ [] ∧ f.cleaned.relation ≠ memGenericRelation := decide_eq_true_iff
  unfold writeFact
  by_cases he : f.entry.args.explicit = true
  · have hkeep : ∀ e ∈ s.edges, e.live v = true → ∃ g, s.factView e = some g ∧
        (decide (¬ f.cleaned.sameLink g)) =
          !Tables.equivalent v n.id f.entry.args.relationText dst e := by
      intro e hmem hl
      obtain ⟨m, hm, o, hsrc, ho, hview⟩ := own.factView h hmem (of_decide_eq_true hl).1
      have hequiv := equivalent_iff h hn.node hm hn.object hsrc ho hl f.cleaned.relation
      refine ⟨_, hview, ?_⟩
      have hlink : f.cleaned.sameLink ⟨m.name, e.relation, o, e.fact, e.source⟩ ↔
          Tables.equivalent v n.id f.entry.args.relationText dst e = true := by
        rw [show f.entry.args.relationText = f.cleaned.relation from rfl, hequiv, ← hn.subject]
        constructor
        · rintro ⟨hs, hr, ho, -⟩
          exact ⟨hs, hr, ho⟩
        · rintro ⟨hs, hr, ho⟩
          exact ⟨hs, hr, ho, hexp.1 he⟩
      rw [Bool.eq_iff_iff]
      simp [hlink]
    simp only [he, if_true]
    have hview : ∀ id, (s.expire v n.id f.entry.args.relationText dst sup.now).factView
        (f.entry.args.edge v n.id dst id sup.now) = some f.cleaned :=
      fun id => Named.view h hn hreads id sup.now
    rw [views_insertEdge _ (hlive _ _) (hview _), views_expire hkeep]
  · have hall : ((s.views v).filter fun g => decide (¬ f.cleaned.sameLink g)) = s.views v := by
      refine List.filter_eq_self.2 ?_
      intro g _
      refine decide_eq_true ?_
      rintro ⟨-, -, -, hne⟩
      exact he (hexp.2 hne)
    simp only [he, Bool.false_eq_true, if_false]
    rw [views_insertEdge _ (hlive _ _) (Named.view h hn hreads _ _), hall]

theorem Named.objectNode (h : Wf env s) {f : FactView} {n : Node}
    (hn : Named s v f n dst) : objectNode env sup s v f.object = (s, dst) := by
  rcases hn.object with ⟨hnone, rfl⟩ | ⟨m, hm, hsome, rfl⟩
  · rw [hnone]
    rfl
  · rw [hsome]
    exact h.node_named hm _

theorem Named.addFact (law : env.Law) (h : Wf env s) {f : FactView} {n : Node}
    (hn : Named s v f n dst) (hreads : Reads f n) (hfact : f.cleaned.fact ≠ [])
    (hroom : s.countLive v < memMaxFacts) :
    (addFact env sup s v f.entry.args).1 = writeFact sup s v f.entry.args n.id dst := by
  have hname : n.name ≠ [] := (h.node n (mem_nodesOf.1 hn.node).1).name_ne law
  have htexts : ¬ (f.entry.args.subjectText = [] ∨ f.entry.args.factText = []) := by
    rw [hreads.subject, hreads.fact]
    rintro (hnil | hnil)
    · exact hname hnil
    · exact hfact hnil
  have hfull : ¬ s.countLive v ≥ memMaxFacts := by omega
  unfold Memory.addFact
  rw [if_neg htexts, if_neg hfull, hreads.subject, h.node_named hn.node, hreads.object]
  simp only [hn.objectNode h]

theorem writeFact_nodes (sup : Supply) (s : Tables) (v : String) (a : FactArgs) (src : Nat) (dst : Option Nat) :
    (writeFact sup s v a src dst).nodes = s.nodes ∧ (writeFact sup s v a src dst).aliases = s.aliases := by
  unfold writeFact
  split
  · exact ⟨rfl, rfl⟩
  · exact ⟨rfl, rfl⟩

theorem views_importFact (sup : Supply) (law : env.Law) (h : Wf env s) (own : OwnLinks s v) {f : FactView}
    (hf : f.Ok) {n : Node} (hn : Named s v f n dst)
    (hroom : s.countLive v < memMaxFacts) (k : Nat) :
    ((importFact env sup v (s, k) f.entry).1.nodes = s.nodes ∧
      (importFact env sup v (s, k) f.entry).1.aliases = s.aliases) ∧
    (importFact env sup v (s, k) f.entry).1.views v = restoreFact (s.views v) f := by
  have hreads := hn.reads law h hf
  have hname : n.name ≠ [] := (h.node n (mem_nodesOf.1 hn.node).1).name_ne law
  have hskip : factExists env s v f.entry.subject f.entry.fact = true ↔
      ∃ g ∈ s.views v, f.cleaned.sameText g := by
    rw [hreads.entrySubject, factExists_iff h own hn.node, ← hn.subject]
    rfl
  have hempty : f.entry.subject = [] ∨ f.entry.fact = [] ↔ f.cleaned.fact = [] := by
    rw [hreads.entrySubject]
    simp only [hname, false_or]
    rfl
  unfold Memory.importFact restoreFact
  by_cases hnil : f.cleaned.fact = []
  · rw [if_pos (hempty.2 hnil), if_pos (.inl hnil)]
    exact ⟨⟨rfl, rfl⟩, rfl⟩
  rw [if_neg (hempty.not.2 hnil)]
  by_cases hdup : ∃ g ∈ s.views v, f.cleaned.sameText g
  · rw [if_pos (hskip.2 hdup), if_pos (.inr hdup)]
    exact ⟨⟨rfl, rfl⟩, rfl⟩
  · have hboth : ¬ (f.cleaned.fact = [] ∨ ∃ g ∈ s.views v, f.cleaned.sameText g) := by
      rintro (hl | hr)
      · exact hnil hl
      · exact hdup hr
    rw [if_neg (hskip.not.2 hdup), if_neg hboth]
    dsimp only
    rw [hn.addFact law h hreads hnil hroom]
    exact ⟨writeFact_nodes _ _ _ _ _ _, views_writeFact h own hn hreads⟩

theorem OwnLinks.length_views (h : Wf env s) (own : OwnLinks s v) : (s.views v).length = s.countLive v := by
  have hall : ∀ e ∈ s.edges.filter (Edge.live v), (s.factView e).isSome = true := by
    intro e he
    obtain ⟨hmem, hl⟩ := List.mem_filter.1 he
    obtain ⟨n, -, o, -, -, hview⟩ := own.factView h hmem (of_decide_eq_true hl).1
    rw [hview]
    rfl
  rw [Tables.views, List.length_filterMap_eq_countP, List.countP_eq_length.2 hall, Tables.countLive,
    List.countP_eq_length_filter]
  rfl

theorem length_restoreFact_le (fs : List FactView) (f : FactView) :
    (restoreFact fs f).length ≤ fs.length + 1 := by
  unfold restoreFact
  split
  · omega
  · have := List.length_filter_le (fun g => decide (¬ f.cleaned.sameLink g)) fs
    simp only [List.length_append, List.length_singleton]
    omega

/-- The facts of the document, all about the account's own subjects. -/
theorem views_importFacts (sup : Supply) (law : env.Law) (h : Wf env s) (own : OwnLinks s v) {L : List FactView}
    (hok : ∀ f ∈ L, f.Ok) (hnamed : ∀ f ∈ L, ∃ n dst, Named s v f n dst)
    (hroom : (s.views v).length + L.length ≤ memMaxFacts) (k : Nat) :
    (((L.map FactView.entry).foldl (importFact env sup v) (s, k)).1.nodes = s.nodes ∧
      ((L.map FactView.entry).foldl (importFact env sup v) (s, k)).1.aliases = s.aliases) ∧
    ((L.map FactView.entry).foldl (importFact env sup v) (s, k)).1.views v =
      L.foldl restoreFact (s.views v) := by
  induction L generalizing s k with
  | nil => exact ⟨⟨rfl, rfl⟩, rfl⟩
  | cons f L ih =>
    obtain ⟨n, dst, hn⟩ := hnamed f List.mem_cons_self
    have hlt : s.countLive v < memMaxFacts := by
      rw [← own.length_views h]
      simp only [List.length_cons] at hroom
      omega
    obtain ⟨⟨hnodes, haliases⟩, hviews⟩ :=
      views_importFact sup law h own (hok f List.mem_cons_self) hn hlt k
    have h' : Wf env (importFact env sup v (s, k) f.entry).1 := Wf.importFact (s := (s, k)) law h _
    have own' : OwnLinks (importFact env sup v (s, k) f.entry).1 v :=
      OwnLinks.importFact (x := (s, k)) own _
    have hrest := ih h' own' (fun g hg => hok g (List.mem_cons_of_mem _ hg)) ?_ ?_
      (importFact env sup v (s, k) f.entry).2
    · rw [hnodes, haliases, hviews] at hrest
      exact hrest
    · intro g hg
      obtain ⟨m, d, hm⟩ := hnamed g (List.mem_cons_of_mem _ hg)
      exact ⟨m, d, hm.congr hnodes⟩
    · have hgrown := length_restoreFact_le (s.views v) f
      rw [hviews]
      simp only [List.length_cons] at hroom
      omega

end Portal.Memory
