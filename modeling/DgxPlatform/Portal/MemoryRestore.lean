import DgxPlatform.Portal.MemorySubjects

/-! # Restoring a memory from its export

`api_memory_import` finds the subjects by their normalised names and aliases, leaves out
a fact whose subject has one of the same text, and `add_fact` lets a fact replace one
with the same explicit relation. A memory comes back whole when none of that meets a row
of its own, and only then (`import_restores_iff`).
-/

namespace Portal.Memory

open Run

variable {env : Env} {sup : Supply} {s t : Tables} {u v : String}

/-! ## The two loops -/

/-- The tables after the nodes of a document, and after its facts. -/
def nodesImported (env : Env) (sup : Supply) (s : Tables) (v : String) (t : Tables) (u : String) :
    Tables :=
  (((t.exportedNodes u).map (t.nodeEntry u)).foldl (importNode env sup v) (s, 0)).1

def factsImported (env : Env) (sup : Supply) (s : Tables) (v : String) (t : Tables) (u : String) :
    Tables :=
  (((t.exportedFacts u).map FactView.entry).foldl (importFact env sup v)
    (nodesImported env sup s v t u, 0)).1

theorem apiMemoryImport_exportDoc (sup : Supply) (h : Wf env t) (hnodes : (t.nodesOf u).length ≤ importMaxNodes)
    (exportedAt : List Char) :
    ∃ n k, apiMemoryImport env sup s v (exportDoc t u exportedAt) =
      .ok (factsImported env sup s v t u, n, k) := by
  have hread : ((t.exportedNodes u).map fun n => nodeJson n.name n.kind (t.aliasesOf u n.id)).map readNode =
      (t.exportedNodes u).map (t.nodeEntry u) := by
    rw [List.map_map]
    exact List.map_congr_left fun n _ => readNode_nodeJson n
  have hfacts : ((t.exportedFacts u).map FactView.json).map readFact =
      (t.exportedFacts u).map FactView.entry := by
    rw [List.map_map]
    exact List.map_congr_left fun f _ => readFact_json f
  unfold apiMemoryImport
  rw [validateImport_exportDoc h hnodes]
  simp only [hread, hfacts]
  exact ⟨_, _, rfl⟩

theorem Wf.nodesImported (sup : Supply) (law : env.Law) (ht : Wf env t) (hs : Wf env s) :
    Wf env (nodesImported env sup s v t u) := by
  refine Wf.importNodes (s := (s, 0)) law hs ?_
  intro n hn
  obtain ⟨m, hm, rfl⟩ := List.mem_map.1 hn
  exact (ht.node m (mem_exportedNodes.1 hm).1).short

theorem Wf.factsImported (sup : Supply) (law : env.Law) (ht : Wf env t) (hs : Wf env s) :
    Wf env (factsImported env sup s v t u) :=
  Wf.importFacts (s := (_, 0)) law (ht.nodesImported sup law hs) _

theorem OwnLinks.nodesImported (env : Env) (sup : Supply) (own : OwnLinks s v) (t : Tables)
    (u : String) : OwnLinks (nodesImported env sup s v t u) v :=
  List.foldlRecOn (motive := fun x : Tables × Nat => OwnLinks x.1 v) _ _ own fun _ h n _ => h.importNode n

theorem OwnLinks.factsImported (env : Env) (sup : Supply) (own : OwnLinks s v) (t : Tables)
    (u : String) : OwnLinks (factsImported env sup s v t u) v :=
  List.foldlRecOn (motive := fun x : Tables × Nat => OwnLinks x.1 v) _ _ (own.nodesImported env sup t u)
    fun _ h f _ => h.importFact f

theorem importNode_edges (law : env.Law) (x : Tables × Nat) (n : NodeEntry) :
    (importNode env sup v x n).1.edges = x.1.edges := by
  rcases importNode_cases env sup v x n with hr | ⟨id, -, hr⟩
  · rw [hr, node_edges]
  · obtain ⟨rows, hrows⟩ := addAliases_rows (v := v) law id n.aliases
    rw [hr, hrows.tables]
    exact node_edges _ _

theorem nodesImported_views (sup : Supply) (law : env.Law) (h : Vacant s v) :
    (nodesImported env sup s v t u).views v = [] := by
  have hedges : (nodesImported env sup s v t u).edges = s.edges :=
    List.foldlRecOn (motive := fun x : Tables × Nat => x.1.edges = s.edges) _ _ rfl
      fun x hx n _ => (importNode_edges law x n).trans hx
  have hnone : s.edges.filter (Edge.live v) = [] := by
    refine List.filter_eq_nil_iff.2 ?_
    intro e he
    simp [Edge.live, h.edges e he]
  rw [Tables.views, hedges, hnone, List.filterMap_nil]

theorem subjects_congr {s' : Tables} (hnodes : s'.nodes = s.nodes) (haliases : s'.aliases = s.aliases) :
    s'.subjects v = s.subjects v := by
  have hset : s'.aliasSet v = s.aliasSet v := by
    funext id
    rw [Tables.aliasSet, haliases, Tables.aliasSet]
  rw [Tables.subjects, hset, Tables.nodesOf, hnodes, Tables.subjects, Tables.nodesOf]

theorem rebuilt_nodesImported (sup : Supply) (law : env.Law) (ht : Wf env t) (hs : Wf env s)
    (hvacant : Vacant s v)
    (hunmasked : ∀ m ∈ t.nodesOf u, ∀ n ∈ t.nodesOf u, m.name < n.name →
      n.nameNorm ∉ (t.aliasSet u m.id).image env.norm) :
    Rebuilt env t u v (t.exportedNodes u) (nodesImported env sup s v t u) := by
  have hsub : [] ++ t.exportedNodes u ⊆ t.nodesOf u := (exportedNodes_perm t u).subset
  refine Rebuilt.run sup law ht hs (Rebuilt.nil hvacant) hsub ?_ 0
  refine ht.exportedNodes_sorted.imp_of_mem ?_
  intro m n hm hn hlt
  exact ⟨hlt, hunmasked m (hsub hm) n (hsub hn) hlt⟩

theorem restored_iff (sup : Supply) (law : env.Law) (ht : Wf env t) (hs : Wf env s)
    (hvacant : Vacant s v)
    (hunmasked : ∀ m ∈ t.nodesOf u, ∀ n ∈ t.nodesOf u, m.name < n.name →
      n.nameNorm ∉ (t.aliasSet u m.id).image env.norm)
    (hnamed : ∀ f ∈ t.views u, f.subject ∈ (t.nodesOf u).map Node.name ∧
      ∀ o ∈ f.object, o ∈ (t.nodesOf u).map Node.name) :
    Restored t u (factsImported env sup s v t u) v ↔
      (∀ m ∈ t.nodesOf u, t.renormed env u m.id = t.aliasSet u m.id) ∧ Separate (t.views u) := by
  have hr := rebuilt_nodesImported sup law ht hs hvacant hunmasked
  have hs₁ := ht.nodesImported (v := v) (u := u) sup law hs
  have own := hvacant.ownLinks.nodesImported env sup t u
  have hL := exportedNodes_perm t u
  have hF := exportedFacts_perm t u
  have hempty := nodesImported_views (t := t) (u := u) sup law hvacant
  -- every fact of the document is about subjects that are there now
  have hhere : ∀ name ∈ (t.nodesOf u).map Node.name,
      ∃ n ∈ (nodesImported env sup s v t u).nodesOf v, n.name = name := by
    intro name hname
    obtain ⟨m, hm, rfl⟩ := List.mem_map.1 hname
    obtain ⟨n, hn, heq, -⟩ := hr.exists_node (hL.symm.subset hm)
    exact ⟨n, hn, heq⟩
  have hfacts : ∀ f ∈ t.exportedFacts u, ∃ n dst, Named (nodesImported env sup s v t u) v f n dst := by
    intro f hf
    obtain ⟨hsubject, hobject⟩ := hnamed f (hF.subset hf)
    obtain ⟨n, hn, hname⟩ := hhere f.subject hsubject
    cases hobj : f.object with
    | none => exact ⟨n, none, hn, hname.symm, .inl ⟨hobj, rfl⟩⟩
    | some o =>
      obtain ⟨m, hm, hmname⟩ := hhere o (hobject o hobj)
      exact ⟨n, some m.id, hn, hname.symm, .inr ⟨m, hm, by rw [hobj, hmname], rfl⟩⟩
  obtain ⟨⟨hnodes, haliases⟩, hviews⟩ := views_importFacts sup law hs₁ own ht.exportedFact_ok hfacts
    (by simpa [hempty] using ht.length_exportedFacts) 0
  have hsubjects : (factsImported env sup s v t u).subjects v =
      (nodesImported env sup s v t u).subjects v := subjects_congr hnodes haliases
  have hmulti : (factsImported env sup s v t u).facts v = t.facts u ↔ Separate (t.views u) := by
    have hviews' : (factsImported env sup s v t u).views v = (t.exportedFacts u).foldl restoreFact [] := by
      rw [hempty] at hviews
      exact hviews
    rw [Tables.facts, Tables.facts, Multiset.coe_eq_coe, hviews',
      ← (hF.map FactView.read).congr_right, restoreFacts_perm_iff ht.exportedFact_ok]
    exact ⟨fun h => h.perm hF, fun h => h.perm hF.symm⟩
  constructor
  · rintro ⟨hsub, hfac⟩
    rw [hsubjects] at hsub
    exact ⟨(hr.subjects_iff ht hs₁ hL).1 hsub, hmulti.1 hfac⟩
  · rintro ⟨hsame, hsep⟩
    refine ⟨?_, hmulti.2 hsep⟩
    rw [hsubjects]
    exact (hr.subjects_iff ht hs₁ hL).2 hsame

theorem NamedFrom.importNodes (law : env.Law) (ht : Wf env t) {P S : List Node} {x : Tables × Nat}
    (h : NamedFrom x.1 v P) (hS : ∀ m ∈ S, m ∈ t.nodes) :
    NamedFrom ((S.map (t.nodeEntry u)).foldl (Memory.importNode env sup v) x).1 v (P ++ S) := by
  induction S generalizing P x with
  | nil => simpa using h
  | cons m S ih =>
    have hstep : NamedFrom (Memory.importNode env sup v x (t.nodeEntry u m)).1 v (P ++ [m]) :=
      h.importNode law ht (hS m List.mem_cons_self)
    have hrest := ih hstep fun p hp => hS p (List.mem_cons_of_mem _ hp)
    rwa [List.append_assoc, List.singleton_append] at hrest

/-- The document masks a subject after one that has its name as an alias. -/
theorem masked_nodesImported (sup : Supply) (law : env.Law) (ht : Wf env t) (hvacant : Vacant s v)
    {m n : Node} (hm : m ∈ t.nodesOf u) (hn : n ∈ t.nodesOf u) (hlt : m.name < n.name)
    (hin : n.nameNorm ∈ (t.aliasSet u m.id).image env.norm) :
    Masked (nodesImported env sup s v t u) v n.nameNorm := by
  obtain ⟨hnmem, hnu⟩ := mem_nodesOf.1 hn
  obtain ⟨A, B, hsplit⟩ := List.append_of_mem ((exportedNodes_perm t u).symm.subset hm)
  have hL : ∀ p ∈ A ++ m :: B, p ∈ t.nodes ∧ p.username = u := by
    intro p hp
    rw [← hsplit] at hp
    exact mem_exportedNodes.1 hp
  have hsorted : (A ++ m :: B).Pairwise fun p q => p.name < q.name := hsplit ▸ ht.exportedNodes_sorted
  -- no subject before `m`, nor `m`, has the name of `n`
  have hbefore : ∀ p ∈ A ++ [m], p.nameNorm ≠ n.nameNorm := by
    intro p hp heq
    have hpn : p.name < n.name ∧ p ∈ A ++ m :: B := by
      rcases List.mem_append.1 hp with hpA | hpm
      · have hpm := (List.pairwise_append.1 hsorted).2.2 p hpA m List.mem_cons_self
        exact ⟨List.lt_trans hpm hlt, List.mem_append_left _ hpA⟩
      · rw [List.mem_singleton.1 hpm]
        exact ⟨hlt, List.mem_append_right _ List.mem_cons_self⟩
    obtain ⟨hpmem, hpu⟩ := hL p hpn.2
    have hlt' := hpn.1
    rw [ht.eq_of_norm hpmem hnmem (hpu.trans hnu.symm) heq] at hlt'
    exact List.lt_irrefl _ hlt'
  have hnone : NamedFrom s v [] := fun n hn =>
    absurd (mem_nodesOf.1 hn).2 (hvacant.nodes n (mem_nodesOf.1 hn).1)
  have hfrom : NamedFrom ((A.map (t.nodeEntry u)).foldl (importNode env sup v) (s, 0)).1 v ([] ++ A) :=
    NamedFrom.importNodes (x := (s, 0)) law ht hnone fun p hp => (hL p (List.mem_append_left _ hp)).1
  have hown : OwnLinks ((A.map (t.nodeEntry u)).foldl (importNode env sup v) (s, 0)).1 v :=
    List.foldlRecOn (motive := fun x : Tables × Nat => OwnLinks x.1 v) _ _ hvacant.ownLinks
      fun _ h p _ => h.importNode p
  have hmasked := masked_importNode (u := u) sup law ht hown hfrom (mem_nodesOf.1 hm).1
    (ht.node n hnmem).norm_ne hin hbefore
  unfold nodesImported
  rw [hsplit, List.map_append, List.foldl_append, List.map_cons, List.foldl_cons]
  exact List.foldlRecOn (motive := fun x : Tables × Nat => Masked x.1 v n.nameNorm) _ _ hmasked
    fun _ h p _ => h.importNode law p

theorem unmasked_of_restored (sup : Supply) (law : env.Law) (ht : Wf env t) (hs : Wf env s)
    (hvacant : Vacant s v) (hrest : Restored t u (factsImported env sup s v t u) v) :
    ∀ m ∈ t.nodesOf u, ∀ n ∈ t.nodesOf u, m.name < n.name →
      n.nameNorm ∉ (t.aliasSet u m.id).image env.norm := by
  intro m hm n hn hlt hin
  have hs₂ : Wf env (factsImported env sup s v t u) := Wf.factsImported sup law ht hs
  have hmasked : Masked (factsImported env sup s v t u) v n.nameNorm :=
    List.foldlRecOn (motive := fun x : Tables × Nat => Masked x.1 v n.nameNorm) _ _
      (masked_nodesImported sup law ht hvacant hm hn hlt hin) fun _ h f _ => h.importFact f
  have hmem : (n.name, n.kind, t.aliasSet u n.id) ∈ (factsImported env sup s v t u).subjects v := by
    rw [hrest.subjects]
    exact List.mem_toFinset.2 (List.mem_map.2 ⟨n, hn, rfl⟩)
  obtain ⟨n', hn', heq⟩ := List.mem_map.1 (List.mem_toFinset.1 hmem)
  obtain ⟨hn', hv⟩ := mem_nodesOf.1 hn'
  have hname : n'.name = n.name := congrArg Prod.fst heq
  refine nodeByNorm_eq_none.1 hmasked.1 n' hn' hv ?_
  rw [(hs₂.node n' hn').norm, hname, (ht.node n (mem_nodesOf.1 hn).1).norm]

theorem named_of_restored (sup : Supply) (law : env.Law) (ht : Wf env t) (hs : Wf env s)
    (hvacant : Vacant s v) (hrest : Restored t u (factsImported env sup s v t u) v) :
    ∀ f ∈ t.views u, f.subject ∈ (t.nodesOf u).map Node.name ∧
      ∀ o ∈ f.object, o ∈ (t.nodesOf u).map Node.name := by
  have hs₂ : Wf env (factsImported env sup s v t u) := Wf.factsImported sup law ht hs
  have own := hvacant.ownLinks.factsImported env sup t u
  have hnames : ∀ n ∈ (factsImported env sup s v t u).nodesOf v, n.name ∈ (t.nodesOf u).map Node.name := by
    intro n hn
    have hmem : (n.name, n.kind, (factsImported env sup s v t u).aliasSet v n.id) ∈ t.subjects u := by
      rw [← hrest.subjects]
      exact List.mem_toFinset.2 (List.mem_map.2 ⟨n, hn, rfl⟩)
    obtain ⟨m, hm, heq⟩ := List.mem_map.1 (List.mem_toFinset.1 hmem)
    exact List.mem_map.2 ⟨m, hm, congrArg Prod.fst heq⟩
  intro f hf
  have hread : f.read ∈ (factsImported env sup s v t u).facts v := by
    rw [hrest.facts]
    exact Multiset.mem_coe.2 (List.mem_map_of_mem hf)
  obtain ⟨g, hg, hgf⟩ := List.mem_map.1 (Multiset.mem_coe.1 hread)
  obtain ⟨e, he, hview⟩ := List.mem_filterMap.1 hg
  obtain ⟨hmem, hlive⟩ := List.mem_filter.1 he
  obtain ⟨n, hn, o, -, ho, hview'⟩ := own.factView hs₂ hmem (of_decide_eq_true hlive).1
  obtain rfl := Option.some.inj (hview'.symm.trans hview)
  have hsubject : f.subject = n.name := (congrArg FactView.subject hgf).symm
  have hobject : f.object = o := (congrArg FactView.object hgf).symm
  refine ⟨hsubject ▸ hnames n hn, ?_⟩
  intro name hname
  rw [hobject] at hname
  rcases ho with ⟨rfl, -⟩ | ⟨m, hm, rfl, -⟩
  · cases hname
  · obtain rfl := Option.some.inj hname
    exact hnames m hm

/-! ## When an export restores the memory -/

/-- Two accounts of databases in use, the second without any row: the import of the
first one's export is accepted, and the second then remembers what the first does
exactly when nothing of the first stands in the way of its own rows. -/
theorem import_restores_iff (uni : Unicode) (keyHasNode : Bool)
    {ops ops' : List (GraphOp × Supply)} {t s : Tables}
    (hrun : exec (graphStep (memEnv uni keyHasNode)) ⟨[], [], []⟩ ops = some t)
    (hrun' : exec (graphStep (memEnv uni keyHasNode)) ⟨[], [], []⟩ ops' = some s)
    (u v : String) (hfew : (t.nodesOf u).length ≤ importMaxNodes) (hvacant : Vacant s v)
    (sup : Supply) (exportedAt : List Char) :
    ∃ r, apiMemoryImport (memEnv uni keyHasNode) sup s v (exportDoc t u exportedAt) = .ok r ∧
      (Restored t u r.1 v ↔ Restorable (memEnv uni keyHasNode) t u) := by
  have law := memEnv_law uni keyHasNode
  have ht := exec_wf law hrun
  have hs := exec_wf law hrun'
  obtain ⟨n, k, hr⟩ := apiMemoryImport_exportDoc (s := s) (v := v) sup ht hfew exportedAt
  refine ⟨_, hr, ?_⟩
  constructor
  · intro hrest
    have hunmasked := unmasked_of_restored sup law ht hs hvacant hrest
    have hnamed := named_of_restored sup law ht hs hvacant hrest
    obtain ⟨haliases, hsep⟩ := (restored_iff sup law ht hs hvacant hunmasked hnamed).1 hrest
    exact ⟨haliases, hunmasked, hnamed, hsep⟩
  · intro h
    exact (restored_iff sup law ht hs hvacant h.unmasked h.named).2 ⟨h.aliases, h.separate⟩

/-- An id above all others. -/
def above (ids : List Nat) : Nat := ids.foldr max 0 + 1

theorem lt_above {ids : List Nat} {id : Nat} (h : id ∈ ids) : id < above ids := by
  induction ids with
  | nil => cases h
  | cons i ids ih =>
    simp only [above, List.foldr_cons] at ih ⊢
    rcases List.mem_cons.1 h with rfl | h'
    · omega
    · have := ih h'
      omega

theorem ne_above {α : Type} {xs : List α} (f : α → Nat) : ∀ x ∈ xs, f x ≠ above (xs.map f) :=
  fun _ hx => (lt_above (List.mem_map_of_mem hx)).ne

/-- Ids above those in use. -/
def nextIds (now : Time) : Supply where
  node := fun nodes => above (nodes.map Node.id)
  edge := fun edges => above (edges.map Edge.id)
  now := now
  node_unused := fun _ => ne_above Node.id
  edge_unused := fun _ => ne_above Edge.id

def factArgs (subject relation fact : String) (obj : Option String) : FactArgs where
  subject := some (.str subject.toList)
  relation := some (.str relation.toList)
  fact := some (.str fact.toList)
  obj := obj.map fun o => .str o.toList
  source := "user".toList
  kind := none

/-- A fact about two subjects, one of them with another name. -/
def keptOps : List (GraphOp × Supply) :=
  [(.addFact "ada" (factArgs "vLLM" "runs on" "vLLM 0.6 runs on it" (some "DGX Spark")), nextIds 1),
    (.addAlias "ada" 1 "the engine".toList, nextIds 2)]

def keptTables : Tables where
  nodes := [⟨1, "ada", "vLLM".toList, "vllm".toList, .subject, 1⟩,
    ⟨2, "ada", "DGX Spark".toList, "dgx spark".toList, .subject, 1⟩]
  edges := [⟨1, "ada", 1, "runs on".toList, some 2, "vLLM 0.6 runs on it".toList, .user, 1, none⟩]
  aliases := [⟨1, "ada", "the engine".toList⟩]

theorem import_restores_iff_kept :
    Restorable (memEnv asciiUnicode false) keptTables "ada" ∧
      ∃ r, apiMemoryImport (memEnv asciiUnicode false) (nextIds 9) keptTables "bob"
        (exportDoc keptTables "ada" []) = .ok r ∧ Restored keptTables "ada" r.1 "bob" := by
  have hrun : exec (graphStep (memEnv asciiUnicode false)) ⟨[], [], []⟩ keptOps = some keptTables := by
    decide +kernel
  have hvacant : Vacant keptTables "bob" := ⟨by decide, by decide, by decide⟩
  have hok : Restorable (memEnv asciiUnicode false) keptTables "ada" :=
    ⟨by decide +kernel, by decide +kernel, by decide +kernel,
      by decide +kernel, by decide +kernel, by decide +kernel⟩
  obtain ⟨r, hr, hiff⟩ := import_restores_iff asciiUnicode false hrun hrun "ada" "bob" (by decide) hvacant
    (nextIds 9) []
  exact ⟨hok, r, hr, hiff.2 hok⟩

/-- Two facts of one subject with one text. -/
def twiceOps : List (GraphOp × Supply) :=
  [(.addFact "ada" (factArgs "vLLM" "version" "0.6" none), nextIds 1),
    (.addFact "ada" (factArgs "vLLM" "tested with" "0.6" none), nextIds 2)]

def twiceTables : Tables where
  nodes := [⟨1, "ada", "vLLM".toList, "vllm".toList, .subject, 1⟩]
  edges := [⟨1, "ada", 1, "version".toList, none, "0.6".toList, .user, 1, none⟩,
    ⟨2, "ada", 1, "tested with".toList, none, "0.6".toList, .user, 2, none⟩]
  aliases := []

/-- The second one that the import meets is skipped. -/
theorem import_drops_fact :
    exec (graphStep (memEnv asciiUnicode false)) ⟨[], [], []⟩ twiceOps = some twiceTables ∧
      (twiceTables.nodesOf "ada").length ≤ importMaxNodes ∧ Vacant twiceTables "bob" ∧
      ∃ r, apiMemoryImport (memEnv asciiUnicode false) (nextIds 9) twiceTables "bob"
        (exportDoc twiceTables "ada" []) = .ok r ∧ ¬ Restored twiceTables "ada" r.1 "bob" := by
  have hrun : exec (graphStep (memEnv asciiUnicode false)) ⟨[], [], []⟩ twiceOps = some twiceTables := by
    decide +kernel
  have hvacant : Vacant twiceTables "bob" := ⟨by decide, by decide, by decide⟩
  refine ⟨hrun, by decide, hvacant, ?_⟩
  have law := memEnv_law asciiUnicode false
  have hwf := exec_wf law hrun
  obtain ⟨n, k, hr⟩ := apiMemoryImport_exportDoc (s := twiceTables) (v := "bob") (u := "ada") (nextIds 9)
    hwf (by decide) []
  refine ⟨_, hr, ?_⟩
  intro hrest
  have hiff := restored_iff (u := "ada") (nextIds 9) law hwf hwf hvacant (by decide +kernel) (by decide +kernel)
  have htexts := (hiff.1 hrest).2.texts
  revert htexts
  decide +kernel

end Portal.Memory
