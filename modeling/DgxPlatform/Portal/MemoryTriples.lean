import DgxPlatform.Portal.MemoryRestore

/-! # Equivalent facts

`add_fact` expires the live fact with the subject, the explicit relation and the
object of the new one before it inserts it; `update_fact` writes a relation in place.
`once_iff_fitsTriples`: at most one live fact has a given subject, explicit relation
and object in every state of a memory in use exactly when no correction gives a live
fact the relation of another one between the same nodes.
-/

namespace Portal.Memory

open Run
open Accounts (pyStrip)

/-! ## A memory in use, with the Markdown import -/

/-- A fact as `md_parse` reads it. -/
structure MdFact where
  subject : List Char
  relation : List Char
  obj : Option (List Char)
  fact : List Char
deriving DecidableEq

/-- What `api_memory_import_md` adds of a fact. -/
def MdFact.entry (f : MdFact) : FactEntry where
  subject := (pyStrip f.subject).take memMaxNameLen
  fact := (pyStrip f.fact).take memMaxFactLen
  relation := .str f.relation
  obj := f.obj.map .str
  source := "user".toList

/-- One alias of the file; it is counted when its row is new. -/
def importAlias (env : Env) (sup : Supply) (u : String) (s : Tables × Nat)
    (a : List Char × List Char) : Tables × Nat :=
  match node env sup s.1 u a.1 "subject".toList false with
  | (t, none) => (t, s.2)
  | (t, some id) =>
      let t' := addAlias env t u id a.2
      (t', s.2 + (t'.aliases.length - t.aliases.length))

/-- `api_memory_import_md`, on what `md_parse` has read: the tables, and how many facts and
aliases were imported. -/
def apiMemoryImportMd (env : Env) (sup : Supply) (t : Tables) (u : String) (edges : List MdFact)
    (aliases : List (List Char × List Char)) : Except Refusal (Tables × Nat × Nat) :=
  if edges = [] then .error ⟨"Aucun fait reconnu dans ce fichier.", 400⟩
  else if edges.length > memMaxFacts then
    .error ⟨s!"Trop de faits dans ce fichier ({edges.length} ; {memMaxFacts} au maximum).", 400⟩
  else
    let s₁ := (edges.map MdFact.entry).foldl (importFact env sup u) (t, 0)
    let s₂ := aliases.foldl (importAlias env sup u) (s₁.1, 0)
    .ok (s₂.1, s₁.2, s₂.2)

/-- The operations of a memory, with `purge` and the Markdown import. -/
inductive MemoryOp where
  | graph (op : GraphOp)
  | purge (u : String)
  | importMd (u : String) (edges : List MdFact) (aliases : List (List Char × List Char))

def memoryStep (env : Env) (t : Tables) (op : MemoryOp × Supply) : Option Tables :=
  match op.1 with
  | .graph g => graphStep env t (g, op.2)
  | .purge u => some (purge t u)
  | .importMd u edges aliases =>
      match apiMemoryImportMd env op.2 t u edges aliases with
      | .ok r => some r.1
      | .error _ => some t

/-! ## At most one live fact for a triple -/

/-- A relation that says more than the generic one. -/
def Explicit (relation : List Char) : Prop := relation ≠ [] ∧ relation ≠ memGenericRelation

instance (relation : List Char) : Decidable (Explicit relation) :=
  inferInstanceAs (Decidable (_ ∧ _))

/-- At most one live fact of an account has a given subject, explicit relation and object. -/
def Once (t : Tables) : Prop :=
  ∀ u src relation dst, Explicit relation →
    t.edges.countP (Tables.equivalent u src relation dst) ≤ 1

/-- The row that a correction changes, with its new text and relation. -/
def corrected (t : Tables) (u : String) (id : Nat) (fact relation : Option Json) :
    Option (Edge × List Char × List Char) :=
  (t.edges.find? fun e => decide (e.username = u ∧ e.id = id ∧ e.validUntil = none)).bind fun e =>
    match pick fact e.fact, pick relation e.relation with
    | some newFact, some newRel =>
        let newFact := (pyStrip newFact).take memMaxFactLen
        let rel := (pyStrip newRel).take 80
        if newFact = [] then none else some (e, newFact, if rel = [] then e.relation else rel)
    | _, _ => none

/-- A correction that writes an explicit relation finds no other live fact that has it
between the same nodes. -/
def fitsTriples (t : Tables) (op : MemoryOp × Supply) : Prop :=
  match op.1 with
  | .graph (.updateFact u id fact relation) =>
      ∀ x ∈ corrected t u id fact relation, Explicit x.2.2 →
        ∀ e ∈ t.edges, e.id ≠ id → Tables.equivalent u x.1.src x.2.2 x.1.dst e = false
  | _ => True

instance (t : Tables) (op : MemoryOp × Supply) : Decidable (fitsTriples t op) := by
  unfold fitsTriples
  split <;> infer_instance

variable {env : Env} {sup : Supply} {t t' : Tables} {u : String}

theorem updateFact_eq (t : Tables) (u : String) (id : Nat) (fact relation : Option Json) :
    (updateFact t u id fact relation).1 =
      match corrected t u id fact relation with
      | some (_, newFact, newRel) => t.correct u id newFact newRel
      | none => t := by
  unfold updateFact corrected
  cases (t.edges.find? fun e => decide (e.username = u ∧ e.id = id ∧ e.validUntil = none)) with
  | none => rfl
  | some e =>
    simp only [Option.bind_some]
    cases pick fact e.fact with
    | none => rfl
    | some newFact =>
      cases pick relation e.relation with
      | none => rfl
      | some newRel =>
        simp only
        split <;> rfl

theorem mem_of_corrected {id : Nat} {fact relation : Option Json} {x : Edge × List Char × List Char}
    (h : corrected t u id fact relation = some x) :
    x.1 ∈ t.edges ∧ x.1.username = u ∧ x.1.id = id ∧ x.1.validUntil = none := by
  obtain ⟨e, he, hx⟩ := Option.bind_eq_some_iff.1 h
  have hlive := List.find?_some he
  have hxe : x.1 = e := by
    split at hx
    · dsimp only at hx
      split at hx
      · cases hx
      · cases hx
        rfl
    · cases hx
  rw [hxe]
  exact ⟨List.mem_of_find?_eq_some he, by simpa using hlive⟩

/-! ## What the statements keep -/

/-- The rule, with the ids of the facts that it needs. -/
structure Triples (t : Tables) : Prop where
  ids : (t.edges.map Edge.id).Nodup
  once : Once t

theorem triples_empty : Triples ⟨[], [], []⟩ where
  ids := List.nodup_nil
  once := by
    intro u src relation dst _
    exact Nat.zero_le 1

theorem Triples.of_edges (h : Triples t) (hedges : t'.edges = t.edges) : Triples t' where
  ids := by
    rw [hedges]
    exact h.ids
  once := by
    unfold Once
    rw [hedges]
    exact h.once

theorem Triples.filterEdges (h : Triples t) (hsub : t'.edges.Sublist t.edges) : Triples t' where
  ids := h.ids.sublist (hsub.map Edge.id)
  once u src relation dst hrel := hsub.countP_le.trans (h.once u src relation dst hrel)

theorem Triples.mapEdges (h : Triples t) {f : Edge → Edge} (hid : ∀ e, (f e).id = e.id)
    (hf : ∀ u src relation dst e, Tables.equivalent u src relation dst (f e) = true →
      Tables.equivalent u src relation dst e = true) :
    Triples { t with edges := t.edges.map f } where
  ids := by
    rw [List.map_map]
    exact (List.map_congr_left fun e _ => hid e) ▸ h.ids
  once := by
    intro u src relation dst hrel
    rw [List.countP_map]
    exact (List.countP_mono_left fun e _ => hf u src relation dst e).trans
      (h.once u src relation dst hrel)

theorem equivalent_expired {src : Nat} {relation : List Char} {dst : Option Nat} {e : Edge}
    {now : Time} : Tables.equivalent u src relation dst { e with validUntil := some now } = false := by
  simp [Tables.equivalent]

theorem Triples.expire (h : Triples t) (src : Nat) (relation : List Char) (dst : Option Nat)
    (now : Time) : Triples (t.expire u src relation dst now) := by
  refine h.mapEdges (fun e => by split <;> rfl) fun v src' relation' dst' e he => ?_
  split at he
  · rw [equivalent_expired] at he
    cases he
  · exact he

theorem countP_expire (src : Nat) (relation : List Char) (dst : Option Nat) (now : Time) :
    (t.expire u src relation dst now).edges.countP (Tables.equivalent u src relation dst) = 0 := by
  rw [List.countP_eq_zero]
  intro e he
  obtain ⟨e₀, -, rfl⟩ := List.mem_map.1 he
  split
  · rw [equivalent_expired]
    simp
  · next h => simpa using h

theorem Triples.insertEdge (h : Triples t) {e : Edge} (hid : ∀ e' ∈ t.edges, e'.id ≠ e.id)
    (hfree : Explicit e.relation →
      t.edges.countP (Tables.equivalent e.username e.src e.relation e.dst) = 0) :
    Triples (t.insertEdge e) where
  ids := by
    simp only [Tables.insertEdge, List.map_append, List.map_singleton]
    refine List.nodup_append.2 ⟨h.ids, List.nodup_singleton _, ?_⟩
    intro a ha b hb
    obtain ⟨e', he', rfl⟩ := List.mem_map.1 ha
    rw [List.mem_singleton.1 hb]
    exact hid e' he'
  once := by
    intro u src relation dst hrel
    simp only [Tables.insertEdge, List.countP_append, List.countP_singleton]
    split
    · next heq =>
        -- the new fact has the triple, and no other one has it
        obtain ⟨rfl, rfl, rfl, -, rfl⟩ := of_decide_eq_true heq
        rw [hfree hrel]
    · exact h.once u src relation dst hrel

theorem Triples.writeFact (h : Triples t) (a : FactArgs) (src : Nat) (dst : Option Nat) :
    Triples (writeFact sup t u a src dst) := by
  unfold Memory.writeFact
  have hid : ∀ (t' : Tables), ∀ e' ∈ t'.edges, e'.id ≠ (a.edge u src dst (sup.edge t'.edges) sup.now).id :=
    fun t' => sup.edge_unused t'.edges
  by_cases hrel : a.explicit = true
  · simp only [if_pos hrel]
    exact (h.expire src a.relationText dst sup.now).insertEdge (hid _)
      fun _ => countP_expire src a.relationText dst sup.now
  · simp only [if_neg hrel]
    refine h.insertEdge (hid _) fun hexp => absurd ?_ hrel
    simpa [FactArgs.explicit, Explicit, FactArgs.edge] using hexp

theorem Triples.addFact (h : Triples t) (a : FactArgs) : Triples (addFact env sup t u a).1 := by
  rcases addFact_cases env sup t u a with hr | hr | ⟨src, -, -, -, hr⟩
  · rw [hr]
    exact h
  · rw [hr]
    exact h.of_edges (node_edges _ _)
  · rw [hr]
    refine Triples.writeFact (h.of_edges ?_) a src _
    rw [objectNode_edges, node_edges]

/-! ## A correction -/

theorem eq_of_countP_le_one {α : Type} {p : α → Bool} {xs : List α} (h : xs.countP p ≤ 1) {a b : α}
    (ha : a ∈ xs) (hb : b ∈ xs) (hpa : p a = true) (hpb : p b = true) : a = b := by
  rw [List.countP_eq_length_filter] at h
  have ha' : a ∈ xs.filter p := List.mem_filter.2 ⟨ha, hpa⟩
  have hb' : b ∈ xs.filter p := List.mem_filter.2 ⟨hb, hpb⟩
  cases hxs : xs.filter p with
  | nil =>
    rw [hxs] at ha'
    cases ha'
  | cons x ys =>
    rw [hxs, List.length_cons] at h
    obtain rfl : ys = [] := List.length_eq_zero_iff.1 (by omega)
    rw [hxs, List.mem_singleton] at ha' hb'
    rw [ha', hb']

theorem Triples.eq_of_id (h : Triples t) {e e' : Edge} (he : e ∈ t.edges) (he' : e' ∈ t.edges)
    (hid : e.id = e'.id) : e = e' :=
  List.inj_on_of_nodup_map h.ids he he' hid

theorem Triples.countP_id (h : Triples t) (id : Nat) :
    t.edges.countP (fun e => decide (e.id = id)) ≤ 1 := by
  have hcount := List.nodup_iff_count_le_one.1 h.ids id
  rw [List.count, List.countP_map] at hcount
  exact hcount

theorem ids_correct (t : Tables) (u : String) (id : Nat) (newFact newRel : List Char) :
    (t.correct u id newFact newRel).edges.map Edge.id = t.edges.map Edge.id := by
  rw [Tables.correct, List.map_map]
  refine List.map_congr_left fun x _ => ?_
  simp only [Function.comp_apply]
  split <;> rfl

/-- A correction keeps the rule exactly when no other live fact has the new triple. -/
theorem triples_correct (h : Triples t) {e : Edge} (he : e ∈ t.edges) (hu : e.username = u)
    (hlive : e.validUntil = none) (newFact newRel : List Char) :
    Triples (t.correct u e.id newFact newRel) ↔
      (Explicit newRel → ∀ e' ∈ t.edges, e'.id ≠ e.id →
        Tables.equivalent u e.src newRel e.dst e' = false) := by
  constructor
  · intro h' hrel e' he' hne
    by_contra htwo
    -- both rows are in the table, and have the triple
    have hmem : ({ e with fact := newFact, relation := newRel } : Edge) ∈
        (t.correct u e.id newFact newRel).edges :=
      List.mem_map.2 ⟨e, he, by rw [if_pos ⟨hu, rfl⟩]⟩
    have hmem' : e' ∈ (t.correct u e.id newFact newRel).edges :=
      List.mem_map.2 ⟨e', he', by rw [if_neg fun hc => hne hc.2]⟩
    have heq := eq_of_countP_le_one (h'.once u e.src newRel e.dst hrel) hmem' hmem
      (by simpa using htwo) (by simp [Tables.equivalent, hu, hlive])
    rw [heq] at hne
    exact hne rfl
  · intro hfree
    refine ⟨?_, fun v src relation dst hrel => ?_⟩
    · rw [ids_correct]
      exact h.ids
    · rw [Tables.correct, List.countP_map]
      by_cases hkey : v = u ∧ src = e.src ∧ relation = newRel ∧ dst = e.dst
      · -- only the corrected row has the new triple
        obtain ⟨rfl, rfl, rfl, rfl⟩ := hkey
        refine (List.countP_mono_left fun x hx hequiv => ?_).trans (h.countP_id e.id)
        by_contra hid
        have hid : x.id ≠ e.id := by simpa using hid
        rw [Function.comp_apply, if_neg fun hc => hid hc.2, hfree hrel x hx hid] at hequiv
        cases hequiv
      · -- the corrected row has no other one
        refine (List.countP_mono_left fun x hx hequiv => ?_).trans (h.once v src relation dst hrel)
        rw [Function.comp_apply] at hequiv
        split at hequiv
        · next hc =>
            obtain rfl := h.eq_of_id hx he hc.2
            obtain ⟨hv, hsrc, hnew, -, hdst⟩ := of_decide_eq_true hequiv
            exact absurd ⟨hv.symm.trans hc.1, hsrc.symm, hnew.symm, hdst.symm⟩ hkey
        · exact hequiv

theorem triples_updateFact (h : Triples t) (id : Nat) (fact relation : Option Json) (sup : Supply) :
    Triples (updateFact t u id fact relation).1 ↔
      fitsTriples t (.graph (.updateFact u id fact relation), sup) := by
  rw [updateFact_eq]
  show _ ↔ ∀ x ∈ corrected t u id fact relation, _
  cases hx : corrected t u id fact relation with
  | none => exact iff_of_true h fun x hx' => nomatch hx'
  | some x =>
    obtain ⟨he, hu, rfl, hlive⟩ := mem_of_corrected hx
    refine (triples_correct h he hu hlive x.2.1 x.2.2).trans ?_
    constructor
    · intro hfree y hy
      obtain rfl : x = y := Option.some.inj hy
      exact hfree
    · intro hfree
      exact hfree x rfl

/-! ## The other operations -/

theorem Triples.addAlias (h : Triples t) (id : Nat) (other : List Char) :
    Triples (addAlias env t u id other) := by
  unfold Memory.addAlias Tables.insertAlias
  split
  · exact h
  · split
    · exact h
    · exact h.of_edges rfl

theorem Triples.addAliases (h : Triples t) (id : Nat) (others : List (List Char)) :
    Triples (addAliases env t u id others) := by
  unfold Memory.addAliases
  induction others generalizing t with
  | nil => exact h
  | cons other others ih => exact ih (h.addAlias id other)

theorem Triples.forget (h : Triples t) (id : Nat) : Triples (forget t u id) :=
  h.filterEdges List.filter_sublist

theorem Triples.purge (h : Triples t) : Triples (purge t u) :=
  h.filterEdges List.filter_sublist

theorem Triples.importNode (h : Triples t) (k : Nat) (n : NodeEntry) :
    Triples (importNode env sup u (t, k) n).1 := by
  rcases importNode_cases env sup u (t, k) n with hr | ⟨id, -, hr⟩
  · rw [hr]
    exact h.of_edges (node_edges _ _)
  · rw [hr]
    exact (h.of_edges (node_edges _ _)).addAliases id n.aliases

theorem Triples.importFact (h : Triples t) (k : Nat) (f : FactEntry) :
    Triples (importFact env sup u (t, k) f).1 := by
  rcases importFact_cases env sup u (t, k) f with hr | hr
  · rw [hr]
    exact h
  · rw [hr]
    exact h.addFact f.args

theorem Triples.importAlias (h : Triples t) (k : Nat) (a : List Char × List Char) :
    Triples (importAlias env sup u (t, k) a).1 := by
  have hnode : (node env sup t u a.1 "subject".toList false).1 = t := by
    unfold node
    split
    · rfl
    · split
      · rfl
      · split <;> rfl
  unfold Memory.importAlias
  split
  · next t' hr =>
      obtain rfl : t' = t := (congrArg Prod.fst hr).symm.trans hnode
      exact h
  · next t' id hr =>
      obtain rfl : t' = t := (congrArg Prod.fst hr).symm.trans hnode
      exact h.addAlias id a.2

theorem triples_foldl {β : Type} {f : Tables × Nat → β → Tables × Nat}
    (hf : ∀ (s : Tables) (k : Nat) (b : β), Triples s → Triples (f (s, k) b).1) (bs : List β)
    (k : Nat) (h : Triples t) : Triples (bs.foldl f (t, k)).1 := by
  induction bs generalizing t k with
  | nil => exact h
  | cons b bs ih => exact ih _ (hf t k b h)

theorem Triples.apiMemoryImport (h : Triples t) {doc : Json} {r : Tables × Nat × Nat}
    (hr : apiMemoryImport env sup t u doc = .ok r) : Triples r.1 := by
  unfold Memory.apiMemoryImport at hr
  split at hr
  · cases hr
  · cases hr
    exact triples_foldl (fun _ k f hs => hs.importFact k f) _ 0
      (triples_foldl (fun _ k n hs => hs.importNode k n) _ 0 h)

theorem Triples.apiMemoryImportMd (h : Triples t) {edges : List MdFact}
    {aliases : List (List Char × List Char)} {r : Tables × Nat × Nat}
    (hr : apiMemoryImportMd env sup t u edges aliases = .ok r) : Triples r.1 := by
  unfold Memory.apiMemoryImportMd at hr
  split at hr
  · cases hr
  · split at hr
    · cases hr
    · cases hr
      exact triples_foldl (fun _ k a hs => hs.importAlias k a) _ 0
        (triples_foldl (fun _ k f hs => hs.importFact k f) _ 0 h)

/-! ## Runs -/

theorem triples_memoryStep {op : MemoryOp × Supply} (h : Triples t)
    (hstep : memoryStep env t op = some t') : Triples t' ↔ fitsTriples t op := by
  obtain ⟨op, sup⟩ := op
  cases op with
  | graph g =>
    cases g with
    | addFact v a =>
      cases hstep
      exact iff_of_true (h.addFact a) trivial
    | updateFact v id fact relation =>
      cases hstep
      exact triples_updateFact h id fact relation sup
    | forget v id =>
      cases hstep
      exact iff_of_true (h.forget id) trivial
    | addAlias v id other =>
      obtain ⟨-, hstep⟩ := Option.ite_none_right_eq_some.1 hstep
      cases hstep
      exact iff_of_true (h.addAlias id other) trivial
    | importDoc v doc =>
      unfold memoryStep graphStep at hstep
      dsimp only at hstep
      split at hstep
      · next r hr =>
          cases hstep
          exact iff_of_true (h.apiMemoryImport hr) trivial
      · cases hstep
        exact iff_of_true h trivial
  | purge v =>
    cases hstep
    exact iff_of_true h.purge trivial
  | importMd v edges aliases =>
    unfold memoryStep at hstep
    dsimp only at hstep
    split at hstep
    · next r hr =>
        cases hstep
        exact iff_of_true (h.apiMemoryImportMd hr) trivial
    · cases hstep
      exact iff_of_true h trivial

/-- A correction that does not fit is carried out, and leaves two live facts for a triple. -/
theorem twice_memoryStep {op : MemoryOp × Supply} (h : Triples t) (hop : ¬ fitsTriples t op) :
    ∃ t', memoryStep env t op = some t' ∧ ¬ Once t' := by
  obtain ⟨op, sup⟩ := op
  cases op with
  | graph g =>
    cases g with
    | updateFact v id fact relation =>
      refine ⟨_, rfl, fun honce => hop ((triples_updateFact h id fact relation sup).1 ⟨?_, honce⟩)⟩
      rw [updateFact_eq]
      split
      · rw [ids_correct]
        exact h.ids
      · exact h.ids
    | _ => exact absurd trivial hop
  | _ => exact absurd trivial hop

/-- In a memory in use at most one live fact has a given subject, explicit relation and object
exactly as long as no correction gives a live fact the relation of another one between the
same nodes. -/
theorem once_iff_fitsTriples (env : Env) (ops : List (MemoryOp × Supply)) :
    Always (memoryStep env) Once ⟨[], [], []⟩ ops ↔
      Meets (memoryStep env) fitsTriples ⟨[], [], []⟩ ops := by
  exact always_iff_meets (fun _ h => h.once) (fun _ _ _ h hG hs => (triples_memoryStep h hs).2 hG)
    (fun _ _ h hG => twice_memoryStep h hG) triples_empty

/-! A fact is added with a relation, another one with a second relation, and corrected to the
first one. -/

def correctedOps : List (MemoryOp × Supply) :=
  [(.graph (.addFact "ada" (factArgs "vLLM" "port" "8000" none)), nextIds 1),
    (.graph (.addFact "ada" (factArgs "vLLM" "prot" "8001" none)), nextIds 2),
    (.graph (.updateFact "ada" 2 none (some (.str "port".toList))), nextIds 3)]

theorem correction_doubles :
    ¬ Always (memoryStep (memEnv asciiUnicode false)) Once ⟨[], [], []⟩ correctedOps := by
  intro h
  have hend := h correctedOps (List.prefix_refl _) _ rfl "ada" 1 "port".toList none (by decide)
  revert hend
  decide

end Portal.Memory
