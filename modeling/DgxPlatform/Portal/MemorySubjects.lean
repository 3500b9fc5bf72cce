import DgxPlatform.Portal.MemoryImport
import Mathlib.Data.Finset.Card

/-! # The subjects of an import

The nodes of a document come in the order of their names. While none of them has the
name of an alias that came before, each becomes a node of its own with the aliases of
the document, normalised once more (`Rebuilt`). A node that has is taken for the other
one, then and ever after (`Masked`).
-/

namespace Portal.Memory

open Accounts (pyStrip)

variable {env : Env} {sup : Supply} {s t : Tables} {u v : String}

/-! ## The subjects of the document -/

theorem mem_aliasSet {id : Nat} {x : List Char} :
    x ∈ t.aliasSet u id ↔ ∃ a ∈ t.aliases, a.username = u ∧ a.nodeId = id ∧ a.aliasNorm = x := by
  simp only [Tables.aliasSet, List.mem_toFinset, List.mem_map, List.mem_filter, decide_eq_true_eq]
  constructor
  · rintro ⟨a, ⟨ha, hu, hid⟩, rfl⟩
    exact ⟨a, ha, hu, hid, rfl⟩
  · rintro ⟨a, ha, hu, hid, rfl⟩
    exact ⟨a, ⟨ha, hu, hid⟩, rfl⟩

theorem mem_aliasesOf {id : Nat} {x : List Char} : x ∈ t.aliasesOf u id ↔ x ∈ t.aliasSet u id := by
  rw [mem_aliasSet]
  simp only [Tables.aliasesOf, List.mem_map, List.mem_filter, List.mem_mergeSort, decide_eq_true_eq]
  constructor
  · rintro ⟨a, ⟨⟨ha, hu⟩, hid⟩, rfl⟩
    exact ⟨a, ha, hu, hid, rfl⟩
  · rintro ⟨a, ha, hu, hid, rfl⟩
    exact ⟨a, ⟨⟨ha, hu⟩, hid⟩, rfl⟩

/-- The aliases of a node as the import normalises them. -/
def Tables.renormed (env : Env) (t : Tables) (u : String) (id : Nat) : Finset (List Char) :=
  ((t.aliasSet u id).image env.norm).erase []

theorem mem_renormed {id : Nat} {y : List Char} :
    y ∈ t.renormed env u id ↔ y ≠ [] ∧ ∃ x ∈ t.aliasesOf u id, env.norm x = y := by
  simp only [Tables.renormed, Finset.mem_erase, Finset.mem_image, mem_aliasesOf]

/-- The rows that a node's aliases become. -/
structure AliasRows (env : Env) (s : Tables) (v : String) (id : Nat) (others : List (List Char))
    (rows : List Alias) : Prop where
  tables : addAliases env s v id others = { s with aliases := s.aliases ++ rows }
  from_others : ∀ a ∈ rows, a.nodeId = id ∧ a.username = v ∧ a.aliasNorm ≠ [] ∧
    ∃ x ∈ others, env.norm x = a.aliasNorm
  /-- each is there, unless it was taken for a row that was there before -/
  all : ∀ x ∈ others, env.norm x ≠ [] → ⟨id, v, env.norm x⟩ ∈ s.aliases ++ rows ∨
    ∃ a ∈ s.aliases, env.clash ⟨id, v, env.norm x⟩ a = true

theorem addAlias_rows (s : Tables) (v : String) (id : Nat) (other : List Char) :
    ∃ rows, AliasRows env s v id [other] rows := by
  by_cases hne : env.norm other = []
  · refine ⟨[], ?_, fun _ h => absurd h List.not_mem_nil, ?_⟩
    · simp [addAliases, addAlias, hne]
    · intro x hx hx'
      rw [List.mem_singleton.1 hx] at hx'
      exact absurd hne hx'
  by_cases hclash : s.aliases.any (env.clash ⟨id, v, env.norm other⟩) = true
  · refine ⟨[], ?_, fun _ h => absurd h List.not_mem_nil, ?_⟩
    · simp only [addAliases, List.foldl_cons, List.foldl_nil, addAlias, hne, if_false,
        Tables.insertAlias, hclash, if_true, List.append_nil]
    · intro x hx _
      rw [List.mem_singleton.1 hx]
      exact .inr (List.any_eq_true.1 hclash)
  · refine ⟨[⟨id, v, env.norm other⟩], ?_, ?_, ?_⟩
    · simp only [addAliases, List.foldl_cons, List.foldl_nil, addAlias, hne, if_false,
        Tables.insertAlias, hclash]
      rfl
    · intro a ha
      rw [List.mem_singleton.1 ha]
      exact ⟨rfl, rfl, hne, other, List.mem_singleton.2 rfl, rfl⟩
    · intro x hx _
      rw [List.mem_singleton.1 hx]
      exact .inl (List.mem_append_right _ (List.mem_singleton.2 rfl))

theorem addAliases_rows (law : env.Law) (id : Nat) (others : List (List Char)) :
    ∃ rows, AliasRows env s v id others rows := by
  induction others generalizing s with
  | nil =>
    refine ⟨[], ?_, fun _ h => absurd h List.not_mem_nil, fun _ h => absurd h List.not_mem_nil⟩
    simp [addAliases]
  | cons other others ih =>
    obtain ⟨rows, h⟩ := addAlias_rows s v id other
    obtain ⟨rows', h'⟩ := ih (s := { s with aliases := s.aliases ++ rows })
    refine ⟨rows ++ rows', ?_, ?_, ?_⟩
    · have hfirst : addAlias env s v id other = { s with aliases := s.aliases ++ rows } := h.tables
      have hrest := h'.tables
      unfold addAliases at hrest ⊢
      rw [List.foldl_cons, hfirst, hrest, List.append_assoc]
    · intro a ha
      rcases List.mem_append.1 ha with hold | hnew
      · obtain ⟨hid, hv, hne, x, hx, hax⟩ := h.from_others a hold
        exact ⟨hid, hv, hne, x, List.mem_cons.2 (.inl (List.mem_singleton.1 hx)), hax⟩
      · obtain ⟨hid, hv, hne, x, hx, hax⟩ := h'.from_others a hnew
        exact ⟨hid, hv, hne, x, List.mem_cons_of_mem _ hx, hax⟩
    · intro x hx hne
      rw [← List.append_assoc]
      rcases List.mem_cons.1 hx with rfl | hx'
      · rcases h.all x (List.mem_singleton.2 rfl) hne with hin | hclash
        · exact .inl (List.mem_append_left _ hin)
        · exact .inr hclash
      · rcases h'.all x hx' hne with hin | ⟨a, ha, hclash⟩
        · exact .inl hin
        rcases List.mem_append.1 ha with hold | hnew
        · exact .inr ⟨a, hold, hclash⟩
        · -- a row of this node with that alias is the row itself
          obtain ⟨hid, hv, -, -⟩ := h.from_others a hnew
          have hsame : env.norm x = a.aliasNorm := (law.clash_same _ _ hclash).2
          have hrow : (⟨id, v, env.norm x⟩ : Alias) = a := by
            rw [← hid, ← hv, hsame]
          rw [hrow]
          exact .inl (List.mem_append_left _ (List.mem_append_right _ hnew))

theorem Wf.exportedNodes_sorted (h : Wf env t) :
    (t.exportedNodes u).Pairwise fun m n => m.name < n.name := by
  have hle : (t.exportedNodes u).Pairwise fun m n : Node => (!decide (n.name < m.name)) = true := by
    refine List.pairwise_mergeSort ?_ ?_ _
    · intro a b c hab hbc
      simp only [Bool.not_eq_true', decide_eq_false_iff_not, List.not_lt] at hab hbc ⊢
      exact List.le_trans hab hbc
    · intro a b
      simp only [Bool.or_eq_true, Bool.not_eq_true', decide_eq_false_iff_not, List.not_lt]
      exact List.le_total _ _
  have hnodup : (t.exportedNodes u).Nodup :=
    (exportedNodes_perm t u).nodup_iff.2 ((List.Nodup.of_map _ h.ids).filter _)
  refine (hle.and hnodup).imp_of_mem ?_
  rintro m n hm hn ⟨hmn, hne⟩
  obtain ⟨hm, hmu⟩ := mem_exportedNodes.1 hm
  obtain ⟨hn, hnu⟩ := mem_exportedNodes.1 hn
  simp only [Bool.not_eq_true', decide_eq_false_iff_not, List.not_lt] at hmn
  by_contra hlt
  have hname : m.name = n.name := List.le_antisymm hmn (List.not_lt.1 hlt)
  exact hne (h.eq_of_name hm hn (hmu.trans hnu.symm) hname)

/-- The account after the nodes `P` of the document, none of them taken for another. -/
structure Rebuilt (env : Env) (t : Tables) (u : String) (v : String) (P : List Node) (s : Tables) :
    Prop where
  nodes : (s.nodesOf v).map (fun n => (n.name, n.kind)) = P.map fun m => (m.name, m.kind)
  alias_from : ∀ a ∈ s.aliases, a.username = v → ∃ m ∈ P, ∃ n ∈ s.nodesOf v,
    n.id = a.nodeId ∧ n.name = m.name ∧ a.aliasNorm ∈ t.renormed env u m.id
  alias_in : (∀ m ∈ t.nodesOf u, t.renormed env u m.id = t.aliasSet u m.id) →
    ∀ m ∈ P, ∀ n ∈ s.nodesOf v, n.name = m.name → t.aliasSet u m.id ⊆ s.aliasSet v n.id

namespace Rebuilt

variable {P : List Node}

theorem nil (h : Vacant s v) : Rebuilt env t u v [] s where
  nodes := by
    have hnone : s.nodesOf v = [] := by
      refine List.filter_eq_nil_iff.2 ?_
      intro n hn
      simpa using h.nodes n hn
    rw [hnone]
  alias_from a ha hv := absurd hv (h.aliases a ha)
  alias_in _ m hm := absurd hm List.not_mem_nil

theorem exists_node (hr : Rebuilt env t u v P s) {m : Node} (hm : m ∈ P) :
    ∃ n ∈ s.nodesOf v, n.name = m.name ∧ n.kind = m.kind := by
  have hmem : (m.name, m.kind) ∈ (s.nodesOf v).map fun n => (n.name, n.kind) := by
    rw [hr.nodes]
    exact List.mem_map.2 ⟨m, hm, rfl⟩
  obtain ⟨n, hn, heq⟩ := List.mem_map.1 hmem
  exact ⟨n, hn, congrArg Prod.fst heq, congrArg Prod.snd heq⟩

theorem of_node (hr : Rebuilt env t u v P s) {n : Node} (hn : n ∈ s.nodesOf v) :
    ∃ m ∈ P, n.name = m.name ∧ n.kind = m.kind := by
  have hmem : (n.name, n.kind) ∈ P.map fun m => (m.name, m.kind) := by
    rw [← hr.nodes]
    exact List.mem_map.2 ⟨n, hn, rfl⟩
  obtain ⟨m, hm, heq⟩ := List.mem_map.1 hmem
  exact ⟨m, hm, (congrArg Prod.fst heq).symm, (congrArg Prod.snd heq).symm⟩

theorem node (sup : Supply) (ht : Wf env t) (hs : Wf env s) (hr : Rebuilt env t u v P s)
    (hP : P ⊆ t.nodesOf u) {m : Node} (hm : m ∈ t.nodesOf u) (hnames : ∀ p ∈ P, p.name ≠ m.name)
    (hfree : ∀ p ∈ P, m.nameNorm ∉ (t.aliasSet u p.id).image env.norm) :
    Memory.node env sup s v m.name m.kind.text true =
      (s.insertNode ⟨sup.node s.nodes, v, m.name, m.nameNorm, m.kind, sup.now⟩,
        some (sup.node s.nodes)) := by
  obtain ⟨hmem, hmu⟩ := mem_nodesOf.1 hm
  have hok := ht.node m hmem
  have hne : env.norm m.name ≠ [] := hok.norm ▸ hok.norm_ne
  have hnorm : s.nodeByNorm v (env.norm m.name) = none := by
    refine nodeByNorm_eq_none.2 ?_
    intro n hn hv hsame
    obtain ⟨p, hp, hname, -⟩ := hr.of_node (mem_nodesOf.2 ⟨hn, hv⟩)
    obtain ⟨hpmem, hpu⟩ := mem_nodesOf.1 (hP hp)
    refine hnames p hp (congrArg Node.name ?_)
    refine ht.eq_of_norm hpmem hmem (hpu.trans hmu.symm) ?_
    rw [(ht.node p hpmem).norm, ← hname, ← (hs.node n hn).norm, hsame, hok.norm]
  have halias : s.nodeByAlias v (env.norm m.name) = none := by
    refine nodeByAlias_eq_none.2 ?_
    intro n hn a ha _ hv hsame
    obtain ⟨p, hp, -, -, -, -, hin⟩ := hr.alias_from a ha hv
    refine hfree p hp ?_
    rw [hok.norm, ← hsame]
    exact Finset.mem_of_mem_erase hin
  have hrow : newNode env v m.name m.kind.text (sup.node s.nodes) sup.now =
      ⟨sup.node s.nodes, v, m.name, m.nameNorm, m.kind, sup.now⟩ := by
    simp only [newNode, hok.take_name, kindOf_text, hok.norm]
  rcases node_cases env sup s v m.name m.kind.text with ⟨hnil, -⟩ | ⟨-, id, hid, -⟩ | ⟨-, -, -, hcreated⟩
  · exact absurd hnil hne
  · rcases hid with hid | ⟨-, hid⟩
    · exact absurd (hnorm.symm.trans hid) (by simp)
    · exact absurd (halias.symm.trans hid) (by simp)
  · rw [hcreated, hrow]

/-- Two nodes of the exported account that share an alias are no clash in the new one. -/
theorem no_clash (law : env.Law) (ht : Wf env t) {m p : Node} (hne : m.id ≠ p.id) {y : List Char}
    (hm : y ∈ t.aliasSet u m.id) (hp : y ∈ t.aliasSet u p.id) {a b : Alias}
    (hu : a.username = b.username) (hy : a.aliasNorm = b.aliasNorm) (hid : a.nodeId ≠ b.nodeId) :
    env.clash a b = false := by
  obtain ⟨c, hc, hcu, hcid, hcy⟩ := mem_aliasSet.1 hm
  obtain ⟨d, hd, hdu, hdid, hdy⟩ := mem_aliasSet.1 hp
  have hcd : c.nodeId ≠ d.nodeId := by rw [hcid, hdid]; exact hne
  have hcne : c ≠ d := fun heq => hcd (congrArg Alias.nodeId heq)
  have huser : c.username = d.username := hcu.trans hdu.symm
  have hnorm : c.aliasNorm = d.aliasNorm := hcy.trans hdy.symm
  -- of the two rows one came second, and did not clash with the first
  have hpair : env.clash d c = false ∨ env.clash c d = false := by
    have hall := ht.aliases.imp (S := fun a b => env.clash b a = false ∨ env.clash a b = false)
      fun hab => Or.inl hab
    have hsymm : Std.Symm fun a b : Alias => env.clash b a = false ∨ env.clash a b = false :=
      ⟨fun _ _ h => h.symm⟩
    exact hall.forall hc hd hcne
  rcases hpair with hdc | hcd'
  · rw [law.clash_moved a b d c hu hy hid huser.symm hnorm.symm hcd.symm, hdc]
  · rw [law.clash_moved a b c d hu hy hid huser hnorm hcd, hcd']

theorem extend (law : env.Law) (ht : Wf env t) (hr : Rebuilt env t u v P s) (hP : P ⊆ t.nodesOf u)
    {m : Node} (hm : m ∈ t.nodesOf u) (hnames : ∀ p ∈ P, p.name ≠ m.name) {new : Node}
    (huser : new.username = v) (hname : new.name = m.name) (hkind : new.kind = m.kind)
    (hid : ∀ n ∈ s.nodes, n.id ≠ new.id) {rows : List Alias}
    (hrows : AliasRows env (s.insertNode new) v new.id (t.aliasesOf u m.id) rows) :
    Rebuilt env t u v (P ++ [m]) ⟨s.nodes ++ [new], s.edges, s.aliases ++ rows⟩ := by
  have hof : Tables.nodesOf ⟨s.nodes ++ [new], s.edges, s.aliases ++ rows⟩ v = s.nodesOf v ++ [new] := by
    simp [Tables.nodesOf, huser]
  refine ⟨?_, ?_, ?_⟩
  · rw [hof, List.map_append, List.map_append, hr.nodes]
    simp [hname, hkind]
  · intro a ha hv
    rw [hof]
    rcases List.mem_append.1 ha with hold | hnew
    · obtain ⟨p, hp, n, hn, hfrom⟩ := hr.alias_from a hold hv
      exact ⟨p, List.mem_append_left _ hp, n, List.mem_append_left _ hn, hfrom⟩
    · obtain ⟨haid, -, hne, hx⟩ := hrows.from_others a hnew
      exact ⟨m, List.mem_append_right _ (List.mem_singleton.2 rfl), new,
        List.mem_append_right _ (List.mem_singleton.2 rfl), haid.symm, hname, mem_renormed.2 ⟨hne, hx⟩⟩
  · intro hsame p hp n hn hnp y hy
    rw [hof] at hn
    rcases List.mem_append.1 hp with hpold | hpnew
    · -- a node before: its rows stay
      have hnold : n ∈ s.nodesOf v := by
        rcases List.mem_append.1 hn with hold | hlast
        · exact hold
        · rw [List.mem_singleton.1 hlast] at hnp
          exact absurd (hnp.symm.trans hname) (hnames p hpold)
      obtain ⟨a, ha, hrest⟩ := mem_aliasSet.1 (hr.alias_in hsame p hpold n hnold hnp hy)
      exact mem_aliasSet.2 ⟨a, List.mem_append_left _ ha, hrest⟩
    · obtain rfl := List.mem_singleton.1 hpnew
      have hnnew : n = new := by
        rcases List.mem_append.1 hn with hold | hlast
        · obtain ⟨q, hq, hnq, -⟩ := hr.of_node hold
          exact absurd (hnq.symm.trans hnp) (hnames q hq)
        · exact List.mem_singleton.1 hlast
      subst hnnew
      have hy' : y ∈ t.renormed env u p.id := (hsame p hm).symm ▸ hy
      obtain ⟨hne, x, hx, rfl⟩ := mem_renormed.1 hy'
      rcases hrows.all x hx hne with hin | ⟨a, ha, hclash⟩
      · exact mem_aliasSet.2 ⟨_, hin, rfl, rfl, rfl⟩
      · -- the row it was taken for would be a clash among the exported rows as well
        obtain ⟨hav, hax⟩ := law.clash_same _ _ hclash
        obtain ⟨q, hq, n', hn', hid', -, hin⟩ := hr.alias_from a ha hav.symm
        have hq' := hP hq
        rw [hsame q hq', ← hax] at hin
        have hpq : p.id ≠ q.id := by
          intro heq
          exact hnames q hq (ht.eq_of_id (mem_nodesOf.1 hq').1 (mem_nodesOf.1 hm).1 heq.symm ▸ rfl)
        have hfree : n.id ≠ a.nodeId := by
          rw [← hid']
          exact (hid n' (mem_nodesOf.1 hn').1).symm
        rw [no_clash law ht hpq hy hin hav hax hfree] at hclash
        cases hclash

theorem step (sup : Supply) (law : env.Law) (ht : Wf env t) (hs : Wf env s)
    (hr : Rebuilt env t u v P s) (hP : P ⊆ t.nodesOf u) {m : Node} (hm : m ∈ t.nodesOf u)
    (hnames : ∀ p ∈ P, p.name ≠ m.name)
    (hfree : ∀ p ∈ P, m.nameNorm ∉ (t.aliasSet u p.id).image env.norm) (k : Nat) :
    Rebuilt env t u v (P ++ [m]) (importNode env sup v (s, k) (t.nodeEntry u m)).1 := by
  have hnode := hr.node sup ht hs hP hm hnames hfree
  obtain ⟨rows, hrows⟩ := addAliases_rows (v := v)
    (s := s.insertNode ⟨sup.node s.nodes, v, m.name, m.nameNorm, m.kind, sup.now⟩) law
    (sup.node s.nodes) (t.aliasesOf u m.id)
  have hresult : (importNode env sup v (s, k) (t.nodeEntry u m)).1 =
      ⟨s.nodes ++ [⟨sup.node s.nodes, v, m.name, m.nameNorm, m.kind, sup.now⟩], s.edges,
        s.aliases ++ rows⟩ := by
    unfold importNode
    simp only [Tables.nodeEntry, hnode]
    exact hrows.tables
  rw [hresult]
  refine hr.extend law ht hP hm hnames ?_ ?_ ?_ ?_ hrows
  · rfl
  · rfl
  · rfl
  · exact sup.node_unused s.nodes

theorem run (sup : Supply) (law : env.Law) (ht : Wf env t) {S : List Node} (hs : Wf env s)
    (hr : Rebuilt env t u v P s) (hPS : P ++ S ⊆ t.nodesOf u)
    (hpair : (P ++ S).Pairwise fun p m =>
      p.name < m.name ∧ m.nameNorm ∉ (t.aliasSet u p.id).image env.norm) (k : Nat) :
    Rebuilt env t u v (P ++ S) ((S.map (t.nodeEntry u)).foldl (importNode env sup v) (s, k)).1 := by
  induction S generalizing P s k with
  | nil => simpa using hr
  | cons m S ih =>
    have hm : m ∈ t.nodesOf u := hPS (List.mem_append_right _ List.mem_cons_self)
    have hbefore := (List.pairwise_append.1 hpair).2.2
    have hnames : ∀ p ∈ P, p.name ≠ m.name := by
      intro p hp heq
      have hlt := (hbefore p hp m List.mem_cons_self).1
      rw [heq] at hlt
      exact List.lt_irrefl _ hlt
    have hstep := hr.step sup law ht hs (fun p hp => hPS (List.mem_append_left _ hp)) hm hnames
      (fun p hp => (hbefore p hp m List.mem_cons_self).2) k
    have hs' : Wf env (importNode env sup v (s, k) (t.nodeEntry u m)).1 :=
      Wf.importNode (s := (s, k)) law hs (ht.node m (mem_nodesOf.1 hm).1).short
    have hsplit : P ++ m :: S = P ++ [m] ++ S := by simp
    rw [hsplit] at hPS hpair ⊢
    exact ih hs' hstep hPS hpair (importNode env sup v (s, k) (t.nodeEntry u m)).2

/-- A node gets no other aliases than its own, normalised once more. -/
theorem aliasSet_subset (ht : Wf env t) (hs : Wf env s) (hr : Rebuilt env t u v P s)
    (hP : P ⊆ t.nodesOf u) {m n : Node} (hm : m ∈ t.nodesOf u) (hn : n ∈ s.nodesOf v)
    (hname : n.name = m.name) : s.aliasSet v n.id ⊆ t.renormed env u m.id := by
  intro y hy
  obtain ⟨a, ha, hav, hid, rfl⟩ := mem_aliasSet.1 hy
  obtain ⟨p, hp, n', hn', hid', hname', hin⟩ := hr.alias_from a ha hav
  obtain rfl := hs.eq_of_id (mem_nodesOf.1 hn').1 (mem_nodesOf.1 hn).1 (hid'.trans hid)
  have hp' := mem_nodesOf.1 (hP hp)
  have hm' := mem_nodesOf.1 hm
  obtain rfl := ht.eq_of_name hp'.1 hm'.1 (hp'.2.trans hm'.2.symm) (hname'.symm.trans hname)
  exact hin

/-- The subjects come back exactly when normalising their aliases changes nothing. -/
theorem subjects_iff (ht : Wf env t) (hs : Wf env s) {L : List Node} (hL : L.Perm (t.nodesOf u))
    (hr : Rebuilt env t u v L s) :
    s.subjects v = t.subjects u ↔ ∀ m ∈ t.nodesOf u, t.renormed env u m.id = t.aliasSet u m.id := by
  have hsub : L ⊆ t.nodesOf u := hL.subset
  constructor
  · intro heq m hm
    have hmem : (m.name, m.kind, t.aliasSet u m.id) ∈ s.subjects v := by
      rw [heq]
      exact List.mem_toFinset.2 (List.mem_map.2 ⟨m, hm, rfl⟩)
    obtain ⟨n, hn, hcard⟩ := List.mem_map.1 (List.mem_toFinset.1 hmem)
    obtain ⟨hname, -, hset⟩ : n.name = m.name ∧ n.kind = m.kind ∧ s.aliasSet v n.id = t.aliasSet u m.id := by
      simpa using hcard
    -- the node has as many aliases as before, and no others than the normalised ones
    have hle : (t.renormed env u m.id).card ≤ (s.aliasSet v n.id).card := by
      rw [hset]
      exact (Finset.card_erase_le).trans Finset.card_image_le
    rw [← Finset.eq_of_subset_of_card_le (hr.aliasSet_subset ht hs hsub hm hn hname) hle, hset]
  · intro hsame
    have hset : ∀ m ∈ t.nodesOf u, ∀ n ∈ s.nodesOf v, n.name = m.name →
        s.aliasSet v n.id = t.aliasSet u m.id := by
      intro m hm n hn hname
      refine Finset.Subset.antisymm ?_ (hr.alias_in hsame m (hL.symm.subset hm) n hn hname)
      rw [← hsame m hm]
      exact hr.aliasSet_subset ht hs hsub hm hn hname
    ext c
    simp only [Tables.subjects, List.mem_toFinset, List.mem_map]
    constructor
    · rintro ⟨n, hn, rfl⟩
      obtain ⟨m, hm, hname, hkind⟩ := hr.of_node hn
      exact ⟨m, hsub hm, by rw [hname, hkind, hset m (hsub hm) n hn hname]⟩
    · rintro ⟨m, hm, rfl⟩
      obtain ⟨n, hn, hname, hkind⟩ := hr.exists_node (hL.symm.subset hm)
      exact ⟨n, hn, by rw [hname, hkind, hset m hm n hn hname]⟩

end Rebuilt

/-! ## A subject that is taken for another -/

/-- A normalised name that only leads to another node's alias. -/
def Masked (s : Tables) (v : String) (norm : List Char) : Prop :=
  s.nodeByNorm v norm = none ∧ s.nodeByAlias v norm ≠ none

namespace Masked

variable {norm : List Char}

/-- It stays so: `node` finds the alias, and creates nodes of other names only. -/
theorem node (env : Env) (sup : Supply) (h : Masked s v norm) (name kind : List Char) :
    Masked (node env sup s v name kind true).1 v norm := by
  refine node_kept (Q := fun s => Masked s v norm) h ?_
  intro _ _ halias
  have hne : env.norm name ≠ norm := by
    rintro rfl
    exact h.2 halias
  refine ⟨?_, ?_⟩
  · refine nodeByNorm_eq_none.2 ?_
    intro n hn hv
    rcases List.mem_append.1 hn with hold | hnew
    · exact nodeByNorm_eq_none.1 h.1 n hold hv
    · rw [List.mem_singleton.1 hnew]
      exact hne
  · intro hnone
    refine h.2 (nodeByAlias_eq_none.2 ?_)
    intro n hn
    exact nodeByAlias_eq_none.1 hnone n (List.mem_append_left _ hn)

theorem of_more {s' : Tables} (h : Masked s v norm) (hnodes : s'.nodes = s.nodes)
    (haliases : s.aliases ⊆ s'.aliases) : Masked s' v norm := by
  refine ⟨?_, ?_⟩
  · refine nodeByNorm_eq_none.2 ?_
    rw [hnodes]
    exact nodeByNorm_eq_none.1 h.1
  · intro hnone
    refine h.2 (nodeByAlias_eq_none.2 ?_)
    intro n hn a ha
    exact nodeByAlias_eq_none.1 hnone n (hnodes ▸ hn) a (haliases ha)

theorem importNode (law : env.Law) {x : Tables × Nat} (h : Masked x.1 v norm) (n : NodeEntry) :
    Masked (importNode env sup v x n).1 v norm := by
  have hnode := h.node env sup n.name n.kind
  rcases importNode_cases env sup v x n with hr | ⟨id, -, hr⟩
  · rw [hr]
    exact hnode
  · obtain ⟨rows, hrows⟩ := addAliases_rows (v := v) law id n.aliases
    rw [hr, hrows.tables]
    exact hnode.of_more rfl (List.subset_append_left _ _)

theorem addFact (h : Masked s v norm) (a : FactArgs) : Masked (addFact env sup s v a).1 v norm := by
  have hsubject := h.node env sup a.subjectText a.kindText
  rcases addFact_cases env sup s v a with hr | hr | ⟨src, -, -, -, hr⟩
  · rw [hr]
    exact h
  · rw [hr]
    exact hsubject
  · have hobj : Masked (objectNode env sup
        (Memory.node env sup s v a.subjectText a.kindText true).1 v a.objText).1 v norm := by
      cases a.objText with
      | none => exact hsubject
      | some o => exact hsubject.node env sup o _
    obtain ⟨hnodes, haliases⟩ := writeFact_nodes sup _ v a src _
    rw [hr]
    exact hobj.of_more hnodes (haliases ▸ List.Subset.refl _)

theorem importFact {x : Tables × Nat} (h : Masked x.1 v norm) (f : FactEntry) :
    Masked (importFact env sup v x f).1 v norm := by
  rcases importFact_cases env sup v x f with hr | hr
  · rw [hr]
    exact h
  · rw [hr]
    exact h.addFact f.args

end Masked

theorem importNode_nodes (law : env.Law) (x : Tables × Nat) (n : NodeEntry) :
    (importNode env sup v x n).1.nodes = (node env sup x.1 v n.name n.kind true).1.nodes := by
  rcases importNode_cases env sup v x n with hr | ⟨id, -, hr⟩
  · rw [hr]
  · obtain ⟨rows, hrows⟩ := addAliases_rows (v := v) law id n.aliases
    rw [hr, hrows.tables]

/-- The nodes of the account bear normalised names of `P`. -/
def NamedFrom (s : Tables) (v : String) (P : List Node) : Prop :=
  ∀ n ∈ s.nodesOf v, ∃ p ∈ P, n.nameNorm = p.nameNorm

theorem NamedFrom.importNode (law : env.Law) (ht : Wf env t) {P : List Node} {x : Tables × Nat}
    (h : NamedFrom x.1 v P) {m : Node} (hm : m ∈ t.nodes) :
    NamedFrom (importNode env sup v x (t.nodeEntry u m)).1 v (P ++ [m]) := by
  intro n hn
  obtain ⟨hn, hv⟩ := mem_nodesOf.1 hn
  rw [importNode_nodes law] at hn
  have hold : n ∈ x.1.nodes → ∃ p ∈ P ++ [m], n.nameNorm = p.nameNorm := by
    intro hmem
    obtain ⟨p, hp, hnorm⟩ := h n (mem_nodesOf.2 ⟨hmem, hv⟩)
    exact ⟨p, List.mem_append_left _ hp, hnorm⟩
  rcases node_cases env sup x.1 v m.name m.kind.text with ⟨-, hr⟩ | ⟨-, id, -, hr⟩ | ⟨-, -, -, hr⟩
  · simp only [Tables.nodeEntry, hr] at hn
    exact hold hn
  · simp only [Tables.nodeEntry, hr] at hn
    exact hold hn
  · simp only [Tables.nodeEntry, hr] at hn
    rcases List.mem_append.1 hn with hmem | hnew
    · exact hold hmem
    · refine ⟨m, List.mem_append_right _ (List.mem_singleton.2 rfl), ?_⟩
      rw [List.mem_singleton.1 hnew]
      exact (ht.node m hm).norm.symm

/-- The import of a node with an alias masks a subject of that name that comes later. -/
theorem masked_importNode (sup : Supply) (law : env.Law) (ht : Wf env t) {P : List Node} {x : Tables × Nat}
    (own : OwnLinks x.1 v) (h : NamedFrom x.1 v P) {m : Node} (hm : m ∈ t.nodes) {norm : List Char}
    (hne : norm ≠ []) (hin : norm ∈ (t.aliasSet u m.id).image env.norm)
    (hlater : ∀ p ∈ P ++ [m], p.nameNorm ≠ norm) :
    Masked (importNode env sup v x (t.nodeEntry u m)).1 v norm := by
  have hfrom : NamedFrom (importNode env sup v x (t.nodeEntry u m)).1 v (P ++ [m]) :=
    h.importNode law ht hm
  have own' : OwnLinks (importNode env sup v x (t.nodeEntry u m)).1 v := own.importNode _
  refine ⟨?_, ?_⟩
  · refine nodeByNorm_eq_none.2 ?_
    intro n hn hv hsame
    obtain ⟨p, hp, hnorm⟩ := hfrom n (mem_nodesOf.2 ⟨hn, hv⟩)
    exact hlater p hp (hnorm.symm.trans hsame)
  · -- a row with the alias is there, on a node of the account
    have hrow : ∃ a ∈ (importNode env sup v x (t.nodeEntry u m)).1.aliases,
        a.username = v ∧ a.aliasNorm = norm := by
      obtain ⟨y, hy, rfl⟩ := Finset.mem_image.1 hin
      have hnode : ∃ s' id, node env sup x.1 v m.name m.kind.text true = (s', some id) := by
        rcases node_cases env sup x.1 v m.name m.kind.text with ⟨hnil, -⟩ | ⟨-, id, -, hr⟩ | ⟨-, -, -, hr⟩
        · have hok := ht.node m hm
          exact absurd (hok.norm.trans hnil) hok.norm_ne
        · exact ⟨_, id, hr⟩
        · exact ⟨_, _, hr⟩
      obtain ⟨s', id, hr⟩ := hnode
      obtain ⟨rows, hrows⟩ := addAliases_rows (s := s') (v := v) law id (t.aliasesOf u m.id)
      have hresult : (importNode env sup v x (t.nodeEntry u m)).1.aliases = s'.aliases ++ rows := by
        unfold importNode
        simp only [Tables.nodeEntry, hr, hrows.tables]
      rw [hresult]
      rcases hrows.all y (mem_aliasesOf.2 hy) hne with hmem | ⟨a, ha, hclash⟩
      · exact ⟨_, hmem, rfl, rfl⟩
      · obtain ⟨hav, hay⟩ := law.clash_same _ _ hclash
        exact ⟨a, List.mem_append_left _ ha, hav.symm, hay.symm⟩
    obtain ⟨a, ha, hav, hanorm⟩ := hrow
    obtain ⟨n, hn, hid, -⟩ := own'.aliases a ha hav
    intro hnone
    exact nodeByAlias_eq_none.1 hnone n hn a ha hid.symm hav hanorm

end Portal.Memory
