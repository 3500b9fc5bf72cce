import DgxPlatform.Portal.MemoryGraph
import DgxPlatform.Portal.MemoryRows

/-! # The cap of a memory under concurrent additions

`add_fact` counts the live facts, then finds or creates its nodes, and only then
inserts: the count may be several statements old. `cap_and_refusals`: a memory stays
within the cap as long as every count that lets its call pass leaves room for the calls
that have passed theirs before and have not inserted yet; and a call that changes a
table is never refused.
-/

namespace Portal.Memory

open Run Calls

/-- An addition has been counted in and has not inserted its fact. -/
def Call.pending (c : Call) : Nat :=
  match c.pc with
  | .subject _ _ | .object _ _ _ _ | .expiring _ _ _ | .inserting _ _ _ => 1
  | _ => 0

/-- A count that lets its call pass leaves room for those that have passed before. -/
def leavesRoom (u : String) (s : Conf Tables Call) : Act Request Move Unit → Prop
  | .move i (.query _ _) =>
      match s.calls[i]? with
      | some ⟨_, .counting a⟩ =>
          a.subjectText ≠ [] → a.factText ≠ [] → s.shared.countLive u < memMaxFacts →
            s.shared.countLive u + total Call.pending s.calls < memMaxFacts
      | _ => True
  | _ => True

instance (u : String) (s : Conf Tables Call) (a : Act Request Move Unit) :
    Decidable (leavesRoom u s a) := by
  unfold leavesRoom
  split
  · split <;> infer_instance
  · infer_instance

/-- Only additions to the memory of `u` are begun. -/
def Adds (u : String) : Act Request Move Unit → Prop
  | .enter ⟨v, .addFact _⟩ => v = u
  | .enter _ => False
  | _ => True

instance (u : String) (a : Act Request Move Unit) : Decidable (Adds u a) := by
  unfold Adds
  split <;> infer_instance

/-- A call that `add_fact` has refused. -/
def Call.refused (c : Call) : Prop := ∃ message, c.pc = .ended (.fact message false)

/-- Where an addition can be. -/
def Call.adding (u : String) (c : Call) : Prop :=
  c.username = u ∧
    match c.pc with
    | .counting _ | .subject _ _ | .object _ _ _ _ | .expiring _ _ _ | .inserting _ _ _ => True
    | .ended (.fact _ _) | .ended .failed => True
    | _ => False

/-- An addition that can no longer be refused. -/
def Call.committed (env : Env) (t : Tables) (c : Call) : Prop :=
  match c.pc with
  | .subject a .reread => (t.nodeByNorm c.username (env.norm a.subjectText)).isSome = true
  | .object _ _ _ _ | .expiring _ _ _ | .inserting _ _ _ => True
  | .ended (.fact _ true) | .ended .failed => True
  | _ => False

variable {env : Env} {t t' : Tables} {u : String}

/-! ## One statement of an addition -/

theorem nodeByNorm_mono {norm : List Char} (hnodes : t.nodes <+: t'.nodes)
    (h : (t.nodeByNorm u norm).isSome = true) : (t'.nodeByNorm u norm).isSome = true := by
  obtain ⟨rest, hrest⟩ := hnodes
  simp only [Tables.nodeByNorm, Option.isSome_map] at h ⊢
  rw [← hrest, List.find?_append]
  cases hfound : t.nodes.find? fun n => decide (n.username = u ∧ n.nameNorm = norm) with
  | none =>
    rw [hfound] at h
    cases h
  | some n => rfl

/-- A statement of `node` reads, or inserts a row that is then found by its name. -/
theorem nodeMove_cases {name kind : List Char} {pc pc' : NodePc} {id : Nat} {now : Time}
    (h : nodeMove env t u name kind true pc id now = some (t', pc')) :
    (t' = t ∧ pc' ≠ .reread ∧
      (pc = .reread → pc' = .found (t.nodeByNorm u (env.norm name)))) ∨
    (t'.edges = t.edges ∧ t.nodes <+: t'.nodes ∧ pc' = .reread ∧
      (t'.nodeByNorm u (env.norm name)).isSome = true) := by
  cases pc with
  | byNorm =>
    refine .inl ?_
    simp only [nodeMove] at h
    split at h
    · cases h
      exact ⟨rfl, by simp, by simp⟩
    · split at h <;> cases h <;> exact ⟨rfl, by simp, by simp⟩
  | byAlias =>
    refine .inl ?_
    simp only [nodeMove] at h
    split at h <;> cases h <;> exact ⟨rfl, by simp, by simp⟩
  | insert =>
    refine .inr ?_
    obtain ⟨-, h⟩ := Option.ite_none_right_eq_some.1 h
    cases h
    refine ⟨rfl, List.prefix_append _ _, rfl, ?_⟩
    simp [Tables.nodeByNorm, Tables.insertNode, newNode]
  | reread =>
    cases h
    exact .inl ⟨rfl, by simp, fun _ => rfl⟩
  | found _ => cases h

theorem countLive_of_edges (h : t'.edges = t.edges) : t'.countLive u = t.countLive u := by
  rw [Tables.countLive, h]
  rfl

theorem countLive_insertEdge (e : Edge) :
    (t.insertEdge e).countLive u = t.countLive u + if e.username = u ∧ e.validUntil = none then 1 else 0 := by
  simp [Tables.countLive, Tables.insertEdge, List.countP_append, List.countP_singleton]

/-- What a statement of an addition does: it stays an addition, adds nodes at most, inserts a
fact for one that is pending, and no longer leads to a refusal once it has changed a table. -/
structure AddStep (env : Env) (u : String) (t t' : Tables) (c c' : Call) : Prop where
  adding : c'.adding u
  nodes : t.nodes <+: t'.nodes
  count : t'.countLive u + c'.pending ≤ t.countLive u + c.pending ∨
    (t' = t ∧ ∃ a, c.pc = .counting a ∧ c'.pc = .subject a .byNorm ∧ a.subjectText ≠ [] ∧
      a.factText ≠ [] ∧ t.countLive u < memMaxFacts)
  change : t' = t ∨ c'.committed env t'
  keeps : c.committed env t → c'.committed env t'

theorem adding_afterNodes (a : FactArgs) (src : Nat) (dst : Option Nat) :
    Call.adding u ⟨u, afterNodes a src dst⟩ ∧ Call.pending ⟨u, afterNodes a src dst⟩ = 1 := by
  unfold afterNodes
  split <;> exact ⟨⟨rfl, trivial⟩, rfl⟩

theorem committed_afterNodes (a : FactArgs) (src : Nat) (dst : Option Nat) :
    Call.committed env t ⟨u, afterNodes a src dst⟩ := by
  unfold afterNodes
  split <;> trivial

theorem adding_afterSubject (a : FactArgs) (pc : NodePc) :
    Call.adding u ⟨u, afterSubject a pc⟩ ∧ Call.pending ⟨u, afterSubject a pc⟩ ≤ 1 := by
  cases pc with
  | found id =>
    cases id with
    | none => exact ⟨⟨rfl, trivial⟩, Nat.zero_le 1⟩
    | some src =>
      unfold afterSubject
      dsimp only
      split
      · exact ⟨⟨rfl, trivial⟩, Nat.le_refl 1⟩
      · have hafter := adding_afterNodes (u := u) a src none
        exact ⟨hafter.1, hafter.2.le⟩
  | _ => exact ⟨⟨rfl, trivial⟩, Nat.le_refl 1⟩

theorem committed_afterSubject (a : FactArgs) (src : Nat) :
    Call.committed env t ⟨u, afterSubject a (.found (some src))⟩ := by
  unfold afterSubject
  dsimp only
  split
  · trivial
  · exact committed_afterNodes a src none

theorem adding_afterObject (env : Env) (a : FactArgs) (src : Nat) (obj : List Char) (pc : NodePc) :
    Call.adding u ⟨u, afterObject a src obj pc⟩ ∧ Call.pending ⟨u, afterObject a src obj pc⟩ ≤ 1 ∧
      Call.committed env t ⟨u, afterObject a src obj pc⟩ := by
  cases pc with
  | found dst =>
    have hafter := adding_afterNodes (u := u) a src dst
    exact ⟨hafter.1, hafter.2.le, committed_afterNodes a src dst⟩
  | _ => exact ⟨⟨rfl, trivial⟩, Nat.le_refl 1, trivial⟩

theorem addStep_query {pc pc' : Pc} {id : Nat} {now : Time} (hc : Call.adding u ⟨u, pc⟩)
    (h : query env t u pc id now = some (t', pc')) : AddStep env u t t' ⟨u, pc⟩ ⟨u, pc'⟩ := by
  cases pc with
  | counting a =>
    simp only [query] at h
    split at h
    · cases h
      exact ⟨⟨rfl, trivial⟩, List.prefix_refl _, .inl (Nat.le_refl _), .inl rfl, fun hf => hf.elim⟩
    · next htexts =>
        split at h
        · cases h
          exact ⟨⟨rfl, trivial⟩, List.prefix_refl _, .inl (Nat.le_refl _), .inl rfl,
            fun hf => hf.elim⟩
        · next hroom =>
            cases h
            exact ⟨⟨rfl, trivial⟩, List.prefix_refl _,
              .inr ⟨rfl, a, rfl, rfl, fun h => htexts (.inl h), fun h => htexts (.inr h),
                Nat.lt_of_not_le hroom⟩, .inl rfl, fun hf => hf.elim⟩
  | subject a pc =>
    obtain ⟨⟨t₁, pc₁⟩, hm, heq⟩ := Option.map_eq_some_iff.1 h
    cases heq
    obtain ⟨hadding, hpending⟩ := adding_afterSubject (u := u) a pc₁
    rcases nodeMove_cases hm with ⟨rfl, -, hreread⟩ | ⟨hedges, hnodes, rfl, hfound⟩
    · refine ⟨hadding, List.prefix_refl _, .inl (Nat.add_le_add_left hpending _), .inl rfl, ?_⟩
      -- a row that is there is found again
      intro hcom
      cases pc with
      | reread =>
        obtain ⟨src, hsrc⟩ := Option.isSome_iff_exists.1 hcom
        rw [hreread rfl, hsrc]
        exact committed_afterSubject a src
      | _ => exact hcom.elim
    · exact ⟨hadding, hnodes, .inl (by rw [countLive_of_edges hedges]; exact Nat.le_refl _),
        .inr hfound, fun _ => hfound⟩
  | object a src obj pc =>
    obtain ⟨⟨t₁, pc₁⟩, hm, heq⟩ := Option.map_eq_some_iff.1 h
    cases heq
    obtain ⟨hadding, hpending, hcom⟩ := adding_afterObject (u := u) (t := t₁) env a src obj pc₁
    have hnodes : t.nodes <+: t₁.nodes ∧ t₁.edges = t.edges := by
      rcases nodeMove_cases hm with ⟨rfl, -, -⟩ | ⟨hedges, hnodes, -, -⟩
      · exact ⟨List.prefix_refl _, rfl⟩
      · exact ⟨hnodes, hedges⟩
    refine ⟨hadding, hnodes.1, .inl ?_, .inr hcom, fun _ => hcom⟩
    rw [countLive_of_edges hnodes.2]
    exact Nat.add_le_add_left hpending _
  | expiring a src dst =>
    cases h
    exact ⟨⟨rfl, trivial⟩, List.prefix_refl _,
      .inl (Nat.add_le_add_right (countLive_expire_le _ _ _ _) 1), .inr trivial, fun _ => trivial⟩
  | inserting a src dst =>
    obtain ⟨-, h⟩ := Option.ite_none_right_eq_some.1 h
    cases h
    refine ⟨⟨rfl, trivial⟩, List.prefix_refl _, .inl ?_, .inr trivial, fun _ => trivial⟩
    rw [countLive_insertEdge]
    simp [Call.pending, FactArgs.edge]
  | ended answer => cases h
  | _ => exact hc.2.elim

/-! ## Runs -/

variable {s s' : Conf Tables Call} {i : Nat} {c c' : Call} {acts : List (Act Request Move Unit)}

theorem addStep_move {m : Move} (hc : c.adding u)
    (h : (service env).move t c m = some (t', c')) : AddStep env u t t' c c' := by
  obtain ⟨v, pc⟩ := c
  obtain rfl : v = u := hc.1
  cases m with
  | fail =>
    cases h
    exact ⟨⟨rfl, trivial⟩, List.prefix_refl _,
      .inl (Nat.add_le_add_left (Nat.zero_le _) _), .inl rfl, fun _ => trivial⟩
  | query id now =>
    obtain ⟨⟨t₁, pc₁⟩, hq, heq⟩ := Option.map_eq_some_iff.1 h
    cases heq
    exact addStep_query hc hq

theorem adding_step {a : Act Request Move Unit} (h : ∀ c ∈ s.calls, c.adding u) (ha : Adds u a)
    (hs : (service env).step s a = some s') : ∀ c ∈ s'.calls, c.adding u := by
  cases a with
  | enter r =>
    cases hs
    obtain ⟨v, op⟩ := r
    cases op with
    | addFact a => exact forall_append h ⟨ha, trivial⟩
    | _ => exact ha.elim
  | move i m =>
    obtain ⟨c, sh, c', hc, hm, rfl⟩ := Machine.step_move hs
    exact forall_set h (addStep_move (h c (List.mem_of_getElem? hc)) hm).adding
  | env e =>
    obtain ⟨sh, hsh, -⟩ := Machine.step_env hs
    cases hsh

/-- The live facts, with those that are still to be inserted, are within the cap. -/
structure Within (u : String) (s : Conf Tables Call) : Prop where
  adding : ∀ c ∈ s.calls, c.adding u
  room : s.shared.countLive u + total Call.pending s.calls ≤ memMaxFacts

theorem room_step {a : Act Request Move Unit} (h : ∀ c ∈ s.calls, c.adding u) (ha : Adds u a)
    (hG : leavesRoom u s a)
    (hcap : s.shared.countLive u + total Call.pending s.calls ≤ memMaxFacts)
    (hs : (service env).step s a = some s') :
    s'.shared.countLive u + total Call.pending s'.calls ≤ memMaxFacts := by
  cases a with
  | enter r =>
    cases hs
    obtain ⟨v, op⟩ := r
    cases op with
    | addFact a =>
      rw [total_append_singleton]
      exact hcap
    | _ => exact ha.elim
  | move i m =>
    obtain ⟨c, sh, c', hc, hm, rfl⟩ := Machine.step_move hs
    have hstep := addStep_move (h c (List.mem_of_getElem? hc)) hm
    have htotal := total_set Call.pending hc c'
    dsimp only
    rcases hstep.count with hle | ⟨rfl, a, hpc, hpc', hsubject, hfact, hroom⟩
    · omega
    · -- the count has left room for the call
      have hleft : s.shared.countLive u + total Call.pending s.calls < memMaxFacts := by
        obtain ⟨v, pc⟩ := c
        obtain rfl : pc = .counting a := hpc
        cases m with
        | fail =>
          cases hm
          cases hpc'
        | query id now =>
          simp only [leavesRoom, hc] at hG
          exact hG hsubject hfact hroom
      have hzero : c.pending = 0 := by simp [Call.pending, hpc]
      have hone : c'.pending = 1 := by simp [Call.pending, hpc']
      omega
  | env e =>
    obtain ⟨sh, hsh, -⟩ := Machine.step_env hs
    cases hsh

theorem committed_mono (hnodes : t.nodes <+: t'.nodes) (h : c.committed env t) :
    c.committed env t' := by
  unfold Call.committed at h ⊢
  split at h
  · exact nodeByNorm_mono hnodes h
  all_goals exact h

/-- Call `i` can no longer be refused. -/
def CommittedAt (env : Env) (i : Nat) (s : Conf Tables Call) : Prop :=
  ∃ c, s.calls[i]? = some c ∧ c.committed env s.shared

theorem committedAt_step {a : Act Request Move Unit} (h : ∀ c ∈ s.calls, c.adding u)
    (hi : CommittedAt env i s) (hs : (service env).step s a = some s') : CommittedAt env i s' := by
  obtain ⟨c, hc, hcom⟩ := hi
  cases a with
  | enter r =>
    cases hs
    have hlt : i < s.calls.length := (List.getElem?_eq_some_iff.1 hc).1
    exact ⟨c, by rw [List.getElem?_append_left hlt]; exact hc, hcom⟩
  | move j m =>
    obtain ⟨d, sh, d', hd, hm, rfl⟩ := Machine.step_move hs
    have hstep := addStep_move (h d (List.mem_of_getElem? hd)) hm
    by_cases hij : j = i
    · subst hij
      obtain rfl : c = d := Option.some.inj (hc.symm.trans hd)
      exact ⟨d', by rw [List.getElem?_set_self', hc]; rfl, hstep.keeps hcom⟩
    · exact ⟨c, by rw [List.getElem?_set_ne hij]; exact hc, committed_mono hstep.nodes hcom⟩
  | env e =>
    obtain ⟨sh, hsh, -⟩ := Machine.step_env hs
    cases hsh

theorem not_refused_of_committed (h : c.committed env t) : ¬ c.refused := by
  rintro ⟨message, hpc⟩
  simp [Call.committed, hpc] at h

/-- A call that changes a table is never refused in the rest of the run. -/
def RefusedUntouched (env : Env) (s₀ : Conf Tables Call) (acts : List (Act Request Move Unit)) : Prop :=
  ∀ pre i m rest, acts = pre ++ .move i m :: rest →
    ∀ s s' s'', exec (service env).step s₀ pre = some s →
      (service env).step s (.move i m) = some s' → s'.shared ≠ s.shared →
        exec (service env).step s' rest = some s'' → ∀ c ∈ s''.calls[i]?, ¬ c.refused

theorem refusedUntouched (hadds : ∀ a ∈ acts, Adds u a) :
    RefusedUntouched env (Conf.init t) acts := by
  rintro pre i m rest rfl s s' s'' hpre hs hchanged hrest c hc
  have hinit : ∀ c ∈ (Conf.init t : Conf Tables Call).calls, c.adding u := by
    intro c hc
    cases hc
  have hadding : ∀ c ∈ s.calls, c.adding u :=
    @exec_inv _ _ (service env).step (fun _ a => Adds u a) (fun s => ∀ c ∈ s.calls, c.adding u)
      (fun _ _ _ h ha hs => adding_step h ha hs) _ _ _ hinit
      (meets_of_labels fun a ha => hadds a (List.mem_append_left _ ha)) hpre
  -- the move commits its call
  have hcommitted : CommittedAt env i s' := by
    obtain ⟨d, sh, d', hd, hm, rfl⟩ := Machine.step_move hs
    refine ⟨d', by rw [List.getElem?_set_self', hd]; rfl, ?_⟩
    exact (addStep_move (hadding d (List.mem_of_getElem? hd)) hm).change.resolve_left hchanged
  have hend := @exec_inv _ _ (service env).step (fun _ a => Adds u a)
    (fun s => (∀ c ∈ s.calls, c.adding u) ∧ CommittedAt env i s)
    (fun _ _ _ h ha hs => ⟨adding_step h.1 ha hs, committedAt_step h.1 h.2 hs⟩) _ _ _
    ⟨adding_step hadding (hadds _ (by simp)) hs, hcommitted⟩
    (meets_of_labels fun a ha => hadds a (by simp [ha])) hrest
  obtain ⟨d, hd, hcom⟩ := hend.2
  obtain rfl : c = d := Option.some.inj ((Option.mem_def.1 hc).symm.trans hd)
  exact not_refused_of_committed hcom

/-- Additions to the memory of one account, at or below its cap: it stays within the cap in
every state of a run in which every count that lets its call pass leaves room for those that
have passed before; and in any run a call that changes a table is never refused. -/
theorem cap_and_refusals (env : Env) (u : String) (t : Tables) (hcap : t.countLive u ≤ memMaxFacts)
    (acts : List (Act Request Move Unit)) (hadds : ∀ a ∈ acts, Adds u a) :
    (Meets (service env).step (leavesRoom u) (Conf.init t) acts →
      Always (service env).step (fun s => s.shared.countLive u ≤ memMaxFacts) (Conf.init t) acts) ∧
    RefusedUntouched env (Conf.init t) acts := by
  refine ⟨fun hroom => ?_, refusedUntouched hadds⟩
  refine always_of_meets (fun s h => (Nat.le_add_right _ _).trans (Within.room h))
    (fun _ _ _ h hG hs => ⟨adding_step h.adding hG.1 hs, room_step h.adding hG.1 hG.2 h.room hs⟩)
    ⟨?_, ?_⟩ (meets_of_forall hadds hroom)
  · intro c hc
    cases hc
  · exact hcap

/-! ## A memory one below its cap -/

/-- 399 live facts about one subject. -/
def almostFull : Tables where
  nodes := [⟨0, "u", "bob".toList, "bob".toList, .subject, 0⟩]
  edges := (List.range 399).map fun k => teaFact.edge "u" 0 none k 0
  aliases := []

theorem countLive_almostFull : almostFull.countLive "u" = 399 := by
  simp [Tables.countLive, almostFull, List.countP_map, Function.comp_def, FactArgs.edge]

/-- Two additions one after the other: the second one is refused. -/
def inSequence : List (Act Request Move Unit) :=
  [.enter ⟨"u", .addFact teaFact⟩, .enter ⟨"u", .addFact teaFact⟩,
    .move 0 (.query 0 0), .move 0 (.query 0 0), .move 0 (.query 400 0), .move 1 (.query 0 0)]

theorem cap_kept_inSequence :
    Always (service plainEnv).step (fun s => s.shared.countLive "u" ≤ memMaxFacts)
      (Conf.init almostFull) inSequence :=
  (cap_and_refusals plainEnv "u" almostFull (by rw [countLive_almostFull]; decide) inSequence
    (by decide)).1 (by decide +kernel)

/-- Both are counted before either inserts. -/
def together : List (Act Request Move Unit) :=
  [.enter ⟨"u", .addFact teaFact⟩, .enter ⟨"u", .addFact teaFact⟩,
    .move 0 (.query 0 0), .move 1 (.query 0 0), .move 0 (.query 0 0), .move 1 (.query 0 0),
    .move 0 (.query 400 0), .move 1 (.query 401 0)]

theorem cap_passed :
    almostFull.countLive "u" ≤ memMaxFacts ∧
      ¬ Always (service plainEnv).step (fun s => s.shared.countLive "u" ≤ memMaxFacts)
        (Conf.init almostFull) together := by
  refine ⟨by rw [countLive_almostFull]; decide, fun h => ?_⟩
  have hmap : (exec (service plainEnv).step (Conf.init almostFull) together).map
      (fun s => s.shared.countLive "u") = some 401 := by decide +kernel
  obtain ⟨s, hs, hcount⟩ := Option.map_eq_some_iff.1 hmap
  have hend := h together (List.prefix_refl _) s hs
  have hle : s.shared.countLive "u" ≤ memMaxFacts := hend
  rw [hcount] at hle
  revert hle
  decide

end Portal.Memory
