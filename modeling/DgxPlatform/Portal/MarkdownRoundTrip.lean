import DgxPlatform.Portal.MarkdownExport
import DgxPlatform.Portal.MemoryGraph

/-! # The Markdown export, read back

Names, aliases and facts in the tables of a memory in use are what `Exportable` says.
Where an account has only added facts and aliases, every subject without a fact is the
object of one (`Held`), so that no name of several lines is left that no fact has. With
both, `markdown_readable_iff` says for which accounts the export is read back: the writer
escapes nothing, and a subject that ends in `#`, an object with a colon, a relation with a
star, a second alias or a line boundary is enough to lose a fact or an alias.
-/

namespace Portal.Memory

open Accounts (pyIsSpace pyStrip)
open Run

variable {t : Tables} {u : String}

/-! ## Normalised aliases -/

section
variable {uni : Unicode}

theorem mem_spaced {inGap : Bool} {t : List Char} {c : Char} (h : c ∈ spaced uni inGap t) :
    c = ' ' ∨ pyIsSpace c = false := by
  have hword : ∀ d, isWord uni d = true → pyIsSpace d = false := fun d hd =>
    Bool.eq_false_iff.2 fun hblank => by rw [isWord_of_blank hblank] at hd; cases hd
  induction t generalizing inGap with
  | nil => cases h
  | cons d t ih =>
    unfold spaced at h
    split at h
    · next hd =>
        rcases List.mem_cons.1 h with rfl | h
        · exact .inr (hword c hd)
        · exact ih h
    split at h
    · exact ih h
    · rcases List.mem_cons.1 h with rfl | h
      · exact .inl rfl
      · exact ih h

/-- No white space in front, and no other than the space. -/
structure Neat (t : List Char) : Prop where
  head : ∀ c ∈ t.head?, Text.isWhitespace c = false
  mem : ∀ c ∈ t, c = ' ' ∨ pyIsSpace c = false

theorem collapsed_neat {pending : Bool} {out t : List Char} (hout : Neat out)
    (ht : ∀ c ∈ t, c = ' ' ∨ pyIsSpace c = false) : Neat (collapsed pending out t) := by
  induction t generalizing pending out with
  | nil => exact hout
  | cons c t ih =>
    obtain ⟨hc, ht⟩ := List.forall_mem_cons.1 ht
    unfold collapsed
    split
    · exact ih hout ht
    · next hw =>
        have hw : Text.isWhitespace c = false := by simpa using hw
        refine ih ⟨?_, ?_⟩ ht
        · cases out with
          | nil =>
            rw [if_neg (by simp), List.nil_append]
            rintro d ⟨⟩
            exact hw
          | cons d out =>
            have hhead := hout.head
            split <;> exact hhead
        · intro d hd
          rcases List.mem_append.1 hd with hd | hd
          · split at hd
            · rcases List.mem_append.1 hd with hd | hd
              · exact hout.mem d hd
              · exact .inl (List.mem_singleton.1 hd)
            · exact hout.mem d hd
          · rw [List.mem_singleton.1 hd]
            exact hc

theorem memNorm_neat (name : List Char) : Neat (memNorm uni name) := by
  have hcore : Neat (normCore uni (Text.trim name)) := by
    refine collapsed_neat ⟨nofun, nofun⟩ ?_
    intro c hc
    obtain ⟨d, hd, rfl⟩ := List.mem_map.1 hc
    split
    · exact .inl rfl
    · exact mem_spaced hd
  refine ⟨?_, fun c hc => hcore.mem c (List.mem_of_mem_take hc)⟩
  intro c hc
  refine hcore.head c ?_
  rw [memNorm, List.head?_take] at hc
  exact hc

theorem pyIsSpace_of_isLineEnd {c : Char} (h : isLineEnd c = true) : pyIsSpace c = true := by
  simp only [isLineEnd, anyOf, List.contains_eq_mem, decide_eq_true_eq, List.mem_cons,
    List.not_mem_nil, or_false] at h
  rcases h with rfl | rfl | rfl | rfl | rfl | rfl | rfl | rfl | rfl | rfl <;> decide

theorem Neat.oneLine {t : List Char} (h : Neat t) : OneLine t := by
  intro c hc
  by_contra hend
  have hend : isLineEnd c = true := by simpa using hend
  rcases h.mem c hc with rfl | hspace
  · cases hend
  · rw [pyIsSpace_of_isLineEnd hend] at hspace
    cases hspace

theorem Neat.strip_iff {t : List Char} (h : Neat t) : pyStrip t = t ↔ t.getLast? ≠ some ' ' := by
  unfold pyStrip
  rw [Text.trimMatches_eq_self_iff]
  constructor
  · rintro ⟨-, hlast⟩ heq
    cases hlast ' ' heq
  · intro hne
    refine ⟨?_, ?_⟩
    · intro c hc
      rcases h.mem c (List.mem_of_head? hc) with rfl | hspace
      · cases h.head ' ' hc
      · exact hspace
    · intro c hc
      rcases h.mem c (List.mem_of_getLast? hc) with rfl | hspace
      · exact absurd hc hne
      · exact hspace

end

/-- Every alias is a normalised name. -/
def Normed (env : Env) (t : Tables) : Prop :=
  ∀ a ∈ t.aliases, a.aliasNorm ≠ [] ∧ ∃ name, a.aliasNorm = env.norm name

section
variable {env : Env} {sup : Supply} {t' : Tables}

theorem Normed.node (h : Normed env t) (name kind : List Char) :
    Normed env (Memory.node env sup t u name kind true).1 :=
  node_kept (Q := Normed env) h fun _ _ _ => h

theorem Normed.addAlias (h : Normed env t) (id : Nat) (other : List Char) :
    Normed env (Memory.addAlias env t u id other) := by
  unfold Memory.addAlias Tables.insertAlias
  split
  · exact h
  next hne =>
  split
  · exact h
  · refine List.forall_mem_append.2 ⟨h, ?_⟩
    intro a ha
    rw [List.mem_singleton.1 ha]
    exact ⟨hne, other, rfl⟩

theorem Normed.addAliases (h : Normed env t) (id : Nat) (others : List (List Char)) :
    Normed env (Memory.addAliases env t u id others) :=
  List.foldlRecOn (motive := Normed env) _ _ h fun _ h other _ => h.addAlias id other

theorem Normed.addFact (h : Normed env t) (a : FactArgs) : Normed env (Memory.addFact env sup t u a).1 := by
  have hsubject : Normed env (Memory.node env sup t u a.subjectText a.kindText true).1 := h.node _ _
  rcases addFact_cases env sup t u a with hr | hr | ⟨src, -, -, -, hr⟩
  · rw [hr]
    exact h
  · rw [hr]
    exact hsubject
  · rw [hr]
    unfold Normed
    rw [(writeFact_nodes _ _ _ _ _ _).2]
    cases a.objText with
    | none => exact hsubject
    | some o => exact hsubject.node o _

theorem Normed.graphStep (h : Normed env t) {op : GraphOp × Supply}
    (hstep : Memory.graphStep env t op = some t') : Normed env t' := by
  obtain ⟨op, sup⟩ := op
  unfold Memory.graphStep at hstep
  cases op with
  | addFact u a =>
    cases hstep
    exact h.addFact a
  | updateFact u id fact relation =>
    cases hstep
    rw [updateFact_eq]
    split <;> exact h
  | forget u id =>
    cases hstep
    exact h
  | addAlias u id other =>
    dsimp only at hstep
    split at hstep
    · cases hstep
      exact h.addAlias id other
    · cases hstep
  | importDoc u doc =>
    dsimp only at hstep
    unfold apiMemoryImport at hstep
    split at hstep
    · next r hr =>
        cases hstep
        split at hr
        · cases hr
        · next nodes edges hdoc =>
            cases hr
            refine List.foldlRecOn (motive := fun x : Tables × Nat => Normed env x.1) _ _ ?_ ?_
            · refine List.foldlRecOn (motive := fun x : Tables × Nat => Normed env x.1) _ _ h ?_
              intro x hx n _
              rcases importNode_cases env sup u x n with hr | ⟨id, -, hr⟩
              · rw [hr]
                exact hx.node _ _
              · rw [hr]
                exact (hx.node _ _).addAliases id _
            · intro x hx f _
              rcases importFact_cases env sup u x f with hr | hr
              · rw [hr]
                exact hx
              · rw [hr]
                exact hx.addFact _
    · cases hstep
      exact h

end

/-! ## Accounts that only add -/

/-- `add_fact` or `add_alias`. -/
def GraphOp.IsAdd : GraphOp → Prop
  | .addFact _ _ => True
  | .addAlias _ _ _ => True
  | _ => False

instance (op : GraphOp) : Decidable op.IsAdd := by
  unfold GraphOp.IsAdd
  split <;> infer_instance

/-- A live fact is about the node. -/
def Tables.Mentions (t : Tables) (n : Node) : Prop :=
  ∃ e ∈ t.edges, e.username = n.username ∧ e.validUntil = none ∧ (e.src = n.id ∨ e.dst = some n.id)

/-- Where nothing was forgotten or imported, a live fact is about every node. -/
structure Held (t : Tables) : Prop where
  sound : Sound t
  mentions : ∀ n ∈ t.nodes, t.Mentions n

section
variable {env : Env} {sup : Supply} {t' : Tables}

theorem Sound.own (h : Sound t) (u : String) : OwnLinks t u where
  src e he hu := hu ▸ h.src e he
  dst e he hu := hu ▸ h.dst e he
  aliases a ha hu := hu ▸ h.aliases a ha

theorem Sound.node (h : Sound t) (name kind : List Char) :
    Sound (Memory.node env sup t u name kind true).1 :=
  node_kept (Q := Sound) h fun _ _ _ => h.insertNode _

theorem mem_node_nodes {name kind : List Char} {n : Node}
    (hn : n ∈ (node env sup t u name kind true).1.nodes) :
    n ∈ t.nodes ∨ n.username = u ∧ (node env sup t u name kind true).2 = some n.id := by
  rcases node_cases env sup t u name kind with ⟨-, hr⟩ | ⟨-, id, -, hr⟩ | ⟨-, -, -, hr⟩
  · rw [hr] at hn
    exact .inl hn
  · rw [hr] at hn
    exact .inl hn
  · rw [hr] at hn ⊢
    rcases List.mem_append.1 hn with hold | hnew
    · exact .inl hold
    · rw [List.mem_singleton.1 hnew]
      exact .inr ⟨rfl, rfl⟩

theorem node_none {name kind : List Char} (h : (node env sup t u name kind true).2 = none) :
    (node env sup t u name kind true).1 = t := by
  rcases node_cases env sup t u name kind with ⟨-, hr⟩ | ⟨-, id, -, hr⟩ | ⟨-, -, -, hr⟩
  · rw [hr]
  · rw [hr]
  · rw [hr] at h
    cases h

/-- The last statements of `add_fact`: a fact that is expired is replaced by one about the same
nodes. -/
theorem Tables.Mentions.writeFact {s : Tables} {a : FactArgs} {src : Nat} {dst : Option Nat} {n : Node}
    (h : s.Mentions n ∨ n.username = u ∧ (src = n.id ∨ dst = some n.id)) :
    (Memory.writeFact sup s u a src dst).Mentions n := by
  have hnew : n.username = u ∧ (src = n.id ∨ dst = some n.id) →
      (Memory.writeFact sup s u a src dst).Mentions n := by
    rintro ⟨hu, hid⟩
    unfold Memory.writeFact
    exact ⟨_, List.mem_append_right _ (List.mem_singleton.2 rfl), hu.symm, rfl, hid⟩
  rcases h with ⟨e, he, hu, hlive, hid⟩ | h
  · by_cases heq : Tables.equivalent u src a.relationText dst e = true
    · obtain ⟨heu, hsrc, -, -, hdst⟩ := of_decide_eq_true heq
      exact hnew ⟨hu.symm.trans heu, hsrc ▸ hdst ▸ hid⟩
    · unfold Memory.writeFact
      split
      · exact ⟨e, List.mem_append_left _ (List.mem_map.2 ⟨e, he, if_neg heq⟩), hu, hlive, hid⟩
      · exact ⟨e, List.mem_append_left _ he, hu, hlive, hid⟩
  · exact hnew h

theorem Sound.writeFact {s : Tables} (h : Sound s) {src : Nat} {dst : Option Nat} (hsrc : s.has u src)
    (hdst : ∀ d ∈ dst, s.has u d) (a : FactArgs) : Sound (Memory.writeFact sup s u a src dst) := by
  unfold Memory.writeFact
  split
  · exact (sound_insertEdge (h.expire _ _ _ _) _).2 ⟨hsrc, hdst⟩
  · exact (sound_insertEdge h _).2 ⟨hsrc, hdst⟩

theorem Held.addFact (h : Held t) (a : FactArgs) : Held (Memory.addFact env sup t u a).1 := by
  obtain ⟨-, hid⟩ := (h.sound.own u).node env sup a.subjectText a.kindText
  have hsubject := @Sound.node t u env sup h.sound a.subjectText a.kindText
  have hnodes : ∀ n ∈ (Memory.node env sup t u a.subjectText a.kindText true).1.nodes, _ :=
    fun n hn => mem_node_nodes hn
  have hedges := @node_edges env sup t u a.subjectText a.kindText
  have hnone := @node_none t u env sup a.subjectText a.kindText
  unfold Memory.addFact
  split
  · exact h
  split
  · exact h
  generalize Memory.node env sup t u a.subjectText a.kindText true = r at *
  obtain ⟨t₁, src⟩ := r
  cases src with
  | none =>
    obtain rfl : t₁ = t := hnone rfl
    exact h
  | some src =>
    obtain ⟨-, hdst, hsrc⟩ := (hsubject.own u).objectNode env sup (hid src rfl) a.objText
    have hobject : Sound (objectNode env sup t₁ u a.objText).1 := by
      cases a.objText with
      | none => exact hsubject
      | some o => exact hsubject.node o _
    refine ⟨hobject.writeFact hsrc hdst a, ?_⟩
    intro n hn
    rw [(writeFact_nodes _ _ _ _ _ _).1] at hn
    refine Tables.Mentions.writeFact ?_
    -- the node was there, or it is the subject's, or the object's
    have hwhere : n ∈ t.nodes ∨ n.username = u ∧
        (src = n.id ∨ (objectNode env sup t₁ u a.objText).2 = some n.id) := by
      have hfirst : n ∈ t₁.nodes → n ∈ t.nodes ∨ n.username = u ∧
          (src = n.id ∨ (objectNode env sup t₁ u a.objText).2 = some n.id) := by
        intro hn
        rcases hnodes n hn with hold | ⟨hu, hsome⟩
        · exact .inl hold
        · exact .inr ⟨hu, .inl (Option.some.inj hsome)⟩
      cases ho : a.objText with
      | none =>
        rw [ho] at hn hfirst
        exact hfirst hn
      | some o =>
        rw [ho] at hn hfirst
        rcases mem_node_nodes hn with hold | ⟨hu, hsome⟩
        · exact hfirst hold
        · exact .inr ⟨hu, .inr hsome⟩
    rcases hwhere with hold | hnew
    · refine .inl ?_
      unfold Tables.Mentions
      rw [objectNode_edges, hedges]
      exact h.mentions n hold
    · exact .inr hnew

theorem Held.graphStep (h : Held t) {op : GraphOp × Supply} (hadds : op.1.IsAdd)
    (hstep : Memory.graphStep env t op = some t') : Held t' := by
  obtain ⟨op, sup⟩ := op
  unfold Memory.graphStep at hstep
  cases op with
  | addFact u a =>
    cases hstep
    exact h.addFact a
  | addAlias u id other =>
    dsimp only at hstep
    split at hstep
    · next hid =>
        cases hstep
        have hnodes : (Memory.addAlias env t u id other).nodes = t.nodes ∧
            (Memory.addAlias env t u id other).edges = t.edges := by
          unfold Memory.addAlias Tables.insertAlias
          split
          · exact ⟨rfl, rfl⟩
          · split <;> exact ⟨rfl, rfl⟩
        refine ⟨?_, ?_⟩
        · unfold Memory.addAlias
          split
          · exact h.sound
          · exact (sound_insertAlias h.sound _).2 fun _ => hid
        · unfold Tables.Mentions
          rw [hnodes.1, hnodes.2]
          exact h.mentions
    · cases hstep
  | updateFact u id fact relation => exact hadds.elim
  | forget u id => exact hadds.elim
  | importDoc u doc => exact hadds.elim

theorem exec_held {ops : List (GraphOp × Supply)} (hadds : ∀ op ∈ ops, op.1.IsAdd)
    (hrun : exec (Memory.graphStep env) ⟨[], [], []⟩ ops = some t) : Held t :=
  have hinit : Held ⟨[], [], []⟩ :=
    ⟨⟨List.forall_mem_nil _, List.forall_mem_nil _, List.forall_mem_nil _⟩, List.forall_mem_nil _⟩
  @exec_inv _ _ _ (fun _ op => op.1.IsAdd) Held (fun _ _ _ h hG hs => h.graphStep hG hs) _ _ _ hinit
    (meets_of_labels hadds) hrun

/-- Without another use than to add, a subject without a fact is the object of one. -/
theorem Held.rest (hwf : Wf env t) (h : Held t) (hlines : ∀ f ∈ t.exportedFacts u, f.md.OneLine) :
    ∀ n ∈ t.mdOrphans u, OneLine n.name := by
  intro n hn
  obtain ⟨hmem, horphan⟩ := List.mem_filter.1 hn
  obtain ⟨hnode, rfl⟩ := mem_exportedNodes.1 hmem
  obtain ⟨e, he, hu, hlive, hid⟩ := h.mentions n hnode
  obtain ⟨m, hm, object, hsrc, hobject, hview⟩ := (h.sound.own n.username).factView hwf he hu
  have hfact : ⟨m.name, e.relation, object, e.fact, e.source⟩ ∈ t.exportedFacts n.username :=
    (exportedFacts_perm t n.username).mem_iff.2
      (List.mem_filterMap.2 ⟨e, List.mem_filter.2 ⟨he, decide_eq_true ⟨hu, hlive⟩⟩, hview⟩)
  rcases hid with hid | hid
  · -- it would be a subject with a fact
    obtain rfl := hwf.eq_of_id (mem_nodesOf.1 hm).1 hnode (hsrc.trans hid)
    have hsome : (t.exportedFacts m.username).any (fun f => f.subject = m.name) = true :=
      List.any_eq_true.2 ⟨_, hfact, decide_eq_true rfl⟩
    rw [hsome] at horphan
    cases horphan
  · rcases hobject with ⟨-, hnone⟩ | ⟨o, ho, rfl, hsome⟩
    · rw [hnone] at hid
      cases hid
    · rw [hsome] at hid
      obtain rfl := hwf.eq_of_id (mem_nodesOf.1 ho).1 hnode (Option.some.inj hid)
      exact (hlines _ hfact).obj o.name rfl

theorem Node.Ok.stripped (law : env.Law) {n : Node} (h : n.Ok env) : Stripped n.name := by
  refine ⟨h.strip, ?_⟩
  intro hnil
  refine h.norm_ne ?_
  rw [h.norm, hnil, law.norm_nil]

end

/-- The tables of a memory in use, when no relation and no text was cut behind white space. -/
theorem exportable {uni : Unicode} {keyHasNode : Bool} (hwf : Wf (memEnv uni keyHasNode) t)
    (hnormed : Normed (memEnv uni keyHasNode) t)
    (hwritten : ∀ f ∈ t.exportedFacts u, pyStrip f.relation = f.relation ∧ pyStrip f.fact = f.fact) :
    Exportable t u := by
  have law := memEnv_law uni keyHasNode
  have hnode : ∀ id n, t.nodeById id = some n → Stripped n.name := fun id n hn =>
    (hwf.node n (List.mem_of_find?_eq_some hn)).stripped law
  have hview : ∀ f ∈ t.exportedFacts u, Stripped f.subject ∧ ∀ o ∈ f.object, Stripped o := by
    intro f hf
    obtain ⟨e, -, hview⟩ := List.mem_filterMap.1 hf
    obtain ⟨n, hn, rfl⟩ := Option.map_eq_some_iff.1 hview
    refine ⟨hnode _ n hn, ?_⟩
    intro o ho
    obtain ⟨m, hm, rfl⟩ := Option.map_eq_some_iff.1 ho
    obtain ⟨d, -, hd⟩ := Option.bind_eq_some_iff.1 hm
    exact hnode d m hd
  refine ⟨fun f hf => (hview f hf).1, fun f hf => (hview f hf).2, fun f hf => (hwritten f hf).1,
    fun f hf => ⟨(hwritten f hf).2, (hwf.exportedFact_ok f hf).fact_ne⟩, ?_, ?_⟩
  · refine hwf.exportedNodes_sorted.imp ?_
    intro m n hlt heq
    rw [heq] at hlt
    exact List.lt_irrefl _ hlt
  · intro n _ a ha
    obtain ⟨row, hrow, -, -, rfl⟩ := mem_aliasSet.1 (mem_aliasesOf.1 ha)
    obtain ⟨hne, name, hname⟩ := hnormed row hrow
    have hneat : Neat row.aliasNorm := by
      rw [hname]
      exact memNorm_neat name
    exact ⟨⟨hne, hneat.oneLine, hneat.head⟩, hneat.strip_iff⟩

/-! ## The export, read back -/

/-- The Markdown export of an account whose facts were written from stripped texts is read
back exactly when it is readable. A name of several lines that no fact mentions, which only
an import or a forgotten fact leaves behind, is left out. -/
theorem markdown_readable_iff (uni : Unicode) (keyHasNode : Bool) (digit : Char → Bool)
    {ops : List (GraphOp × Supply)}
    (hrun : exec (graphStep (memEnv uni keyHasNode)) ⟨[], [], []⟩ ops = some t) (u : String)
    {exportedAt platform : List Char} (hat : OneLine exportedAt) (hplatform : OneLine platform)
    (hwritten : ∀ f ∈ t.exportedFacts u, pyStrip f.relation = f.relation ∧ pyStrip f.fact = f.fact)
    (hrest : (∀ op ∈ ops, op.1.IsAdd) ∨ ∀ n ∈ t.mdOrphans u, OneLine n.name) :
    mdParse uni.lowercase digit (exportMarkdown uni.lowercase (exportDoc t u exportedAt) platform) =
        (t.mdFacts uni.lowercase u, t.mdAliases uni.lowercase u) ↔
      Readable uni.lowercase t u := by
  have hwf := exec_wf (memEnv_law uni keyHasNode) hrun
  have hinit : Normed (memEnv uni keyHasNode) ⟨[], [], []⟩ := List.forall_mem_nil _
  have hnormed : Normed (memEnv uni keyHasNode) t :=
    exec_kept (fun _ _ _ h hstep => h.graphStep hstep) hinit hrun
  refine (exportable hwf hnormed hwritten).mdParse_iff uni.lowercase digit hplatform hat ?_
  intro hlines n hn
  rcases hrest with hadds | hrest
  · exact (exec_held hadds hrun).rest hwf hlines n hn
  · exact hrest n hn

theorem HasBold.star {t : List Char} (h : HasBold t) : '*' ∈ t := by
  obtain ⟨x, -, hx⟩ := h
  exact hx.subset List.mem_cons_self

/-- The export of `keptTables` comes back. -/
theorem markdown_readable_kept :
    mdParse Text.asciiLowercase Char.isDigit
        (exportMarkdown Text.asciiLowercase (exportDoc keptTables "ada" "2026-01-02T03:04:05".toList)
          "DGX".toList) =
      (keptTables.mdFacts Text.asciiLowercase "ada", keptTables.mdAliases Text.asciiLowercase "ada") ∧
    Readable Text.asciiLowercase keptTables "ada" := by
  have hrun : exec (graphStep (memEnv asciiUnicode false)) ⟨[], [], []⟩ keptOps = some keptTables := by
    decide +kernel
  have hfact : ∀ f ∈ keptTables.exportedFacts "ada",
      f = ⟨"vLLM".toList, "runs on".toList, some "DGX Spark".toList, "vLLM 0.6 runs on it".toList, .user⟩ := by
    intro f hf
    have hviews : keptTables.views "ada" = [⟨"vLLM".toList, "runs on".toList, some "DGX Spark".toList,
        "vLLM 0.6 runs on it".toList, .user⟩] := by decide +kernel
    rwa [(exportedFacts_perm keptTables "ada").mem_iff, hviews, List.mem_singleton] at hf
  have hreadable : Readable Text.asciiLowercase keptTables "ada" := by
    refine ⟨?_, ?_⟩
    · intro f hf
      rw [hfact f hf]
      refine ⟨⟨by decide, by decide, by decide, by decide⟩, by decide, by decide, ⟨by decide, by decide, ?_⟩⟩
      exact fun h => absurd h.star (by decide)
    · intro n _ _
      have haliases : ∀ a ∈ keptTables.aliasesOf "ada" n.id, a = "the engine".toList := by
        intro a ha
        obtain ⟨row, hrow, -, -, rfl⟩ := mem_aliasSet.1 (mem_aliasesOf.1 ha)
        rw [List.mem_singleton.1 hrow]
      refine ⟨?_, ?_⟩
      · unfold Tables.aliasesOf
        rw [List.length_map]
        exact (List.length_filter_le _ _).trans ((List.length_mergeSort _).trans_le (by decide))
      · intro a ha
        rw [haliases a ha]
        decide
  refine ⟨(markdown_readable_iff asciiUnicode false Char.isDigit hrun "ada" (by decide) (by decide)
    ?_ (.inl (by decide))).2 hreadable, hreadable⟩
  intro f hf
  rw [hfact f hf]
  exact ⟨by decide, by decide⟩

/-- A fact about a subject whose name ends in a mark of a heading. -/
def sharpOps : List (GraphOp × Supply) :=
  [(.addFact "ada" (factArgs "C#" "version" "12 at work" none), nextIds 1)]

def sharpTables : Tables where
  nodes := [⟨1, "ada", "C#".toList, "c".toList, .subject, 1⟩]
  edges := [⟨1, "ada", 1, "version".toList, none, "12 at work".toList, .user, 1, none⟩]
  aliases := []

/-- It comes back as a fact about another subject. -/
theorem sharp_subject_cut :
    exec (graphStep (memEnv asciiUnicode false)) ⟨[], [], []⟩ sharpOps = some sharpTables ∧
      (∀ f ∈ sharpTables.exportedFacts "ada", pyStrip f.relation = f.relation ∧ pyStrip f.fact = f.fact) ∧
      mdParse Text.asciiLowercase Char.isDigit
          (exportMarkdown Text.asciiLowercase (exportDoc sharpTables "ada" []) "DGX".toList) =
        ([⟨"C".toList, "version".toList, none, "12 at work".toList⟩], []) ∧
      sharpTables.mdFacts Text.asciiLowercase "ada" =
        [⟨"C#".toList, "version".toList, none, "12 at work".toList⟩] ∧
      mdParse Text.asciiLowercase Char.isDigit
          (exportMarkdown Text.asciiLowercase (exportDoc sharpTables "ada" []) "DGX".toList) ≠
        (sharpTables.mdFacts Text.asciiLowercase "ada", sharpTables.mdAliases Text.asciiLowercase "ada") := by
  have hfacts : sharpTables.exportedFacts "ada" =
      [⟨"C#".toList, "version".toList, none, "12 at work".toList, .user⟩] := by
    have hviews : sharpTables.views "ada" =
        [⟨"C#".toList, "version".toList, none, "12 at work".toList, .user⟩] := by decide +kernel
    exact List.perm_singleton.1 (hviews ▸ exportedFacts_perm sharpTables "ada")
  have hnodes : sharpTables.exportedNodes "ada" = sharpTables.nodes :=
    List.perm_singleton.1 (exportedNodes_perm sharpTables "ada")
  have horder : sharpTables.mdOrder Text.asciiLowercase "ada" = ["C#".toList] := by
    unfold Tables.mdOrder mdSubjects sortByLower
    rw [hfacts]
    exact List.mergeSort_singleton _
  have hwritten : ∀ f ∈ sharpTables.exportedFacts "ada",
      pyStrip f.relation = f.relation ∧ pyStrip f.fact = f.fact := by
    rw [hfacts]
    decide
  have hrun : exec (graphStep (memEnv asciiUnicode false)) ⟨[], [], []⟩ sharpOps = some sharpTables := by
    decide +kernel
  have hblocks : sharpTables.mdBlocks Text.asciiLowercase "ada" =
      [⟨"C#".toList, [], [⟨"C#".toList, "version".toList, none, "12 at work".toList, .user⟩]⟩] := by
    have haliases : ∀ id, sharpTables.aliasesOf "ada" id = [] := fun id => by
      simp [Tables.aliasesOf, sharpTables]
    unfold Tables.mdBlocks
    rw [horder, hfacts, hnodes]
    simp only [haliases]
    rfl
  have hparse : mdParse Text.asciiLowercase Char.isDigit
        (exportMarkdown Text.asciiLowercase (exportDoc sharpTables "ada" []) "DGX".toList) =
      ([⟨"C".toList, "version".toList, none, "12 at work".toList⟩], []) := by
    have hexport : Exportable sharpTables "ada" :=
      exportable (exec_wf (memEnv_law asciiUnicode false) hrun) (List.forall_mem_nil _) hwritten
    rw [hexport.mdParse_export _ _ (by decide) (by decide), hblocks]
    · decide +kernel
    · rw [hfacts]
      exact List.forall_mem_singleton.2 ⟨by decide, by decide, fun _ h => absurd h (Option.not_mem_none _), by decide⟩
    · unfold Tables.mdOrphans
      rw [hfacts, hnodes]
      decide +kernel
  have hmd : sharpTables.mdFacts Text.asciiLowercase "ada" =
      [⟨"C#".toList, "version".toList, none, "12 at work".toList⟩] := by
    unfold Tables.mdFacts
    rw [horder, hfacts]
    decide
  refine ⟨hrun, hwritten, hparse, hmd, ?_⟩
  rw [hparse, hmd]
  intro heq
  exact absurd (Prod.mk.inj heq).1 (by decide)

end Portal.Memory
