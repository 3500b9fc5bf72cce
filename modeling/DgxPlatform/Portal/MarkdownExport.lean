import DgxPlatform.Portal.MarkdownFile

/-! # The Markdown export of the tables

An export is some lines in front, a block for each subject with a fact, and the other
subjects as bullets under a last heading (`mdLines_exportDoc`). Of these only the blocks
say anything (`mdParse_export`), so an export of tables that are as `Exportable` says is
read back exactly when it is `Readable` (`mdParse_iff`).
-/

namespace Portal.Memory

open Accounts (pyStrip)

variable {L : Text.Lowercase} {digit : Char → Bool} {t : Tables} {u : String}

/-! ## What should come back -/

section
variable (L : Text.Lowercase) (t : Tables) (u : String)

/-- The subjects of the live facts, in the exporter's order. -/
def Tables.mdOrder : List (List Char) := mdSubjects L ((t.exportedFacts u).map FactView.subject)

/-- The facts, grouped by subject. -/
def Tables.mdFacts : List MdFact :=
  (t.mdOrder L u).flatMap fun s =>
    ((t.exportedFacts u).filter fun f => f.subject = s).map FactView.md

/-- The aliases of the subjects with a fact. -/
def Tables.mdAliases : List (List Char × List Char) :=
  (t.mdOrder L u).flatMap fun s =>
    ((t.exportedNodes u).filter fun n => n.name = s).flatMap fun n =>
      (t.aliasesOf u n.id).map fun a => (s, a)

/-- The blocks of the export. -/
def Tables.mdBlocks : List Block :=
  (t.mdOrder L u).map fun s =>
    { subject := s
      aliases := ((t.exportedNodes u).filter fun n => n.name = s).getLast?.toList.flatMap fun n =>
        t.aliasesOf u n.id
      facts := (t.exportedFacts u).filter fun f => f.subject = s }

/-- The subjects without a fact. -/
def Tables.mdOrphans : List Node :=
  (t.exportedNodes u).filter fun n => !(t.exportedFacts u).any fun f => f.subject = n.name

end

/-! ## The lines of an export -/

/-- The lines in front of the first subject. -/
def headLines (platform exportedAt : List Char) (facts subjects : Nat) : List (List Char) :=
  ["# Ce que ".toList ++ platform ++ " sait de moi".toList, [],
    "> Exporté le ".toList ++ ((exportedAt.take 19).map fun c => if c = 'T' then ' ' else c) ++
      " — ".toList ++ (toString facts).toList ++ " fait(s), ".toList ++ (toString subjects).toList ++
        " sujet(s).".toList, []]

theorem items_nodes (exportedAt : List Char) :
    Json.items (exportDoc t u exportedAt) "nodes" =
      (t.exportedNodes u).map fun n => nodeJson n.name n.kind (t.aliasesOf u n.id) := by
  simp [Json.items, exportDoc, List.lookup_cons]

theorem items_edges (exportedAt : List Char) :
    Json.items (exportDoc t u exportedAt) "edges" = (t.exportedFacts u).map FactView.json := by
  simp [Json.items, exportDoc, List.lookup_cons]

theorem field_exportedAt (exportedAt : List Char) : Json.field (exportDoc t u exportedAt) "exported_at" = exportedAt := by
  simp [Json.field, exportDoc, List.lookup_cons]

section
variable (f : FactView) (n : Node) (others : List (List Char))

theorem field_subject : Json.field f.json "subject" = f.subject := by
  simp [Json.field, FactView.json]

theorem field_relation : Json.field f.json "relation" = f.relation := by
  simp [Json.field, FactView.json, List.lookup_cons]

theorem field_fact : Json.field f.json "fact" = f.fact := by
  simp [Json.field, FactView.json, List.lookup_cons]

theorem field_object : Json.field f.json "object" = f.object.getD [] := by
  cases ho : f.object <;> simp [Json.field, FactView.json, List.lookup_cons, ho, Json.str?]

theorem field_name : Json.field (nodeJson n.name n.kind others) "name" = n.name := by
  simp [Json.field, nodeJson]

theorem field_kind : Json.field (nodeJson n.name n.kind others) "kind" = n.kind.text := by
  simp [Json.field, nodeJson, List.lookup_cons]

theorem items_aliases :
    (Json.items (nodeJson n.name n.kind others) "aliases").map (fun a => a.str?.getD []) = others := by
  simp [Json.items, nodeJson, List.lookup_cons, Function.comp_def]

end

theorem map_factLine (fs : List FactView) (subject : List Char) :
    ((fs.map FactView.json).filter fun e => Json.field e "subject" = subject).map
        (fun e => factLine (Json.field e "relation") (Json.field e "object") (Json.field e "fact")) =
      (fs.filter fun f => f.subject = subject).map FactView.line := by
  rw [List.filter_map, List.map_map]
  simp only [Function.comp_def, field_subject, field_relation, field_object, field_fact]
  rfl

theorem flatMap_aliasLine (ns : List Node) (aliases : Node → List (List Char)) (subject : List Char) :
    ((ns.map fun n => nodeJson n.name n.kind (aliases n)).filter fun n =>
        Json.field n "name" = subject).getLast?.toList.flatMap
          (fun n => aliasLine ((Json.items n "aliases").map fun a => a.str?.getD [])) =
      aliasLine ((ns.filter fun n => n.name = subject).getLast?.toList.flatMap aliases) := by
  rw [List.filter_map, List.getLast?_map]
  simp only [Function.comp_def, field_name]
  cases (ns.filter fun n => decide (n.name = subject)).getLast? with
  | none => rfl
  | some n =>
    simp only [Option.map_some, Option.toList_some, List.flatMap_cons, List.flatMap_nil,
      List.append_nil, items_aliases]

theorem filter_orphans (t : Tables) (u : String) :
    ((t.exportedNodes u).map fun n => nodeJson n.name n.kind (t.aliasesOf u n.id)).filter
        (fun n => !((t.exportedFacts u).map FactView.json).any fun e =>
          Json.field e "subject" = Json.field n "name") =
      (t.mdOrphans u).map fun n => nodeJson n.name n.kind (t.aliasesOf u n.id) := by
  rw [List.filter_map]
  simp only [Function.comp_def, List.any_map, field_subject, field_name]
  rfl

/-- The lines of the subjects without a fact. -/
def IsRest (t : Tables) (u : String) (ls : List (List Char)) : Prop :=
  ls = [] ∨ ∃ os, ls = "## Sujets sans fait".toList :: os ++ [[]] ∧
    ∀ l ∈ os, ∃ n ∈ t.mdOrphans u, l = orphanLine n.name n.kind.text

/-- The export: some lines, a block for each subject, and the subjects without a fact. -/
theorem mdLines_exportDoc (L : Text.Lowercase) (t : Tables) (u : String)
    (exportedAt platform : List Char) :
    ∃ ls, mdLines L (exportDoc t u exportedAt) platform =
        headLines platform exportedAt (t.exportedFacts u).length (t.exportedNodes u).length ++
          (t.mdBlocks L u).flatMap Block.lines ++ ls ∧ IsRest t u ls := by
  have hsubjects : ((t.exportedFacts u).map FactView.json).map (fun e => Json.field e "subject") =
      (t.exportedFacts u).map FactView.subject := by
    rw [List.map_map]
    exact List.map_congr_left fun f _ => field_subject f
  have hblocks : (t.mdBlocks L u).flatMap Block.lines = _ := List.flatMap_map _ _ _
  unfold mdLines
  simp only [items_nodes, items_edges, field_exportedAt, map_factLine, flatMap_aliasLine,
    List.length_map, filter_orphans, hsubjects]
  refine ⟨_, congrArg₂ _ (congrArg₂ _ rfl hblocks.symm) rfl, ?_⟩
  split
  · exact .inl rfl
  · refine .inr ⟨_, rfl, ?_⟩
    intro l hl
    obtain ⟨x, hx, rfl⟩ := List.mem_map.1 hl
    obtain ⟨n, hn, rfl⟩ := List.mem_map.1 (List.mem_mergeSort.1 hx)
    exact ⟨n, hn, by rw [field_name, field_kind]⟩

/-! ## The order of the subjects -/

theorem nodup_firstSeen (ts : List (List Char)) :
    (firstSeen ts).Nodup ∧ ∀ x, x ∈ firstSeen ts ↔ x ∈ ts := by
  unfold firstSeen
  suffices ∀ seen : List (List Char), seen.Nodup →
      (ts.foldl (fun seen x => if x ∈ seen then seen else seen ++ [x]) seen).Nodup ∧
        ∀ x, x ∈ ts.foldl (fun seen x => if x ∈ seen then seen else seen ++ [x]) seen ↔
          x ∈ seen ∨ x ∈ ts by
    simpa using this [] List.nodup_nil
  induction ts with
  | nil => exact fun seen h => ⟨h, by simp⟩
  | cons y ts ih =>
    intro seen h
    rw [List.foldl_cons]
    split
    · next hy =>
        obtain ⟨hnodup, hmem⟩ := ih seen h
        refine ⟨hnodup, fun x => ?_⟩
        rw [hmem, List.mem_cons]
        constructor
        · rintro (hx | hx)
          · exact .inl hx
          · exact .inr (.inr hx)
        · rintro (hx | rfl | hx)
          · exact .inl hx
          · exact .inl hy
          · exact .inr hx
    · next hy =>
        have hseen : (seen ++ [y]).Nodup := by
          refine List.Nodup.append h (List.nodup_singleton y) ?_
          intro x hx hxy
          exact hy (List.mem_singleton.1 hxy ▸ hx)
        obtain ⟨hnodup, hmem⟩ := ih _ hseen
        refine ⟨hnodup, fun x => ?_⟩
        rw [hmem, List.mem_append, List.mem_singleton, List.mem_cons, or_assoc]

theorem nodup_mdOrder (L : Text.Lowercase) (t : Tables) (u : String) : (t.mdOrder L u).Nodup :=
  (List.mergeSort_perm _ _).nodup_iff.2 (nodup_firstSeen _).1

theorem mem_mdOrder {s : List Char} :
    s ∈ t.mdOrder L u ↔ ∃ f ∈ t.exportedFacts u, f.subject = s := by
  unfold Tables.mdOrder mdSubjects sortByLower
  rw [List.mem_mergeSort, (nodup_firstSeen _).2, List.mem_map]

/-! ## Lines of one line -/

theorem oneLine_toString (n : Nat) : OneLine (toString n).toList := by
  intro c hc
  have hdigit : c.isDigit = true := by
    refine Nat.isDigit_of_mem_toDigits (b := 10) (n := n) (by decide) (by decide) ?_
    simpa [toString, Nat.repr] using hc
  by_contra hend
  have hend : isLineEnd c = true := by simpa using hend
  simp only [isLineEnd, anyOf, List.contains_eq_mem, decide_eq_true_eq, List.mem_cons,
    List.not_mem_nil, or_false] at hend
  rcases hend with rfl | rfl | rfl | rfl | rfl | rfl | rfl | rfl | rfl | rfl <;> cases hdigit

theorem headLines_oneLine {platform exportedAt : List Char} (hplatform : OneLine platform)
    (hat : OneLine exportedAt) (facts subjects : Nat) :
    ∀ l ∈ headLines platform exportedAt facts subjects, OneLine l := by
  have hdate : OneLine ((exportedAt.take 19).map fun c => if c = 'T' then ' ' else c) := by
    intro c hc
    obtain ⟨d, hd, rfl⟩ := List.mem_map.1 hc
    split
    · decide
    · exact hat d (List.mem_of_mem_take hd)
  have h₁ : OneLine "# Ce que ".toList := by decide
  have h₂ : OneLine " sait de moi".toList := by decide
  have h₃ : OneLine "> Exporté le ".toList := by decide
  have h₄ : OneLine " — ".toList := by decide
  have h₅ : OneLine " fait(s), ".toList := by decide
  have h₆ : OneLine " sujet(s).".toList := by decide
  simp only [headLines, List.forall_mem_cons, oneLine_append, oneLine_nil]
  exact ⟨⟨⟨h₁, hplatform⟩, h₂⟩, trivial,
    ⟨⟨⟨⟨⟨⟨h₃, hdate⟩, h₄⟩, oneLine_toString facts⟩, h₅⟩, oneLine_toString subjects⟩, h₆⟩, trivial, List.forall_mem_nil _⟩

theorem orphanLine_oneLine {name : List Char} (h : OneLine name) (k : Kind) :
    OneLine (orphanLine name k.text) := by
  have h₁ : OneLine "- ".toList := by decide
  have h₂ : OneLine " (".toList := by decide
  have h₃ : OneLine ")".toList := by decide
  have hk : OneLine k.text := by cases k <;> decide
  simp only [orphanLine, oneLine_append]
  exact ⟨⟨⟨⟨h₁, h⟩, h₂⟩, hk⟩, h₃⟩

theorem block_oneLine {b : Block} (h : b.Fits) : ∀ l ∈ b.lines, OneLine l := by
  intro l hl
  rcases List.mem_cons.1 hl with rfl | hl
  · exact oneLine_append.2 ⟨by decide, h.line⟩
  rcases List.mem_append.1 hl with hl | hl
  · rcases List.mem_append.1 hl with hl | hl
    · unfold aliasLine at hl
      split at hl
      · cases hl
      · next hne =>
          rw [List.mem_singleton.1 hl, oneLine_append, oneLine_append]
          exact ⟨⟨by decide, (h.aliasText hne).2.1⟩, by decide⟩
    · obtain ⟨f, hf, rfl⟩ := List.mem_map.1 hl
      have hfits := (h.facts f hf).1
      unfold FactView.line
      rw [factLine_eq, oneLine_cons, oneLine_cons]
      exact ⟨by decide, by decide,
        bulletText_oneLine hfits.line.relation hfits.object_oneLine hfits.line.fact⟩
  · rw [List.mem_singleton.1 hl]
    exact oneLine_nil

/-! ## Around the blocks -/

theorem foldl_headLines {platform exportedAt : List Char} (hplatform : OneLine platform)
    (facts subjects : Nat) :
    (headLines platform exportedAt facts subjects).foldl (mdLine L digit) .init = .init := by
  have htitle : Stripped ("Ce que ".toList ++ platform ++ " sait de moi".toList) := by
    refine ⟨Text.trimMatches_eq_self_iff.2 ⟨?_, ?_⟩, by simp⟩
    · rintro c ⟨⟩
      decide
    · intro c hc
      rw [List.getLast?_append] at hc
      cases hc
      decide
  have hline : OneLine ("Ce que ".toList ++ platform ++ " sait de moi".toList) := by
    rw [oneLine_append, oneLine_append]
    exact ⟨⟨by decide, hplatform⟩, by decide⟩
  have htop : mdLine L digit .init ("# Ce que ".toList ++ platform ++ " sait de moi".toList) = .init :=
    mdLine_top htitle hline
  have hnote : ∀ rest, mdLine L digit .init ('>' :: rest) = .init := fun rest => by
    rw [mdLine_text (by decide) (by decide) (by decide), mdText_none rfl]
  simp only [headLines, List.foldl_cons, List.foldl_nil, htop, mdLine_nil]
  exact hnote _

/-- The last section has no subject, so that nothing in it is a fact. -/
theorem mdLine_lastHeading (st : MdState) :
    mdLine L digit st "## Sujets sans fait".toList = { st with cur := none } := by
  have hcaps : Rx.captures HEADING ("##".toList ++ ' ' :: "Sujets sans fait".toList) =
      some [(.level, "##".toList), (.title, "Sujets sans fait".toList)] := by decide +kernel
  have hstrip : Stripped "Sujets sans fait".toList := ⟨by decide, by decide⟩
  have hlower : L.lower "Sujets sans fait".toList = "sujets sans fait".toList := by
    rw [L.ascii _ (by decide)]
    decide
  have hline := @mdLine_heading L digit _ st _ _ _ hstrip hcaps
  rw [hstrip.strip, if_neg (by decide), if_pos hlower] at hline
  exact hline

theorem foldl_rest {ls : List (List Char)} (h : IsRest t u ls) (st : MdState) :
    (ls.foldl (mdLine L digit) st).edges = st.edges ∧
      (ls.foldl (mdLine L digit) st).aliases = st.aliases := by
  rcases h with rfl | ⟨os, rfl, hos⟩
  · exact ⟨rfl, rfl⟩
  have hbullets : ∀ st : MdState, st.cur = none → os.foldl (mdLine L digit) st = st := by
    intro st hst
    induction os with
    | nil => rfl
    | cons l os ih =>
      obtain ⟨⟨n, -, hl⟩, hrest⟩ := List.forall_mem_cons.1 hos
      have hline : ∀ rest, mdLine L digit st ('-' :: rest) = st := fun rest => by
        rw [mdLine_text (by decide) (by decide) (by decide), mdText_none hst]
      rw [List.foldl_cons, hl, show mdLine L digit st (orphanLine n.name n.kind.text) = st from hline _]
      exact ih hrest
  rw [List.cons_append, List.foldl_cons, mdLine_lastHeading, List.foldl_append, hbullets _ rfl]
  exact ⟨rfl, rfl⟩

/-! ## The tables -/

/-- What the live facts of an account and their subjects are in every state of a memory,
when no text was cut behind white space. -/
structure Exportable (t : Tables) (u : String) : Prop where
  subject : ∀ f ∈ t.exportedFacts u, Stripped f.subject
  object : ∀ f ∈ t.exportedFacts u, ∀ o ∈ f.object, Stripped o
  relation : ∀ f ∈ t.exportedFacts u, pyStrip f.relation = f.relation
  fact : ∀ f ∈ t.exportedFacts u, Stripped f.fact
  names : (t.exportedNodes u).Pairwise fun m n => m.name ≠ n.name
  aliases : ∀ n ∈ t.exportedNodes u, ∀ a ∈ t.aliasesOf u n.id,
    (a ≠ [] ∧ OneLine a ∧ ∀ c ∈ a.head?, Text.isWhitespace c = false) ∧
      (pyStrip a = a ↔ a.getLast? ≠ some ' ')

/-- What lets a fact come back from its bullet, and its subject from the heading. -/
structure FactView.Readable (L : Text.Lowercase) (f : FactView) : Prop where
  line : f.md.OneLine
  mark : f.subject.getLast? ≠ some '#'
  title : L.lower f.subject ≠ "sujets sans fait".toList
  plain : f.Plain

/-- What lets an export come back: every fact is readable, and a subject with a fact has at
most one alias, which does not end in a space. -/
structure Readable (L : Text.Lowercase) (t : Tables) (u : String) : Prop where
  facts : ∀ f ∈ t.exportedFacts u, f.Readable L
  aliases : ∀ n ∈ t.exportedNodes u, (∃ f ∈ t.exportedFacts u, f.subject = n.name) →
    (t.aliasesOf u n.id).length ≤ 1 ∧ ∀ a ∈ t.aliasesOf u n.id, a.getLast? ≠ some ' '

namespace Exportable

variable (h : Exportable t u)
include h

theorem nodes_named (s : List Char) :
    ((t.exportedNodes u).filter fun n => n.name = s) = [] ∨
      ∃ n ∈ t.exportedNodes u, n.name = s ∧ ((t.exportedNodes u).filter fun n => n.name = s) = [n] := by
  have hmem : ∀ n ∈ (t.exportedNodes u).filter fun n => n.name = s, n ∈ t.exportedNodes u ∧ n.name = s := by
    intro n hn
    simpa using hn
  have hpair := h.names.filter fun n => n.name = s
  match hns : (t.exportedNodes u).filter fun n => n.name = s with
  | [] => exact .inl hns
  | [n] =>
    obtain ⟨hn, hname⟩ := hmem n (by rw [hns]; exact List.mem_cons_self)
    exact .inr ⟨n, hn, hname, hns⟩
  | m :: n :: ns =>
    rw [hns] at hpair hmem
    have hne := (List.pairwise_cons.1 hpair).1 n List.mem_cons_self
    exact absurd ((hmem m (by simp)).2.trans (hmem n (by simp)).2.symm) hne

theorem mdAliases_eq (L : Text.Lowercase) : t.mdAliases L u = (t.mdBlocks L u).flatMap Block.pairs := by
  unfold Tables.mdAliases Tables.mdBlocks
  rw [List.flatMap_map]
  refine List.flatMap_congr fun s _ => ?_
  rcases h.nodes_named s with hns | ⟨n, -, -, hns⟩ <;> rw [hns] <;> simp [Block.pairs]

omit h in
theorem mdFacts_eq (L : Text.Lowercase) : t.mdFacts L u = (t.mdBlocks L u).flatMap Block.edges := by
  unfold Tables.mdFacts Tables.mdBlocks
  rw [List.flatMap_map]
  rfl

theorem mem_aliases {L : Text.Lowercase} {b : Block} (hb : b ∈ t.mdBlocks L u) :
    b.aliases = [] ∨ ∃ n ∈ t.exportedNodes u, n.name = b.subject ∧ b.aliases = t.aliasesOf u n.id := by
  obtain ⟨s, -, rfl⟩ := List.mem_map.1 hb
  rcases h.nodes_named s with hns | ⟨n, hn, hname, hns⟩
  · refine .inl ?_
    simp only [hns]
    rfl
  · refine .inr ⟨n, hn, hname, ?_⟩
    simp only [hns]
    simp

theorem aliases_eq {L : Text.Lowercase} {b : Block} (hb : b ∈ t.mdBlocks L u) {n : Node}
    (hn : n ∈ t.exportedNodes u) (hname : n.name = b.subject) : b.aliases = t.aliasesOf u n.id := by
  obtain ⟨s, -, rfl⟩ := List.mem_map.1 hb
  have hmem : n ∈ (t.exportedNodes u).filter fun n => n.name = s :=
    List.mem_filter.2 ⟨hn, decide_eq_true hname⟩
  rcases h.nodes_named s with hns | ⟨m, -, -, hns⟩
  · rw [hns] at hmem
    cases hmem
  · rw [hns] at hmem
    obtain rfl := List.mem_singleton.1 hmem
    simp only [hns]
    simp

theorem block_fits {L : Text.Lowercase} (hlines : ∀ f ∈ t.exportedFacts u, f.md.OneLine) {b : Block}
    (hb : b ∈ t.mdBlocks L u) : b.Fits := by
  have haliases := h.mem_aliases hb
  obtain ⟨s, hs, rfl⟩ := List.mem_map.1 hb
  obtain ⟨f, hf, rfl⟩ := mem_mdOrder.1 hs
  refine ⟨h.subject f hf, (hlines f hf).subject, ?_, ?_, ?_⟩
  · intro a ha
    rcases haliases with hnil | ⟨n, hn, -, heq⟩
    · rw [hnil] at ha
      cases ha
    · rw [heq] at ha
      exact (h.aliases n hn a ha).1
  · intro g hg
    obtain ⟨hg, hsub⟩ := List.mem_filter.1 hg
    exact ⟨⟨h.relation g hg, h.object g hg, h.fact g hg, hlines g hg⟩, of_decide_eq_true hsub⟩
  · exact List.ne_nil_of_mem (List.mem_filter.2 ⟨hf, decide_eq_true rfl⟩)

theorem plain_iff (L : Text.Lowercase) (hlines : ∀ f ∈ t.exportedFacts u, f.md.OneLine) :
    (∀ b ∈ t.mdBlocks L u, b.Plain L) ↔ Readable L t u := by
  have hblock : ∀ f ∈ t.exportedFacts u, ∃ b ∈ t.mdBlocks L u, b.subject = f.subject ∧ f ∈ b.facts :=
    fun f hf => ⟨_, List.mem_map_of_mem (mem_mdOrder.2 ⟨f, hf, rfl⟩), rfl,
      List.mem_filter.2 ⟨hf, decide_eq_true rfl⟩⟩
  constructor
  · intro hall
    refine ⟨?_, ?_⟩
    · intro f hf
      obtain ⟨b, hb, hsub, hfb⟩ := hblock f hf
      have hp := hall b hb
      refine ⟨hlines f hf, ?_, ?_, hp.facts f hfb⟩
      · rw [← hsub]
        exact hp.mark
      · rw [← hsub]
        exact hp.title
    · rintro n hn ⟨f, hf, hname⟩
      obtain ⟨b, hb, hsub, -⟩ := hblock f hf
      have heq := h.aliases_eq hb hn (hname.symm.trans hsub.symm)
      rw [← heq]
      refine ⟨(hall b hb).one, fun a ha => ?_⟩
      have hstrip := (hall b hb).aliases a ha
      rw [heq] at ha
      exact (h.aliases n hn a ha).2.1 hstrip
  · intro hr b hb
    have haliases := h.mem_aliases hb
    obtain ⟨s, hs, rfl⟩ := List.mem_map.1 hb
    obtain ⟨f, hf, rfl⟩ := mem_mdOrder.1 hs
    have hone : ∀ n ∈ t.exportedNodes u, n.name = f.subject →
        (t.aliasesOf u n.id).length ≤ 1 ∧ ∀ a ∈ t.aliasesOf u n.id, pyStrip a = a := by
      intro n hn hname
      obtain ⟨hlen, hlast⟩ := hr.aliases n hn ⟨f, hf, hname.symm⟩
      exact ⟨hlen, fun a ha => (h.aliases n hn a ha).2.2 (hlast a ha)⟩
    refine ⟨(hr.facts f hf).mark, (hr.facts f hf).title, ?_, ?_, ?_⟩
    · rcases haliases with hnil | ⟨n, hn, hname, heq⟩
      · rw [hnil]
        exact Nat.zero_le 1
      · rw [heq]
        exact (hone n hn hname).1
    · rcases haliases with hnil | ⟨n, hn, hname, heq⟩
      · rw [hnil]
        exact nofun
      · rw [heq]
        exact (hone n hn hname).2
    · intro g hg
      exact (hr.facts g (List.mem_of_mem_filter hg)).plain

theorem mdParse_export (L : Text.Lowercase) (digit : Char → Bool) {platform exportedAt : List Char}
    (hplatform : OneLine platform) (hat : OneLine exportedAt)
    (hlines : ∀ f ∈ t.exportedFacts u, f.md.OneLine) (horphans : ∀ n ∈ t.mdOrphans u, OneLine n.name) :
    mdParse L digit (exportMarkdown L (exportDoc t u exportedAt) platform) =
      ((((t.mdBlocks L u).flatMap Block.lines).foldl (mdLine L digit) .init).edges,
        (((t.mdBlocks L u).flatMap Block.lines).foldl (mdLine L digit) .init).aliases) := by
  obtain ⟨ls, hdoc, hls⟩ := mdLines_exportDoc L t u exportedAt platform
  have hall : ∀ l ∈ headLines platform exportedAt (t.exportedFacts u).length
      (t.exportedNodes u).length ++ (t.mdBlocks L u).flatMap Block.lines ++ ls, OneLine l := by
    refine List.forall_mem_append.2 ⟨List.forall_mem_append.2 ⟨headLines_oneLine hplatform hat _ _, ?_⟩, ?_⟩
    · intro l hl
      obtain ⟨b, hb, hlb⟩ := List.mem_flatMap.1 hl
      exact block_oneLine (h.block_fits hlines hb) l hlb
    · rcases hls with rfl | ⟨os, rfl, hos⟩
      · exact nofun
      · refine List.forall_mem_append.2 ⟨List.forall_mem_cons.2 ⟨by decide, ?_⟩, by simp⟩
        intro l hl
        obtain ⟨n, hn, rfl⟩ := hos l hl
        exact orphanLine_oneLine (horphans n hn) _
  obtain ⟨hedges, haliases⟩ := @foldl_rest L digit t u ls hls
    (((t.mdBlocks L u).flatMap Block.lines).foldl (mdLine L digit) .init)
  unfold mdParse exportMarkdown
  dsimp only
  rw [hdoc, foldl_pySplitlines hall, List.foldl_append, List.foldl_append, foldl_headLines hplatform,
    hedges, haliases]

/-- The export is read back exactly when it is readable, once the subjects that no fact
mentions are written on one line each. -/
theorem mdParse_iff (L : Text.Lowercase) (digit : Char → Bool) {platform exportedAt : List Char}
    (hplatform : OneLine platform) (hat : OneLine exportedAt)
    (hrest : (∀ f ∈ t.exportedFacts u, f.md.OneLine) → ∀ n ∈ t.mdOrphans u, OneLine n.name) :
    mdParse L digit (exportMarkdown L (exportDoc t u exportedAt) platform) =
        (t.mdFacts L u, t.mdAliases L u) ↔
      Readable L t u := by
  -- what is read has no line boundary, so it is enough to look at facts without one
  have hone : mdParse L digit (exportMarkdown L (exportDoc t u exportedAt) platform) =
      (t.mdFacts L u, t.mdAliases L u) → ∀ f ∈ t.exportedFacts u, f.md.OneLine := by
    intro hread f hf
    refine mdParse_oneLine L digit (exportMarkdown L (exportDoc t u exportedAt) platform) f.md ?_
    rw [hread]
    exact List.mem_flatMap.2 ⟨f.subject, mem_mdOrder.2 ⟨f, hf, rfl⟩,
      List.mem_map_of_mem (List.mem_filter.2 ⟨hf, decide_eq_true rfl⟩)⟩
  suffices (∀ f ∈ t.exportedFacts u, f.md.OneLine) →
      (mdParse L digit (exportMarkdown L (exportDoc t u exportedAt) platform) =
        (t.mdFacts L u, t.mdAliases L u) ↔ Readable L t u) from
    ⟨fun hread => (this (hone hread)).1 hread, fun hr => (this fun f hf => (hr.facts f hf).line).2 hr⟩
  intro hlines
  have hnodup : ((t.mdBlocks L u).map Block.subject).Nodup := by
    have hmap : (t.mdBlocks L u).map Block.subject = t.mdOrder L u := by
      unfold Tables.mdBlocks
      rw [List.map_map]
      exact List.map_id _
    rw [hmap]
    exact nodup_mdOrder L t u
  obtain ⟨es, as, hedges, haliases, -, -, hiff⟩ :=
    @foldl_blocks .init L digit _ (fun b hb => h.block_fits hlines hb) hnodup nofun
  have hread : mdParse L digit (exportMarkdown L (exportDoc t u exportedAt) platform) = (es, as) := by
    rw [h.mdParse_export L digit hplatform hat hlines (hrest hlines), hedges, haliases]
    rfl
  rw [hread, Prod.mk.injEq, mdFacts_eq, h.mdAliases_eq, hiff nofun, h.plain_iff L hlines]

end Exportable

end Portal.Memory
