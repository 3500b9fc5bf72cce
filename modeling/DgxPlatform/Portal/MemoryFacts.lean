import DgxPlatform.Portal.MemoryRows
import Mathlib.Data.Finset.Image
import Mathlib.Data.Multiset.Basic

/-! # What a memory holds, by names

An export names its rows, so what it can restore is said by names: the subjects of an
account with their kinds and aliases, and its live facts. `Restored` compares two
accounts by these, `Restorable` is the condition under which an export brings an account
back.

`restoreFact` is what one fact of a document does to the facts that are there, by names:
it is left out when one of the same subject and text is there, and replaces those with
the same subject, explicit relation and object. A list of facts comes back whole exactly
when no two of them meet so and none loses white space (`restoreFacts_perm_iff`).
-/

namespace Portal.Memory

open Accounts (pyStrip)

/-! ## What an account remembers -/

section Definitions

variable (t : Tables) (u : String)

def Tables.nodesOf : List Node := t.nodes.filter fun n => decide (n.username = u)

/-- The aliases of a node. -/
def Tables.aliasSet (id : Nat) : Finset (List Char) :=
  ((t.aliases.filter fun a => decide (a.username = u ∧ a.nodeId = id)).map Alias.aliasNorm).toFinset

/-- The subjects: name, kind and aliases. -/
def Tables.subjects : Finset (List Char × Kind × Finset (List Char)) :=
  ((t.nodesOf u).map fun n => (n.name, n.kind, t.aliasSet u n.id)).toFinset

/-- The live facts by names. -/
def Tables.views : List FactView := (t.edges.filter (Edge.live u)).filterMap t.factView

/-- A fact with an empty relation read as the generic one. -/
def FactView.read (f : FactView) : FactView :=
  { f with relation := if f.relation = [] then memGenericRelation else f.relation }

/-- The live facts. -/
def Tables.facts : Multiset FactView := ↑((t.views u).map FactView.read)

/-- The account `v` remembers what `u` does. -/
structure Restored (t : Tables) (u : String) (t' : Tables) (v : String) : Prop where
  subjects : t'.subjects v = t.subjects u
  facts : t'.facts v = t.facts u

/-- The account has no rows. -/
structure Vacant : Prop where
  nodes : ∀ n ∈ t.nodes, n.username ≠ u
  edges : ∀ e ∈ t.edges, e.username ≠ u
  aliases : ∀ a ∈ t.aliases, a.username ≠ u

end Definitions

def FactView.sameText (f g : FactView) : Prop := f.subject = g.subject ∧ f.fact = g.fact

/-- Two facts of which `add_fact` keeps the later one. -/
def FactView.sameLink (f g : FactView) : Prop :=
  f.subject = g.subject ∧ f.relation = g.relation ∧ f.object = g.object ∧
    f.relation ≠ [] ∧ f.relation ≠ memGenericRelation

instance (f g : FactView) : Decidable (f.sameText g) :=
  inferInstanceAs (Decidable (_ ∧ _))

instance (f g : FactView) : Decidable (f.sameLink g) :=
  inferInstanceAs (Decidable (_ ∧ _))

/-- No two facts stand in each other's way, and none has white space at an end, which a
cut to the maximal length may leave. -/
structure Separate (fs : List FactView) : Prop where
  texts : fs.Pairwise fun f g => ¬ f.sameText g
  links : fs.Pairwise fun f g => ¬ f.sameLink g
  stripped : ∀ f ∈ fs, pyStrip f.fact = f.fact ∧ pyStrip f.relation = f.relation

/-- What lets the export of an account bring it back. -/
structure Restorable (env : Env) (t : Tables) (u : String) : Prop where
  /-- normalised once more, the aliases of a subject are the same -/
  aliases : ∀ n ∈ t.nodesOf u, ((t.aliasSet u n.id).image env.norm).erase [] = t.aliasSet u n.id
  /-- no subject has the name of an alias of a subject before it -/
  unmasked : ∀ m ∈ t.nodesOf u, ∀ n ∈ t.nodesOf u, m.name < n.name →
    n.nameNorm ∉ (t.aliasSet u m.id).image env.norm
  /-- the facts are about the account's own subjects -/
  named : ∀ f ∈ t.views u, f.subject ∈ (t.nodesOf u).map Node.name ∧
    ∀ o ∈ f.object, o ∈ (t.nodesOf u).map Node.name
  separate : Separate (t.views u)

/-! ## The facts by names -/

/-- A fact as the import writes it. -/
def FactView.cleaned (f : FactView) : FactView :=
  { f with relation := (pyStrip f.read.relation).take 80, fact := (pyStrip f.fact).take memMaxFactLen }

/-- What one fact of the document does to the facts that are there. -/
def restoreFact (fs : List FactView) (f : FactView) : List FactView :=
  if f.cleaned.fact = [] ∨ ∃ g ∈ fs, f.cleaned.sameText g then fs
  else fs.filter (fun g => ¬ f.cleaned.sameLink g) ++ [f.cleaned]

/-- A fact as the tables hold it. -/
structure FactView.Ok (f : FactView) : Prop where
  fact_ne : f.fact ≠ []
  fact_short : f.fact.length ≤ memMaxFactLen
  relation_short : f.relation.length ≤ 80

theorem FactView.read_relation (f : FactView) :
    f.read.relation = if f.relation = [] then memGenericRelation else f.relation := rfl

theorem pyStrip_generic : pyStrip memGenericRelation = memGenericRelation := by decide

theorem FactView.read_sameText (f g : FactView) : f.read.sameText g.read ↔ f.sameText g := Iff.rfl

theorem FactView.read_sameLink (f g : FactView) : f.read.sameLink g.read ↔ f.sameLink g := by
  have hread : ∀ h : FactView, h.read.relation ≠ [] ∧ h.read.relation ≠ memGenericRelation →
      h.read.relation = h.relation := by
    intro h hh
    by_cases hr : h.relation = []
    · exact absurd (by simp [FactView.read_relation, hr]) hh.2
    · simp [FactView.read_relation, hr]
  constructor
  · rintro ⟨hs, hr, ho, hne⟩
    have hf := hread f hne
    have hg := hread g (hr ▸ hne)
    rw [hf] at hr hne
    rw [hg] at hr
    exact ⟨hs, hr, ho, hne⟩
  · rintro ⟨hs, hr, ho, hne, hgen⟩
    have hf : f.read.relation = f.relation := by simp [FactView.read_relation, hne]
    have hg : g.read.relation = f.relation := by simp [FactView.read_relation, ← hr, hne]
    exact ⟨hs, by rw [hf, hg], ho, by rw [hf]; exact hne, by rw [hf]; exact hgen⟩

theorem FactView.read_stripped (f : FactView) :
    pyStrip f.read.relation = f.read.relation ↔ pyStrip f.relation = f.relation := by
  rw [FactView.read_relation]
  by_cases hr : f.relation = []
  · simp [hr, pyStrip_generic]
    decide
  · simp [hr]

theorem FactView.sameText_symm {f g : FactView} (h : f.sameText g) : g.sameText f :=
  ⟨h.1.symm, h.2.symm⟩

theorem FactView.sameLink_symm {f g : FactView} (h : f.sameLink g) : g.sameLink f :=
  ⟨h.1.symm, h.2.1.symm, h.2.2.1.symm, h.2.1 ▸ h.2.2.2⟩

theorem Separate.perm {fs gs : List FactView} (hp : fs.Perm gs) (h : Separate fs) : Separate gs where
  texts := (hp.pairwise_iff fun hn hs => hn (FactView.sameText_symm hs)).1 h.texts
  links := (hp.pairwise_iff fun hn hs => hn (FactView.sameLink_symm hs)).1 h.links
  stripped f hf := h.stripped f (hp.mem_iff.2 hf)

theorem separate_map_read {fs : List FactView} : Separate (fs.map FactView.read) ↔ Separate fs := by
  constructor
  · intro h
    refine ⟨?_, ?_, ?_⟩
    · simpa only [List.pairwise_map, FactView.read_sameText] using h.texts
    · simpa only [List.pairwise_map, FactView.read_sameLink] using h.links
    · intro f hf
      obtain ⟨hfact, hrel⟩ := h.stripped f.read (List.mem_map_of_mem hf)
      exact ⟨hfact, f.read_stripped.1 hrel⟩
  · intro h
    refine ⟨?_, ?_, ?_⟩
    · simpa only [List.pairwise_map, FactView.read_sameText] using h.texts
    · simpa only [List.pairwise_map, FactView.read_sameLink] using h.links
    · intro f' hf'
      obtain ⟨f, hf, rfl⟩ := List.mem_map.1 hf'
      obtain ⟨hfact, hrel⟩ := h.stripped f hf
      exact ⟨hfact, f.read_stripped.2 hrel⟩

/-- Of a fact as the tables hold it the import changes only the ends. -/
theorem FactView.Ok.cleaned {f : FactView} (h : f.Ok) :
    f.cleaned = { f with relation := pyStrip f.read.relation, fact := pyStrip f.fact } := by
  have hrel : f.read.relation.length ≤ 80 := by
    rw [FactView.read_relation]
    split
    · decide
    · exact h.relation_short
  unfold FactView.cleaned
  rw [List.take_of_length_le ((length_pyStrip_le _).trans hrel),
    List.take_of_length_le ((length_pyStrip_le _).trans h.fact_short)]

theorem Separate.restoreFact {fs : List FactView} (h : Separate fs) {f : FactView} (hf : f.Ok) :
    Separate (restoreFact fs f) := by
  unfold Memory.restoreFact
  split
  · exact h
  next hnew =>
  have hkept := List.filter_sublist (p := fun g => decide (¬ f.cleaned.sameLink g)) (l := fs)
  push Not at hnew
  refine ⟨?_, ?_, ?_⟩
  · refine List.pairwise_append.2 ⟨h.texts.sublist hkept, List.pairwise_singleton _ _, ?_⟩
    intro g hg f' hf' hsame
    obtain rfl := List.mem_singleton.1 hf'
    exact hnew.2 g (hkept.subset hg) (FactView.sameText_symm hsame)
  · refine List.pairwise_append.2 ⟨h.links.sublist hkept, List.pairwise_singleton _ _, ?_⟩
    intro g hg f' hf' hsame
    obtain rfl := List.mem_singleton.1 hf'
    have hg' := (List.mem_filter.1 hg).2
    exact (of_decide_eq_true hg') (FactView.sameLink_symm hsame)
  · intro g hg
    rcases List.mem_append.1 hg with hold | hlast
    · exact h.stripped g (hkept.subset hold)
    · rw [List.mem_singleton.1 hlast, hf.cleaned]
      exact ⟨pyStrip_idem _, pyStrip_idem _⟩

theorem separate_restoreFacts {fs : List FactView} (h : Separate fs) {L : List FactView}
    (hL : ∀ f ∈ L, f.Ok) : Separate (L.foldl restoreFact fs) := by
  induction L generalizing fs with
  | nil => exact h
  | cons f L ih =>
    refine ih (h.restoreFact (hL f List.mem_cons_self)) ?_
    intro g hg
    exact hL g (List.mem_cons_of_mem _ hg)

theorem restoreFact_append {P : List FactView} {f : FactView} (hf : f.Ok)
    (h : Separate (P ++ [f])) :
    restoreFact (P.map FactView.read) f = (P ++ [f]).map FactView.read := by
  obtain ⟨hfact, hrel⟩ := h.stripped f (List.mem_append_right _ (List.mem_singleton.2 rfl))
  have hclean : f.cleaned = f.read := by
    rw [hf.cleaned, f.read_stripped.2 hrel, hfact]
    rfl
  have htexts := (List.pairwise_append.1 h.texts).2.2
  have hlinks := (List.pairwise_append.1 h.links).2.2
  have hnew : ¬ (f.cleaned.fact = [] ∨ ∃ g ∈ P.map FactView.read, f.cleaned.sameText g) := by
    rw [hclean]
    rintro (hnil | ⟨g', hg', hsame⟩)
    · exact hf.fact_ne hnil
    · obtain ⟨g, hg, rfl⟩ := List.mem_map.1 hg'
      have hsame' := (FactView.read_sameText f g).1 hsame
      exact htexts g hg f (List.mem_singleton.2 rfl) (FactView.sameText_symm hsame')
  have hall : (P.map FactView.read).filter (fun g => decide (¬ f.cleaned.sameLink g)) =
      P.map FactView.read := by
    refine List.filter_eq_self.2 ?_
    intro g' hg'
    obtain ⟨g, hg, rfl⟩ := List.mem_map.1 hg'
    rw [hclean]
    refine decide_eq_true ?_
    intro hsame
    have hsame' := (FactView.read_sameLink f g).1 hsame
    exact hlinks g hg f (List.mem_singleton.2 rfl) (FactView.sameLink_symm hsame')
  rw [restoreFact, if_neg hnew, hall, hclean, List.map_append]
  rfl

theorem Separate.left {P S : List FactView} (h : Separate (P ++ S)) : Separate P where
  texts := (List.pairwise_append.1 h.texts).1
  links := (List.pairwise_append.1 h.links).1
  stripped f hf := h.stripped f (List.mem_append_left _ hf)

theorem restoreFacts_append {P L : List FactView} (hL : ∀ f ∈ L, f.Ok) (h : Separate (P ++ L)) :
    L.foldl restoreFact (P.map FactView.read) = (P ++ L).map FactView.read := by
  induction L generalizing P with
  | nil => simp
  | cons f L ih =>
    have hsplit : P ++ f :: L = P ++ [f] ++ L := by simp
    rw [hsplit] at h ⊢
    rw [List.foldl_cons, restoreFact_append (hL f List.mem_cons_self) h.left]
    refine ih ?_ h
    intro g hg
    exact hL g (List.mem_cons_of_mem _ hg)

/-- A list of facts is imported whole exactly when they are separate. -/
theorem restoreFacts_perm_iff {L : List FactView} (hL : ∀ f ∈ L, f.Ok) :
    ((L.foldl restoreFact []).map FactView.read).Perm (L.map FactView.read) ↔ Separate L := by
  constructor
  · intro hp
    have hnil : Separate [] := ⟨List.Pairwise.nil, List.Pairwise.nil, fun _ h => absurd h List.not_mem_nil⟩
    have hsep := separate_map_read.2 (separate_restoreFacts hnil hL)
    exact separate_map_read.1 (hsep.perm hp)
  · intro hsep
    have heq : L.foldl restoreFact [] = L.map FactView.read := restoreFacts_append (P := []) hL hsep
    have hread : ∀ f : FactView, f.read.read = f.read := by
      intro f
      by_cases hr : f.relation = []
      · simp [FactView.read, hr]
      · simp [FactView.read, hr]
    rw [heq, List.map_map]
    simp only [Function.comp_def, hread, List.Perm.refl]

end Portal.Memory
