import DgxPlatform.Portal.MarkdownLines

/-! # A file of exported lines, read back

What is read of a file has no line boundary in it (`mdParse_oneLine`), so only what is
written on one line can come back. The part of an export that is about one subject is a
`Block`; behind a run of blocks the reader has what was written exactly when every block
is `Plain` (`foldl_blocks`). A block that is not gives too little, never too much.
-/

namespace Portal.Memory

open Accounts (pyIsSpace pyStrip)
open Rx
open Text (isWhitespace)

variable {L : Text.Lowercase} {digit : Char → Bool} {s t : List Char} {st : MdState}

/-! ## One line in, one line out -/

/-- A fact whose fields are of one line. -/
structure MdFact.OneLine (f : MdFact) : Prop where
  subject : Memory.OneLine f.subject
  relation : Memory.OneLine f.relation
  obj : ∀ o ∈ f.obj, Memory.OneLine o
  fact : Memory.OneLine f.fact

structure MdState.OneLine (st : MdState) : Prop where
  cur : ∀ s ∈ st.cur, Memory.OneLine s
  edges : ∀ f ∈ st.edges, f.OneLine

theorem oneLine_capText {r : MdRx} {caps : List (MdGroup × List Char)} (n : MdGroup)
    (h : captures r t = some caps) (h1 : OneLine t) : OneLine (pyStrip (capText n caps)) :=
  h1.mono (List.Subset.trans (pyStrip_subset _) (capText_subset n h))

theorem mdBullet_oneLine (hs : OneLine s) (ht : OneLine t) : (mdBullet s t).OneLine := by
  unfold mdBullet
  split
  · next caps hcaps =>
      refine ⟨hs, ?_, ?_, (oneLine_capText .fact hcaps ht).mono (stripInline_subset _)⟩
      · dsimp only
        split
        · exact oneLine_generic
        · exact oneLine_capText .rel hcaps ht
      · intro o ho
        obtain ⟨x, hx, rfl⟩ := Option.map_eq_some_iff.1 (Option.mem_filter_iff.1 ho).1
        exact ht.mono (List.Subset.trans (pyStrip_subset x) (lookup_subset hcaps hx))
  · exact ⟨hs, oneLine_generic, nofun, ht.mono (stripInline_subset t)⟩

theorem MdState.OneLine.push (h : st.OneLine) {fs : List MdFact} (hfs : ∀ f ∈ fs, f.OneLine)
    (aliases : List (List Char × List Char)) :
    MdState.OneLine { st with edges := st.edges ++ fs, aliases := aliases } where
  cur := h.cur
  edges := List.forall_mem_append.2 ⟨h.edges, hfs⟩

theorem mdText_oneLine (h : st.OneLine) (ht : OneLine t) : (mdText digit st t).OneLine := by
  unfold mdText
  split
  · exact ⟨h.cur, h.edges⟩
  split
  · next caps hcaps =>
      dsimp only
      split
      · exact h
      split
      · exact h
      · next subject hcur =>
          split
          · exact h
          · refine h.push ?_ _
            intro f hf
            rw [List.mem_singleton.1 hf]
            exact mdBullet_oneLine (h.cur subject hcur) (oneLine_capText .content hcaps ht)
  split
  · exact h
  · next subject hcur =>
      refine h.push ?_ _
      intro f hf
      obtain ⟨x, hx, rfl⟩ := List.mem_map.1 hf
      exact ⟨h.cur subject hcur, oneLine_generic, nofun,
        (oneLine_splitSentences ht x hx).mono (stripInline_subset x)⟩

theorem mdTitle_oneLine {rx : MdRx} {next : MdState → List Char → MdState} (h : st.OneLine)
    (ht : OneLine t) (hnext : ∀ st : MdState, st.OneLine → (next st t).OneLine) :
    (mdTitle rx next st t).OneLine := by
  unfold mdTitle
  split
  · next caps hcaps =>
      have htitle : MdState.OneLine { st with cur := some (pyStrip (stripInline (capText .t caps))) } := by
        refine ⟨?_, h.edges⟩
        rintro s ⟨⟩
        exact ht.mono (List.Subset.trans (pyStrip_subset _)
          (List.Subset.trans (stripInline_subset _) (capText_subset .t hcaps)))
      dsimp only
      split
      · exact hnext _ htitle
      · exact htitle
  · exact hnext st h

theorem mdLine_oneLine (h : st.OneLine) (ht : OneLine t) : (mdLine L digit st t).OneLine := by
  have hline : OneLine (Text.trimEndMatches pyIsSpace t) :=
    ht.mono (Text.trimEndMatches_isPrefix _ _).subset
  unfold mdLine
  dsimp only
  split
  · exact h
  split
  · next caps hcaps =>
      split
      · exact h
      · refine ⟨?_, h.edges⟩
        intro s hs
        split at hs
        · cases hs
        · cases hs
          exact oneLine_capText .title hcaps hline
  · exact mdTitle_oneLine h hline fun _ h => mdTitle_oneLine h hline fun _ h => mdText_oneLine h hline

/-! ## The lines of a file -/

theorem splitlinesFrom_line (h : OneLine s) (cur t : List Char) :
    splitlinesFrom cur (s ++ '\n' :: t) = (cur ++ s) :: splitlinesFrom [] t := by
  induction s generalizing cur with
  | nil =>
    rw [List.append_nil, List.nil_append, splitlinesFrom, if_pos (by decide)]
    rintro t ⟨⟩
  | cons c s ih =>
    obtain ⟨hc, hs⟩ := oneLine_cons.1 h
    have hcr : c ≠ '\r' := by
      rintro rfl
      cases hc
    rw [List.cons_append, splitlinesFrom, if_neg (by simp [hc]), ih hs, List.append_assoc]
    · rfl
    · intro t h _
      exact hcr h

theorem splitlinesFrom_last (h : OneLine s) (cur : List Char) :
    splitlinesFrom cur s = if cur ++ s = [] then [] else [cur ++ s] := by
  induction s generalizing cur with
  | nil => rw [List.append_nil, splitlinesFrom]
  | cons c s ih =>
    obtain ⟨hc, hs⟩ := oneLine_cons.1 h
    have hcr : c ≠ '\r' := by
      rintro rfl
      cases hc
    rw [splitlinesFrom, if_neg (by simp [hc]), ih hs, List.append_assoc]
    · rfl
    · intro t h _
      exact hcr h

/-- The lines of joined lines; an empty one at the end is none, and says nothing. -/
theorem foldl_pySplitlines {ls : List (List Char)} (h : ∀ l ∈ ls, OneLine l) (st : MdState) :
    (pySplitlines (['\n'].intercalate ls)).foldl (mdLine L digit) st = ls.foldl (mdLine L digit) st := by
  unfold pySplitlines
  induction ls generalizing st with
  | nil => rfl
  | cons l ls ih =>
    obtain ⟨hl, hls⟩ := List.forall_mem_cons.1 h
    cases ls with
    | nil =>
      rw [List.intercalate_singleton, splitlinesFrom_last hl, List.nil_append]
      split
      · next hnil => rw [hnil]; rfl
      · rfl
    | cons l' ls =>
      rw [List.intercalate_cons_cons, List.append_assoc, List.singleton_append,
        splitlinesFrom_line hl, List.foldl_cons, List.nil_append, ih hls]
      rfl

theorem oneLine_pySplitlines (t : List Char) : ∀ l ∈ pySplitlines t, OneLine l := by
  suffices ∀ cur, OneLine cur → ∀ l ∈ splitlinesFrom cur t, OneLine l from this [] oneLine_nil
  intro cur hcur
  fun_induction splitlinesFrom cur t with
  | case1 => exact nofun
  | case2 cur hne =>
    intro l hl
    rw [List.mem_singleton.1 hl]
    exact hcur
  | case3 cur t ih => exact List.forall_mem_cons.2 ⟨hcur, ih oneLine_nil⟩
  | case4 cur c t hc hend ih => exact List.forall_mem_cons.2 ⟨hcur, ih oneLine_nil⟩
  | case5 cur c t hc hend ih =>
    exact ih (oneLine_append.2 ⟨hcur, by simpa using hend⟩)

theorem mdParse_oneLine (L : Text.Lowercase) (digit : Char → Bool) (t : List Char) :
    ∀ f ∈ (mdParse L digit t).1, f.OneLine := by
  suffices ∀ (ls : List (List Char)) (st : MdState), (∀ l ∈ ls, OneLine l) → st.OneLine →
      (ls.foldl (mdLine L digit) st).OneLine from
    (this _ .init (oneLine_pySplitlines t) ⟨nofun, nofun⟩).edges
  intro ls
  induction ls with
  | nil => exact fun st _ h => h
  | cons l ls ih =>
    intro st hls h
    obtain ⟨hl, hls⟩ := List.forall_mem_cons.1 hls
    exact ih _ hls (mdLine_oneLine h hl)

/-! ## Facts under a subject -/

/-- A fact as it is read back from where it is one. -/
def FactView.md (f : FactView) : MdFact := ⟨f.subject, f.read.relation, f.object, f.fact⟩

def FactView.line (f : FactView) : List Char := factLine f.relation (f.object.getD []) f.fact

/-- A fact as `add_fact` stores it of stripped texts, on one line. -/
structure FactView.Fits (f : FactView) : Prop where
  relation : pyStrip f.relation = f.relation
  object : ∀ o ∈ f.object, Stripped o
  fact : Stripped f.fact
  line : f.md.OneLine

/-- No mark that the reader takes for one of the bullet's. -/
structure FactView.Plain (f : FactView) : Prop where
  relation : '*' ∉ f.relation
  object : ∀ o ∈ f.object, ':' ∉ o
  fact : ¬ HasBold f.fact

/-- What the bullet of a fact gives under the current subject. -/
def readBullet (cur : Option (List Char)) (f : FactView) : List MdFact :=
  (cur.toList.map fun x => mdBullet x (bulletText f.read.relation (f.object.getD []) f.fact)).filter
    fun g => g.fact ≠ []

theorem length_readBullet (cur : Option (List Char)) (f : FactView) :
    (readBullet cur f).length ≤ 1 := by
  refine (List.length_filter_le _ _).trans ?_
  rw [List.length_map]
  cases cur <;> simp

section
variable {f : FactView}

theorem FactView.Fits.read (h : f.Fits) : Stripped f.read.relation := by
  rw [FactView.read_relation]
  split
  · exact ⟨pyStrip_generic, by decide⟩
  · next hne => exact ⟨h.relation, hne⟩

theorem FactView.Fits.object_oneLine (h : f.Fits) : OneLine (f.object.getD []) := by
  cases ho : f.object with
  | none => exact oneLine_nil
  | some o => exact h.line.obj o ho

theorem FactView.Fits.relation_oneLine (h : f.Fits) : OneLine f.relation := by
  have hread := h.line.relation
  change OneLine f.read.relation at hread
  rw [FactView.read_relation] at hread
  split at hread
  · next hnil =>
      rw [hnil]
      exact oneLine_nil
  · exact hread

theorem FactView.Fits.object_stripped (h : f.Fits) :
    f.object.getD [] = [] ∨ Stripped (f.object.getD []) := by
  cases ho : f.object with
  | none => exact .inl rfl
  | some o => exact .inr (h.object o ho)

theorem star_read : '*' ∉ f.read.relation ↔ '*' ∉ f.relation := by
  rw [FactView.read_relation]
  split
  · next hnil =>
      rw [hnil]
      decide
  · rfl

/-- The bullet of a fact is read as the fact exactly under its subject and without a mark
that is taken for another one. -/
theorem readBullet_eq_iff (h : f.Fits) (cur : Option (List Char)) :
    readBullet cur f = [f.md] ↔ cur = some f.subject ∧ f.Plain := by
  have hmd : f.md = ⟨f.subject, f.read.relation,
      if f.object.getD [] = [] then none else some (f.object.getD []), f.fact⟩ := by
    unfold FactView.md
    cases ho : f.object with
    | none => rfl
    | some o => simp [(h.object o ho).ne]
  have hplain : f.Plain ↔ '*' ∉ f.read.relation ∧ ':' ∉ f.object.getD [] ∧ ¬ HasBold f.fact := by
    rw [star_read]
    constructor
    · intro hp
      refine ⟨hp.relation, ?_, hp.fact⟩
      cases ho : f.object with
      | none => exact List.not_mem_nil
      | some o => exact hp.object o ho
    · rintro ⟨hr, ho, hf⟩
      refine ⟨hr, ?_, hf⟩
      intro o hmem
      rwa [Option.mem_def.1 hmem] at ho
  cases cur with
  | none => simp [readBullet]
  | some x =>
    rw [Option.some_inj, hplain,
      ← mdBullet_eq_iff x f.subject h.read h.object_stripped h.fact h.line.fact, ← hmd]
    unfold readBullet
    simp only [Option.toList_some, List.map_cons, List.map_nil]
    constructor
    · intro heq
      have hmem : f.md ∈ [mdBullet x (bulletText f.read.relation (f.object.getD []) f.fact)] :=
        List.mem_of_mem_filter (heq ▸ List.mem_singleton.2 rfl)
      exact (List.mem_singleton.1 hmem).symm
    · intro heq
      have hne : f.md.fact ≠ [] := h.fact.ne
      rw [heq]
      simp [hne]

end

theorem foldl_bullets {fs : List FactView} (hfs : ∀ f ∈ fs, f.Fits) (st : MdState) :
    (fs.map FactView.line).foldl (mdLine L digit) st =
      { st with edges := st.edges ++ fs.flatMap (readBullet st.cur) } := by
  induction fs generalizing st with
  | nil => simp
  | cons f fs ih =>
    obtain ⟨hf, hfs⟩ := List.forall_mem_cons.1 hfs
    have hline : mdLine L digit st f.line = { st with edges := st.edges ++ readBullet st.cur f } :=
      mdLine_fact st hf.relation_oneLine hf.object_oneLine hf.fact hf.line.fact
    rw [List.map_cons, List.foldl_cons, hline, ih hfs]
    simp

theorem length_flatMap_le {α β : Type} {f : α → List β} {xs : List α}
    (h : ∀ x ∈ xs, (f x).length ≤ 1) : (xs.flatMap f).length ≤ xs.length := by
  induction xs with
  | nil => exact Nat.le_refl _
  | cons x xs ih =>
    obtain ⟨hx, hxs⟩ := List.forall_mem_cons.1 h
    have hrest := ih hxs
    rw [List.flatMap_cons, List.length_append, List.length_cons]
    omega

/-- Lists of at most one item each, joined, are the items exactly when each is its item. -/
theorem flatMap_eq_map_iff {α β : Type} {f : α → List β} {g : α → β} {xs : List α}
    (h : ∀ x ∈ xs, (f x).length ≤ 1) : xs.flatMap f = xs.map g ↔ ∀ x ∈ xs, f x = [g x] := by
  induction xs with
  | nil => simp
  | cons x xs ih =>
    obtain ⟨hx, hxs⟩ := List.forall_mem_cons.1 h
    rw [List.flatMap_cons, List.map_cons, List.forall_mem_cons, ← ih hxs]
    constructor
    · intro heq
      have hrest := length_flatMap_le hxs
      have hlen := congrArg List.length heq
      rw [List.length_append, List.length_cons, List.length_map] at hlen
      have hone : (f x).length = [g x].length := by
        rw [List.length_singleton]
        omega
      exact List.append_inj heq hone
    · rintro ⟨hx, hxs⟩
      rw [hx, hxs]
      rfl

/-! ## The part of an export about one subject -/

structure Block where
  subject : List Char
  aliases : List (List Char)
  facts : List FactView

namespace Block

def lines (b : Block) : List (List Char) :=
  ("## ".toList ++ b.subject) :: (aliasLine b.aliases ++ b.facts.map FactView.line ++ [[]])

/-- The facts as they should come back, and the aliases. -/
def edges (b : Block) : List MdFact := b.facts.map FactView.md

def pairs (b : Block) : List (List Char × List Char) := b.aliases.map fun a => (b.subject, a)

/-- What the tables give: stripped texts of one line, and normalised aliases. -/
structure Fits (b : Block) : Prop where
  subject : Stripped b.subject
  line : OneLine b.subject
  aliases : ∀ a ∈ b.aliases, a ≠ [] ∧ OneLine a ∧ ∀ c ∈ a.head?, isWhitespace c = false
  facts : ∀ f ∈ b.facts, f.Fits ∧ f.subject = b.subject
  some : b.facts ≠ []

/-- The heading is read as the subject, the line of the aliases as the one alias, and every
bullet as its fact. -/
structure Plain (L : Text.Lowercase) (b : Block) : Prop where
  mark : b.subject.getLast? ≠ some '#'
  title : L.lower b.subject ≠ "sujets sans fait".toList
  one : b.aliases.length ≤ 1
  aliases : ∀ a ∈ b.aliases, pyStrip a = a
  facts : ∀ f ∈ b.facts, f.Plain

variable {b : Block}

theorem Fits.aliasText (h : b.Fits) (hne : b.aliases ≠ []) :
    ", ".toList.intercalate b.aliases ≠ [] ∧ OneLine (", ".toList.intercalate b.aliases) ∧
      ∀ c ∈ (", ".toList.intercalate b.aliases).head?, isWhitespace c = false := by
  obtain ⟨a, as, has⟩ := List.exists_cons_of_ne_nil hne
  have haliases := h.aliases
  rw [has] at haliases ⊢
  have hlines : ∀ as : List (List Char), (∀ a ∈ as, OneLine a) → OneLine (", ".toList.intercalate as) := by
    intro as
    induction as with
    | nil => exact fun _ => oneLine_nil
    | cons a as ih =>
      intro h
      obtain ⟨ha, has⟩ := List.forall_mem_cons.1 h
      cases as with
      | nil => rwa [List.intercalate_singleton]
      | cons a' as =>
        rw [List.intercalate_cons_cons, oneLine_append, oneLine_append]
        exact ⟨⟨ha, by decide⟩, ih has⟩
  obtain ⟨ha, -, hhead⟩ := haliases a List.mem_cons_self
  obtain ⟨c, a, rfl⟩ := List.exists_cons_of_ne_nil ha
  have hstart : ∃ r, ", ".toList.intercalate ((c :: a) :: as) = c :: r := by
    cases as with
    | nil => exact ⟨a, List.intercalate_singleton⟩
    | cons a' as => exact ⟨_, by rw [List.intercalate_cons_cons]; rfl⟩
  obtain ⟨r, hr⟩ := hstart
  refine ⟨by rw [hr]; exact List.cons_ne_nil _ _, hlines _ fun a ha => (haliases a ha).2.1, ?_⟩
  rw [hr]
  exact hhead

theorem foldl_aliasLine (h : b.Fits) (hst : st.cur ≠ some []) :
    ∃ x, (aliasLine b.aliases).foldl (mdLine L digit) st =
        { st with aliases := st.aliases ++
          if b.aliases = [] then [] else st.cur.toList.map fun s => (s, pyStrip x) } ∧
      ∀ a, b.aliases = [a] → Stripped a → x = a := by
  unfold aliasLine
  by_cases hnil : b.aliases = []
  · refine ⟨[], by simp [hnil], ?_⟩
    intro a ha
    rw [hnil] at ha
    cases ha
  · obtain ⟨hne, h1, hhead⟩ := h.aliasText hnil
    obtain ⟨x, hx, hxa⟩ := @mdLine_alias L digit _ st hne h1 hhead hst
    refine ⟨x, ?_, ?_⟩
    · rw [if_neg hnil, if_neg hnil]
      exact hx
    · intro a ha hs
      rw [ha, List.intercalate_singleton] at hxa
      exact hxa hs

/-- What a block gives, from any state. -/
structure Gives (L : Text.Lowercase) (st st' : MdState) (b : Block) (es : List MdFact)
    (as : List (List Char × List Char)) : Prop where
  edges : st'.edges = st.edges ++ es
  aliases : st'.aliases = st.aliases ++ as
  cur : st'.cur ≠ some []
  few_edges : es.length ≤ b.edges.length
  few_aliases : as.length ≤ b.pairs.length
  plain : b.Plain L → es = b.edges ∧ as = b.pairs ∧ st'.cur = some b.subject
  only : st.cur ≠ some b.subject → es = b.edges → as = b.pairs → b.Plain L ∧ st'.cur = some b.subject

theorem gives (L : Text.Lowercase) (digit : Char → Bool) (h : b.Fits) (hst : st.cur ≠ some []) :
    ∃ es as, b.Gives L st (b.lines.foldl (mdLine L digit) st) es as := by
  obtain ⟨cur, hheading, hcur, honly, hnil⟩ := mdLine_subject L digit st h.subject h.line
  have hcurne : cur ≠ some [] := fun hc => hst (hnil hc)
  obtain ⟨x, haliases, hx⟩ :=
    @foldl_aliasLine L digit { st with cur := cur } b h hcurne
  have hfits : ∀ f ∈ b.facts, f.Fits := fun f hf => (h.facts f hf).1
  have hread : ∀ f ∈ b.facts, (readBullet cur f).length ≤ 1 := fun f _ => length_readBullet cur f
  have hrun : b.lines.foldl (mdLine L digit) st =
      ⟨cur, st.edges ++ b.facts.flatMap (readBullet cur), st.aliases ++
        if b.aliases = [] then [] else cur.toList.map fun s => (s, pyStrip x)⟩ := by
    unfold lines
    rw [List.foldl_cons, hheading, List.foldl_append, List.foldl_append, haliases,
      foldl_bullets hfits]
    rfl
  have hfacts : b.facts.flatMap (readBullet cur) = b.edges ↔
      cur = some b.subject ∧ ∀ f ∈ b.facts, f.Plain := by
    unfold edges
    rw [flatMap_eq_map_iff hread]
    constructor
    · intro hall
      have heach := fun f hf => (readBullet_eq_iff (hfits f hf) cur).1 (hall f hf)
      obtain ⟨f, hf⟩ := List.exists_mem_of_ne_nil _ h.some
      refine ⟨?_, fun f hf => (heach f hf).2⟩
      rw [← (h.facts f hf).2]
      exact (heach f hf).1
    · rintro ⟨rfl, hplain⟩ f hf
      exact (readBullet_eq_iff (hfits f hf) _).2 ⟨by rw [(h.facts f hf).2], hplain f hf⟩
  rw [hrun]
  refine ⟨_, _, rfl, rfl, hcurne, ?_, ?_, ?_, ?_⟩
  · rw [edges, List.length_map]
    exact length_flatMap_le hread
  · rw [pairs, List.length_map]
    split
    · exact Nat.zero_le _
    · next hne =>
        have hpos := List.length_pos_iff.2 hne
        have hone : (cur.toList.map fun s => (s, pyStrip x)).length ≤ 1 := by cases cur <;> simp
        omega
  · intro hp
    have hc := hcur hp.mark hp.title
    refine ⟨hfacts.2 ⟨hc, hp.facts⟩, ?_, hc⟩
    rw [hc]
    match ha : b.aliases, hp.one with
    | [], _ => simp [pairs, ha]
    | [a], _ =>
      have hmem : a ∈ b.aliases := by
        rw [ha]
        exact List.mem_singleton.2 rfl
      have hxa := hx a ha ⟨hp.aliases a hmem, (h.aliases a hmem).1⟩
      rw [hxa, hp.aliases a hmem]
      simp [pairs, ha]
  · intro hne hes has
    obtain ⟨hc, hplain⟩ := hfacts.1 hes
    obtain ⟨hmark, htitle⟩ := (honly hc).resolve_left hne
    rw [hc] at has
    refine ⟨⟨hmark, htitle, ?_, ?_, hplain⟩, hc⟩
    · have hlen := congrArg List.length has
      rw [pairs, List.length_map] at hlen
      split at hlen
      · rw [← hlen]
        exact Nat.zero_le 1
      · rw [← hlen]
        exact Nat.le_refl 1
    · intro a ha
      have hmem : (b.subject, a) ∈ b.pairs := List.mem_map_of_mem ha
      rw [← has, if_neg (List.ne_nil_of_mem ha), Option.toList_some, List.map_cons, List.map_nil,
        List.mem_singleton] at hmem
      rw [(Prod.mk.inj hmem).2]
      exact pyStrip_idem x

end Block

/-- Behind a run of blocks the reader has what was written exactly when each is plain. What
is missing is made up for by no other block. -/
theorem foldl_blocks (L : Text.Lowercase) (digit : Char → Bool) {bs : List Block}
    (hfits : ∀ b ∈ bs, b.Fits) (hnodup : (bs.map Block.subject).Nodup) (hst : st.cur ≠ some []) :
    ∃ es as, ((bs.flatMap Block.lines).foldl (mdLine L digit) st).edges = st.edges ++ es ∧
      ((bs.flatMap Block.lines).foldl (mdLine L digit) st).aliases = st.aliases ++ as ∧
      es.length ≤ (bs.flatMap Block.edges).length ∧ as.length ≤ (bs.flatMap Block.pairs).length ∧
      ((∀ b ∈ bs, st.cur ≠ some b.subject) →
        (es = bs.flatMap Block.edges ∧ as = bs.flatMap Block.pairs ↔ ∀ b ∈ bs, b.Plain L)) := by
  induction bs generalizing st with
  | nil => exact ⟨[], [], by simp⟩
  | cons b bs ih =>
    obtain ⟨hb, hbs⟩ := List.forall_mem_cons.1 hfits
    rw [List.map_cons, List.nodup_cons] at hnodup
    obtain ⟨hnew, hnodup⟩ := hnodup
    obtain ⟨es₁, as₁, hg⟩ := Block.gives L digit hb hst
    obtain ⟨es₂, as₂, hedges, haliases, hfew₂, hfew₂', hiff⟩ := ih hbs hnodup hg.cur
    have hfew₁ := hg.few_edges
    have hfew₁' := hg.few_aliases
    rw [List.flatMap_cons, List.flatMap_cons, List.flatMap_cons, List.foldl_append]
    refine ⟨es₁ ++ es₂, as₁ ++ as₂, ?_, ?_, ?_, ?_, ?_⟩
    · rw [hedges, hg.edges, List.append_assoc]
    · rw [haliases, hg.aliases, List.append_assoc]
    · rw [List.length_append, List.length_append]
      omega
    · rw [List.length_append, List.length_append]
      omega
    intro hcur
    obtain ⟨hcurb, hcurbs⟩ := List.forall_mem_cons.1 hcur
    have hother : (b.lines.foldl (mdLine L digit) st).cur = some b.subject →
        ∀ b' ∈ bs, (b.lines.foldl (mdLine L digit) st).cur ≠ some b'.subject := by
      intro hc b' hb' heq
      rw [hc] at heq
      exact hnew (Option.some.inj heq ▸ List.mem_map_of_mem hb')
    rw [List.forall_mem_cons]
    constructor
    · rintro ⟨hes, has⟩
      have hlen := congrArg List.length hes
      have hlen' := congrArg List.length has
      rw [List.length_append, List.length_append] at hlen hlen'
      obtain ⟨hes₁, hes₂⟩ := List.append_inj hes (by omega)
      obtain ⟨has₁, has₂⟩ := List.append_inj has (by omega)
      obtain ⟨hplain, hc⟩ := hg.only hcurb hes₁ has₁
      exact ⟨hplain, (hiff (hother hc)).1 ⟨hes₂, has₂⟩⟩
    · rintro ⟨hplain, hall⟩
      obtain ⟨hes₁, has₁, hc⟩ := hg.plain hplain
      obtain ⟨hes₂, has₂⟩ := (hiff (hother hc)).2 hall
      exact ⟨by rw [hes₁, hes₂], by rw [has₁, has₂]⟩

end Portal.Memory
