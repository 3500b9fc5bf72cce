import DgxPlatform.Lib.CommonRun
import DgxPlatform.Portal.FileTools

/-! # The lines that a rewrite keeps

`matching_blocks` takes the longest block of equal lines, goes on with what stands before it
and behind it in both texts, sorts what it has found and joins adjacent blocks.

* `longest_spec`: the longest block of two ranges, of these the first.
* `drained`: the work list comes to its end with the blocks of the recursion.
* `aligned_matchingBlocks`: what comes out is an alignment that holds the longest block.
-/

namespace Portal.FileTools

open CommonRun

variable {a b : List Line} {alo ahi blo bhi i j k : Nat}

/-- A block of equal lines in two ranges. -/
structure Common (a b : List Line) (alo ahi blo bhi : Nat) (m : Block) : Prop where
  left : alo ≤ m.i
  right : m.i + m.size ≤ ahi
  left' : blo ≤ m.j
  right' : m.j + m.size ≤ bhi
  equal : Match a b m.i m.j m.size

/-! ## The longest block -/

/-- The block that ends with line `i` of the old text and line `j` of the new one. -/
def blockEnding (a b : List Line) (alo blo i j : Nat) : Block :=
  let k := ending a b alo blo (i + 1) (j + 1)
  ⟨i + 1 - k, j + 1 - k, k⟩

/-- The places of a line in a range of the new text. -/
def places (b : List Line) (blo bhi : Nat) (x : Line) : List Nat :=
  (b.zipIdx.filter fun y => y.1 = x ∧ blo ≤ y.2 ∧ y.2 < bhi).map Prod.snd

/-- All blocks that cannot be continued back, by the lines that end them. -/
def candidates (a b : List Line) (alo blo bhi : Nat) (xs : List (Line × Nat)) : List Block :=
  xs.flatMap fun x => (places b blo bhi x.1).map (blockEnding a b alo blo x.2)

theorem mem_places {x : Line} : j ∈ places b blo bhi x ↔ b[j]? = some x ∧ blo ≤ j ∧ j < bhi := by
  unfold places
  rw [List.mem_map]
  constructor
  · rintro ⟨⟨y, j'⟩, hy, rfl⟩
    obtain ⟨hmem, hkept⟩ := List.mem_filter.1 hy
    rw [decide_eq_true_eq] at hkept
    obtain ⟨rfl, hlo, hhi⟩ := hkept
    exact ⟨List.mk_mem_zipIdx_iff_getElem?.1 hmem, hlo, hhi⟩
  · rintro ⟨hget, hlo, hhi⟩
    refine ⟨(x, j), List.mem_filter.2 ⟨List.mk_mem_zipIdx_iff_getElem?.2 hget, ?_⟩, rfl⟩
    exact decide_eq_true ⟨rfl, hlo, hhi⟩

/-- What the table of the row before has to say at each place of the range. -/
def Table (a b : List Line) (alo blo bhi i : Nat) (j2len : List (Nat × Nat)) : Prop :=
  ∀ j, blo ≤ j → j < bhi →
    (if j = 0 then 0 else (j2len.lookup (j - 1)).getD 0) = ending a b alo blo i j

theorem runsAt_eq {j2len : List (Nat × Nat)} {x : Line} (h : Table a b alo blo bhi i j2len)
    (hx : a[i]? = some x) (hi : alo ≤ i) :
    runsAt b blo bhi j2len x =
      (places b blo bhi x).map fun j => (j, ending a b alo blo (i + 1) (j + 1)) := by
  unfold runsAt places
  rw [List.map_map]
  refine List.map_congr_left fun y hy => ?_
  have hkept := (List.mem_filter.1 hy)
  have hget : b[y.2]? = some y.1 := List.mk_mem_zipIdx_iff_getElem?.1 hkept.1
  obtain ⟨heq, hlo, hhi⟩ := of_decide_eq_true hkept.2
  have hpair : alo ≤ i ∧ blo ≤ y.2 ∧ i < a.length ∧ a[i]? = b[y.2]? := by
    refine ⟨hi, hlo, ?_, ?_⟩
    · exact (List.getElem?_eq_some_iff.1 hx).1
    · rw [hx, hget, heq]
  show (y.2, _) = (y.2, _)
  rw [h y.2 hlo hhi, ending, if_pos hpair]

theorem lookup_map_places {f : Nat → Nat} (js : List Nat) :
    (js.map fun j => (j, f j)).lookup k = if k ∈ js then some (f k) else none := by
  induction js with
  | nil => rfl
  | cons j js ih =>
    rw [List.map_cons, List.lookup_cons]
    by_cases hk : k = j
    · subst hk
      rw [beq_self_eq_true, if_pos List.mem_cons_self]
    · rw [beq_false_of_ne hk]
      dsimp only
      rw [ih]
      have hmem : k ∈ j :: js ↔ k ∈ js := by
        rw [List.mem_cons]
        exact or_iff_right hk
      simp only [hmem]

theorem table_step {j2len : List (Nat × Nat)} {x : Line} (h : Table a b alo blo bhi i j2len)
    (hx : a[i]? = some x) (hi : alo ≤ i) :
    Table a b alo blo bhi (i + 1) (runsAt b blo bhi j2len x) := by
  intro j hlo hhi
  rw [runsAt_eq h hx hi, lookup_map_places]
  cases j with
  | zero => rfl
  | succ j =>
    rw [if_neg (Nat.succ_ne_zero j), Nat.add_sub_cancel]
    by_cases hmem : j ∈ places b blo bhi x
    · rw [if_pos hmem, Option.getD_some]
    · rw [if_neg hmem, Option.getD_none, ending, if_neg]
      rintro ⟨-, hblo, -, heq⟩
      refine hmem (mem_places.2 ⟨?_, hblo, by omega⟩)
      rw [← heq, hx]

theorem longestStep_eq {acc : Block × List (Nat × Nat)} {x : Line} (h : Table a b alo blo bhi i acc.2)
    (hx : a[i]? = some x) (hi : alo ≤ i) :
    (longestStep b blo bhi acc (x, i)).1 =
      ((places b blo bhi x).map (blockEnding a b alo blo i)).foldl (pick Block.size) acc.1 := by
  unfold longestStep
  dsimp only
  rw [runsAt_eq h hx hi, List.foldl_map, List.foldl_map]
  rfl

theorem foldl_longestStep (l : List Line) {acc : Block × List (Nat × Nat)}
    (htable : Table a b alo blo bhi i acc.2) (hi : alo ≤ i)
    (hl : ∀ x ∈ l.zipIdx i, a[x.2]? = some x.1) :
    ((l.zipIdx i).foldl (longestStep b blo bhi) acc).1 =
      (candidates a b alo blo bhi (l.zipIdx i)).foldl (pick Block.size) acc.1 := by
  induction l generalizing i acc with
  | nil => rfl
  | cons x l ih =>
    rw [List.zipIdx_cons] at hl ⊢
    obtain ⟨hx, hrest⟩ := List.forall_mem_cons.1 hl
    have hnext := table_step htable hx hi
    have hrow := longestStep_eq htable hx hi
    rw [List.foldl_cons, @ih (i + 1) (longestStep b blo bhi acc (x, i)) hnext (by omega) hrest, hrow]
    unfold candidates
    rw [List.flatMap_cons, List.foldl_append]

theorem ending_eq_zero : ending a b alo blo alo j = 0 := by
  have hle := @le_ending_iff _ a b alo blo alo j 1 _
  by_contra hne
  rcases hle.1 (by omega) with hzero | ⟨hlt, -⟩
  · cases hzero
  · omega

theorem getElem?_of_mem_range {x : Line × Nat} (h : x ∈ ((a.take ahi).drop alo).zipIdx alo) :
    a[x.2]? = some x.1 ∧ alo ≤ x.2 ∧ x.2 < ahi := by
  obtain ⟨hle, hlt, hget⟩ := List.mem_zipIdx h
  rw [List.length_drop, List.length_take] at hlt
  refine ⟨?_, hle, by omega⟩
  rw [hget, List.getElem_drop, List.getElem_take]
  have hplace : alo + (x.2 - alo) = x.2 := by omega
  simp only [hplace]
  exact List.getElem?_eq_getElem _

theorem longest_eq :
    longest a b alo ahi blo bhi =
      (candidates a b alo blo bhi (((a.take ahi).drop alo).zipIdx alo)).foldl (pick Block.size)
        ⟨alo, blo, 0⟩ := by
  have hstart : Table a b alo blo bhi alo [] := by
    intro j _ _
    rw [ending_eq_zero, List.lookup_nil, Option.getD_none, ite_self]
  exact @foldl_longestStep a b alo blo bhi alo _ (⟨alo, blo, 0⟩, []) hstart (Nat.le_refl alo)
    fun x hx => (getElem?_of_mem_range hx).1

theorem mem_candidates {m : Block} :
    m ∈ candidates a b alo blo bhi (((a.take ahi).drop alo).zipIdx alo) ↔
      ∃ i j, (alo ≤ i ∧ i < ahi ∧ i < a.length) ∧ (blo ≤ j ∧ j < bhi) ∧ a[i]? = b[j]? ∧
        m = blockEnding a b alo blo i j := by
  unfold candidates
  rw [List.mem_flatMap]
  constructor
  · rintro ⟨x, hx, hm⟩
    obtain ⟨j, hj, rfl⟩ := List.mem_map.1 hm
    obtain ⟨hget, hlo, hhi⟩ := getElem?_of_mem_range hx
    obtain ⟨hplace, hblo, hbhi⟩ := mem_places.1 hj
    exact ⟨x.2, j, ⟨hlo, hhi, (List.getElem?_eq_some_iff.1 hget).1⟩, ⟨hblo, hbhi⟩, hget.trans hplace.symm, rfl⟩
  · rintro ⟨i, j, ⟨hlo, hhi, hlt⟩, ⟨hblo, hbhi⟩, heq, rfl⟩
    refine ⟨(a[i], i), ?_, List.mem_map.2 ⟨j, mem_places.2 ⟨?_, hblo, hbhi⟩, rfl⟩⟩
    · refine List.mk_mem_zipIdx_iff_le_and_getElem?_sub.2 ⟨hlo, ?_⟩
      rw [List.getElem?_drop, List.getElem?_take, if_pos (by omega)]
      have hplace : alo + (i - alo) = i := by omega
      rw [hplace]
      exact List.getElem?_eq_getElem hlt
    · rw [← heq]
      exact List.getElem?_eq_getElem hlt

theorem blockEnding_spec (a b : List Line) (alo blo i j : Nat) :
    (blockEnding a b alo blo i j).i + (blockEnding a b alo blo i j).size = i + 1 ∧
      (blockEnding a b alo blo i j).j + (blockEnding a b alo blo i j).size = j + 1 ∧
      (0 < (blockEnding a b alo blo i j).size → alo ≤ (blockEnding a b alo blo i j).i ∧
        blo ≤ (blockEnding a b alo blo i j).j ∧
          Match a b (blockEnding a b alo blo i j).i (blockEnding a b alo blo i j).j
            (blockEnding a b alo blo i j).size) := by
  unfold blockEnding
  dsimp only
  rcases le_ending_iff.1 (Nat.le_refl (ending a b alo blo (i + 1) (j + 1))) with hzero | ⟨hi, hj, hmatch⟩
  · rw [hzero]
    exact ⟨rfl, rfl, fun h => absurd h (Nat.lt_irrefl 0)⟩
  · exact ⟨by omega, by omega, fun _ => ⟨by omega, by omega, hmatch⟩⟩

/-- The one block ends before the other, first in the old text, then in the new one. -/
def EndsBefore (m m' : Block) : Prop :=
  m.i + m.size < m'.i + m'.size ∨ m.i + m.size = m'.i + m'.size ∧ m.j + m.size < m'.j + m'.size

theorem pairwise_zipIdx (l : List Line) (i : Nat) : (l.zipIdx i).Pairwise fun x y => x.2 < y.2 := by
  rw [← List.pairwise_map, List.zipIdx_map_snd]
  exact List.pairwise_lt_range'

theorem pairwise_candidates :
    (candidates a b alo blo bhi (((a.take ahi).drop alo).zipIdx alo)).Pairwise EndsBefore := by
  unfold candidates
  rw [List.pairwise_flatMap]
  constructor
  · intro x _
    unfold places
    rw [List.map_map, List.pairwise_map]
    refine ((pairwise_zipIdx b 0).filter _).imp fun {y y'} hlt => .inr ?_
    have hy := blockEnding_spec a b alo blo x.2 y.2
    have hy' := blockEnding_spec a b alo blo x.2 y'.2
    exact ⟨hy.1.trans hy'.1.symm, by dsimp only [Function.comp]; omega⟩
  · refine (pairwise_zipIdx _ alo).imp fun {x x'} hlt m hm m' hm' => .inl ?_
    obtain ⟨j, -, rfl⟩ := List.mem_map.1 hm
    obtain ⟨j', -, rfl⟩ := List.mem_map.1 hm'
    have hx := (blockEnding_spec a b alo blo x.2 j).1
    have hx' := (blockEnding_spec a b alo blo x'.2 j').1
    omega

/-- A block of two ranges is no longer than the one that ends with it. -/
theorem Common.exists_candidate {m : Block} (h : Common a b alo ahi blo bhi m) (hpos : 0 < m.size) :
    ∃ m' ∈ candidates a b alo blo bhi (((a.take ahi).drop alo).zipIdx alo),
      m.size ≤ m'.size ∧ m'.i + m'.size = m.i + m.size ∧ m'.j + m'.size = m.j + m.size := by
  obtain ⟨hlo, hhi, hblo, hbhi, hmatch⟩ := h
  have hlast := hmatch (m.size - 1) (by omega)
  have hi : m.i + (m.size - 1) + 1 = m.i + m.size := by omega
  have hj : m.j + (m.size - 1) + 1 = m.j + m.size := by omega
  have hends := blockEnding_spec a b alo blo (m.i + (m.size - 1)) (m.j + (m.size - 1))
  rw [hi, hj] at hends
  refine ⟨_, mem_candidates.2 ⟨m.i + (m.size - 1), m.j + (m.size - 1), ⟨by omega, by omega, hlast.1⟩,
    ⟨by omega, by omega⟩, hlast.2, rfl⟩, ?_, hends.1, hends.2.1⟩
  show m.size ≤ ending a b alo blo (m.i + (m.size - 1) + 1) (m.j + (m.size - 1) + 1)
  rw [hi, hj]
  refine le_ending_iff.2 (.inr ⟨by omega, by omega, ?_⟩)
  rwa [Nat.add_sub_cancel, Nat.add_sub_cancel]

/-- What `longest` finds: a block of the two ranges, none is longer, and of those as long it is
the first in the old text, then in the new one. -/
structure IsLongest (a b : List Line) (alo ahi blo bhi : Nat) (m : Block) : Prop where
  common : 0 < m.size → Common a b alo ahi blo bhi m
  largest : ∀ m', Common a b alo ahi blo bhi m' → m'.size ≤ m.size
  first : ∀ m', Common a b alo ahi blo bhi m' → 0 < m'.size → m'.size = m.size →
    m.i < m'.i ∨ m.i = m'.i ∧ m.j ≤ m'.j

theorem longest_spec (a b : List Line) (alo ahi blo bhi : Nat) :
    IsLongest a b alo ahi blo bhi (longest a b alo ahi blo bhi) := by
  rw [longest_eq]
  have hall := (@le_foldl_pick _ Block.size ⟨alo, blo, 0⟩
    (candidates a b alo blo bhi (((a.take ahi).drop alo).zipIdx alo))).2
  constructor
  · intro hpos
    rcases @foldl_pick_mem _ Block.size ⟨alo, blo, 0⟩
      (candidates a b alo blo bhi (((a.take ahi).drop alo).zipIdx alo)) with heq | hmem
    · rw [heq] at hpos
      exact absurd hpos (Nat.lt_irrefl 0)
    · obtain ⟨i, j, ⟨-, hhi, -⟩, ⟨-, hbhi⟩, -, heq⟩ := mem_candidates.1 hmem
      have hends := blockEnding_spec a b alo blo i j
      rw [heq] at hpos ⊢
      obtain ⟨hleft, hleft', hmatch⟩ := hends.2.2 hpos
      exact ⟨hleft, by omega, hleft', by omega, hmatch⟩
  · intro m' hm'
    rcases Nat.eq_zero_or_pos m'.size with hzero | hpos
    · omega
    · obtain ⟨c, hc, hle, -⟩ := hm'.exists_candidate hpos
      exact Nat.le_trans hle (hall c hc)
  · intro m' hm' hpos heq
    obtain ⟨c, hc, hle, hi, hj⟩ := hm'.exists_candidate hpos
    have hsize : c.size = m'.size := by
      have hmax := hall c hc
      omega
    have hfirst := foldl_pick_first pairwise_candidates hc (by show 0 < c.size; omega) (hsize.trans heq)
    rcases hfirst with hsame | hlt | ⟨heq', hlt⟩
    · rw [hsame]
      omega
    · omega
    · omega

/-! ## The blocks of the recursion -/

theorem Common.mono {alo' ahi' blo' bhi' : Nat} {m : Block} (h : Common a b alo ahi blo bhi m)
    (h1 : alo' ≤ alo) (h2 : ahi ≤ ahi') (h3 : blo' ≤ blo) (h4 : bhi ≤ bhi') :
    Common a b alo' ahi' blo' bhi' m where
  left := Nat.le_trans h1 h.left
  right := Nat.le_trans h.right h2
  left' := Nat.le_trans h3 h.left'
  right' := Nat.le_trans h.right' h4
  equal := h.equal

/-- The one block stands before the other in both texts. -/
def Before (m m' : Block) : Prop := m.i + m.size ≤ m'.i ∧ m.j + m.size ≤ m'.j

/-- What is still to be done before a block, and behind it. -/
def leftOf (alo blo : Nat) (m : Block) : List (Nat × Nat × Nat × Nat) :=
  if alo < m.i ∧ blo < m.j then [(alo, m.i, blo, m.j)] else []

def rightOf (ahi bhi : Nat) (m : Block) : List (Nat × Nat × Nat × Nat) :=
  if m.i + m.size < ahi ∧ m.j + m.size < bhi then [(m.i + m.size, ahi, m.j + m.size, bhi)] else []

def blocksOf (a b : List Line) (r : Nat × Nat × Nat × Nat) : List Block :=
  blocksIn a b r.1 r.2.1 r.2.2.1 r.2.2.2

theorem blocksIn_of_size_zero (h : (longest a b alo ahi blo bhi).size = 0) :
    blocksIn a b alo ahi blo bhi = [] := by
  rw [blocksIn]
  dsimp only
  rw [dif_neg]
  rintro ⟨hpos, -⟩
  omega

theorem blocksIn_of_pos (h : alo ≤ ahi) (hpos : 0 < (longest a b alo ahi blo bhi).size) :
    blocksIn a b alo ahi blo bhi =
      longest a b alo ahi blo bhi ::
        ((leftOf alo blo (longest a b alo ahi blo bhi)).flatMap (blocksOf a b) ++
          (rightOf ahi bhi (longest a b alo ahi blo bhi)).flatMap (blocksOf a b)) := by
  rw [blocksIn]
  dsimp only
  rw [dif_pos ⟨hpos, h⟩]
  unfold leftOf rightOf blocksOf
  split_ifs <;> simp only [List.flatMap_cons, List.flatMap_nil, List.append_nil, List.nil_append]

/-- The blocks of two ranges are blocks of equal lines in them, and of any two one stands before the
other. -/
theorem blocksIn_spec (h : alo ≤ ahi) :
    (∀ m ∈ blocksIn a b alo ahi blo bhi, 0 < m.size ∧ Common a b alo ahi blo bhi m) ∧
      (blocksIn a b alo ahi blo bhi).Pairwise fun m m' => Before m m' ∨ Before m' m := by
  induction hn : ahi - alo using Nat.strong_induction_on generalizing alo ahi blo bhi with
  | _ n ih =>
    rcases Nat.eq_zero_or_pos (longest a b alo ahi blo bhi).size with hzero | hpos
    · rw [blocksIn_of_size_zero hzero]
      exact ⟨fun m hm => absurd hm List.not_mem_nil, List.Pairwise.nil⟩
    · have hlongest := (longest_spec a b alo ahi blo bhi).common hpos
      rw [blocksIn_of_pos h hpos]
      generalize longest a b alo ahi blo bhi = m at hpos hlongest ⊢
      have hin := hlongest
      obtain ⟨hlo, hhi, hblo, hbhi, -⟩ := hin
      -- the blocks before the longest one
      have hleft : (∀ x ∈ (leftOf alo blo m).flatMap (blocksOf a b),
          0 < x.size ∧ Common a b alo m.i blo m.j x) ∧
            ((leftOf alo blo m).flatMap (blocksOf a b)).Pairwise fun x y => Before x y ∨ Before y x := by
        unfold leftOf
        split_ifs
        · rw [List.flatMap_singleton]
          exact ih (m.i - alo) (by omega) hlo rfl
        · exact ⟨fun x hx => absurd hx List.not_mem_nil, List.Pairwise.nil⟩
      -- and those behind it
      have hright : (∀ x ∈ (rightOf ahi bhi m).flatMap (blocksOf a b),
          0 < x.size ∧ Common a b (m.i + m.size) ahi (m.j + m.size) bhi x) ∧
            ((rightOf ahi bhi m).flatMap (blocksOf a b)).Pairwise fun x y => Before x y ∨ Before y x := by
        unfold rightOf
        split_ifs
        · rw [List.flatMap_singleton]
          exact ih (ahi - (m.i + m.size)) (by omega) hhi rfl
        · exact ⟨fun x hx => absurd hx List.not_mem_nil, List.Pairwise.nil⟩
      constructor
      · intro x hx
        rcases List.mem_cons.1 hx with rfl | hx
        · exact ⟨hpos, hlongest⟩
        · rcases List.mem_append.1 hx with hx | hx
          · obtain ⟨hxpos, hxin⟩ := hleft.1 x hx
            exact ⟨hxpos, hxin.mono (Nat.le_refl _) (by omega) (Nat.le_refl _) (by omega)⟩
          · obtain ⟨hxpos, hxin⟩ := hright.1 x hx
            exact ⟨hxpos, hxin.mono (by omega) (Nat.le_refl _) (by omega) (Nat.le_refl _)⟩
      · refine List.pairwise_cons.2 ⟨fun x hx => ?_, List.pairwise_append.2 ⟨hleft.2, hright.2, ?_⟩⟩
        · rcases List.mem_append.1 hx with hx | hx
          · have hxin := (hleft.1 x hx).2
            exact .inr ⟨hxin.right, hxin.right'⟩
          · have hxin := (hright.1 x hx).2
            exact .inl ⟨hxin.left, hxin.left'⟩
        · intro x hx y hy
          have hxin := (hleft.1 x hx).2
          have hyin := (hright.1 y hy).2
          have hxr := hxin.right
          have hxr' := hxin.right'
          have hyl := hyin.left
          have hyl' := hyin.left'
          exact .inl ⟨by omega, by omega⟩

/-! ## The work list -/

/-- The ranges still to be searched, the last one pushed first, and the blocks found. -/
structure Work where
  queue : List (Nat × Nat × Nat × Nat)
  blocks : List Block

/-- One turn of the loop; it ends with the queue. -/
def Work.turn (a b : List Line) (w : Work) (_ : Unit) : Option Work :=
  match w.queue with
  | [] => none
  | (alo, ahi, blo, bhi) :: queue =>
      let m := longest a b alo ahi blo bhi
      if 0 < m.size then
        -- what is behind the block is pushed last
        some ⟨rightOf ahi bhi m ++ (leftOf alo blo m ++ queue), w.blocks ++ [m]⟩
      else some ⟨queue, w.blocks⟩

/-- A number of turns. -/
def turns (a b : List Line) (n : Nat) (w : Work) : Option Work :=
  Run.exec (Work.turn a b) w (List.replicate n ())

theorem turns_add {n n' : Nat} {w w' w'' : Work} (h : turns a b n w = some w')
    (h' : turns a b n' w' = some w'') : turns a b (n + n') w = some w'' := by
  unfold turns at *
  rw [List.replicate_add]
  exact Run.exec_append_eq_some.2 ⟨w', h, h'⟩

theorem turns_one {w w' : Work} (h : w.turn a b () = some w') : turns a b 1 w = some w' :=
  Run.exec_cons_eq_some.2 ⟨w', h, rfl⟩

/-- The queue comes back to where it was, with the blocks of its first range found. -/
theorem turns_range (h : alo ≤ ahi) (queue : List (Nat × Nat × Nat × Nat)) (blocks : List Block) :
    ∃ n found, turns a b n ⟨(alo, ahi, blo, bhi) :: queue, blocks⟩ = some ⟨queue, blocks ++ found⟩ ∧
      found.Perm (blocksIn a b alo ahi blo bhi) := by
  induction hn : ahi - alo using Nat.strong_induction_on generalizing alo ahi blo bhi queue blocks with
  | _ n ih =>
    rcases Nat.eq_zero_or_pos (longest a b alo ahi blo bhi).size with hzero | hpos
    · refine ⟨1, [], turns_one ?_, ?_⟩
      · rw [Work.turn, List.append_nil]
        exact if_neg (by omega)
      · rw [blocksIn_of_size_zero hzero]
    · have hlongest := (longest_spec a b alo ahi blo bhi).common hpos
      have hturn : Work.turn a b ⟨(alo, ahi, blo, bhi) :: queue, blocks⟩ () =
          some ⟨rightOf ahi bhi (longest a b alo ahi blo bhi) ++
            (leftOf alo blo (longest a b alo ahi blo bhi) ++ queue),
            blocks ++ [longest a b alo ahi blo bhi]⟩ := if_pos hpos
      rw [blocksIn_of_pos h hpos]
      generalize longest a b alo ahi blo bhi = m at hpos hlongest hturn ⊢
      obtain ⟨hlo, hhi, -, -, -⟩ := hlongest
      have hright : ∀ queue blocks, ∃ n found,
          turns a b n ⟨rightOf ahi bhi m ++ queue, blocks⟩ = some ⟨queue, blocks ++ found⟩ ∧
            found.Perm ((rightOf ahi bhi m).flatMap (blocksOf a b)) := by
        intro queue blocks
        unfold rightOf
        split_ifs
        · rw [List.flatMap_singleton]
          exact ih (ahi - (m.i + m.size)) (by omega) hhi queue blocks rfl
        · exact ⟨0, [], by rw [List.append_nil]; rfl, .refl _⟩
      have hleft : ∀ queue blocks, ∃ n found,
          turns a b n ⟨leftOf alo blo m ++ queue, blocks⟩ = some ⟨queue, blocks ++ found⟩ ∧
            found.Perm ((leftOf alo blo m).flatMap (blocksOf a b)) := by
        intro queue blocks
        unfold leftOf
        split_ifs
        · rw [List.flatMap_singleton]
          exact ih (m.i - alo) (by omega) hlo queue blocks rfl
        · exact ⟨0, [], by rw [List.append_nil]; rfl, .refl _⟩
      obtain ⟨n1, found1, hrun1, hperm1⟩ := hright (leftOf alo blo m ++ queue) (blocks ++ [m])
      obtain ⟨n2, found2, hrun2, hperm2⟩ := hleft queue (blocks ++ [m] ++ found1)
      refine ⟨1 + (n1 + n2), m :: (found1 ++ found2), ?_, ?_⟩
      · have hruns := turns_add (turns_one hturn) (turns_add hrun1 hrun2)
        rwa [List.append_assoc, List.append_assoc] at hruns
      · exact (List.perm_append_comm.trans (hperm2.append hperm1)).cons m

/-! ## Sorting and joining -/

theorem Block.le_total (m m' : Block) : m.le m' ∨ m'.le m := by
  unfold Block.le
  omega

theorem Block.le_trans {m m' m'' : Block} (h : m.le m') (h' : m'.le m'') : m.le m'' := by
  unfold Block.le at *
  omega

theorem Block.le_antisymm {m m' : Block} (h : m.le m') (h' : m'.le m) : m = m' := by
  unfold Block.le at *
  cases m
  cases m'
  simp only [Block.mk.injEq]
  simp only at h h'
  omega

instance : Std.Total Block.le := ⟨Block.le_total⟩

instance : IsTrans Block Block.le := ⟨fun _ _ _ => Block.le_trans⟩

instance : Std.Antisymm Block.le := ⟨fun _ _ => Block.le_antisymm⟩

theorem insertionSort_eq_of_perm {l l' : List Block} (h : l.Perm l') :
    l.insertionSort Block.le = l'.insertionSort Block.le := by
  refine List.Perm.eq_of_pairwise' (r := Block.le) (List.pairwise_insertionSort _ l)
    (List.pairwise_insertionSort _ l') ?_
  exact ((List.perm_insertionSort _ l).trans h).trans (List.perm_insertionSort _ l').symm

theorem before_sorted {l : List Block} (hpos : ∀ m ∈ l, 0 < m.size)
    (h : l.Pairwise fun m m' => Before m m' ∨ Before m' m) :
    (l.insertionSort Block.le).Pairwise Before := by
  have hperm := List.perm_insertionSort Block.le l
  have hapart : (l.insertionSort Block.le).Pairwise fun m m' => Before m m' ∨ Before m' m :=
    (hperm.pairwise_iff fun {m m'} hmm => hmm.symm).2 h
  have hsorted := List.pairwise_insertionSort Block.le l
  refine (hapart.and hsorted).imp_of_mem fun {m m'} hm hm' hmm => ?_
  rcases hmm with ⟨hbefore | hbehind, hle⟩
  · exact hbefore
  · -- the second one cannot be the first of the two
    have hsize := hpos m' (hperm.mem_iff.1 hm')
    unfold Block.le at hle
    unfold Before at hbehind
    omega

/-- The block lies in the other one, on the same diagonal. -/
structure Within (m o : Block) : Prop where
  left : o.i ≤ m.i
  right : m.i + m.size ≤ o.i + o.size
  diagonal : m.i + o.j = m.j + o.i

/-- Adjacent in both texts. -/
def Adjacent (m m' : Block) : Prop := m.i + m.size = m'.i ∧ m.j + m.size = m'.j

/-- What sorted blocks have in common with the joined ones. -/
structure Joined (a b : List Line) (ms out : List Block) : Prop where
  starts : ∀ o ∈ out, ∃ m ∈ ms, o.i = m.i ∧ o.j = m.j
  pos : ∀ o ∈ out, 0 < o.size
  equal : ∀ o ∈ out, Match a b o.i o.j o.size
  before : out.Pairwise Before
  apart : out.IsChain fun m m' => ¬ Adjacent m m'
  within : ∀ m ∈ ms, ∃ o ∈ out, Within m o

theorem joined_collapseFrom {last : Block} {ms : List Block} (hbefore : (last :: ms).Pairwise Before)
    (hpos : ∀ m ∈ last :: ms, 0 < m.size) (hequal : ∀ m ∈ last :: ms, Match a b m.i m.j m.size) :
    Joined a b (last :: ms) (collapseFrom last ms) ∧
      ∃ o rest, collapseFrom last ms = o :: rest ∧ o.i = last.i ∧ o.j = last.j := by
  induction ms generalizing last with
  | nil =>
    refine ⟨⟨fun o ho => ⟨o, ho, rfl, rfl⟩, hpos, hequal, hbefore, List.IsChain.singleton _, ?_⟩,
      last, [], rfl, rfl, rfl⟩
    exact fun m hm => ⟨m, hm, Nat.le_refl _, Nat.le_refl _, Nat.add_comm _ _⟩
  | cons m ms ih =>
    obtain ⟨hlast, hms⟩ := List.pairwise_cons.1 hbefore
    obtain ⟨hlastpos, hmspos⟩ := List.forall_mem_cons.1 hpos
    obtain ⟨hlasteq, hmseq⟩ := List.forall_mem_cons.1 hequal
    rw [collapseFrom]
    split_ifs with hadj
    · -- the two become one block, which ends where the second one ends
      have hlonger : ({ last with size := last.size + m.size } : Block) :: ms |>.Pairwise Before := by
        obtain ⟨hm, hrest⟩ := List.pairwise_cons.1 hms
        refine List.pairwise_cons.2 ⟨fun x hx => ?_, hrest⟩
        have hmx := hm x hx
        unfold Before at *
        dsimp only
        omega
      have hjoined := hlasteq.append (by rw [hadj.1, hadj.2]; exact hmseq m List.mem_cons_self)
      obtain ⟨h, o, rest, hout, hoi, hoj⟩ := ih hlonger
        (List.forall_mem_cons.2 ⟨by show 0 < last.size + m.size; omega,
          fun x hx => hmspos x (List.mem_cons_of_mem m hx)⟩)
        (List.forall_mem_cons.2 ⟨hjoined, fun x hx => hmseq x (List.mem_cons_of_mem m hx)⟩)
      refine ⟨⟨?_, h.pos, h.equal, h.before, h.apart, ?_⟩, o, rest, hout, hoi, hoj⟩
      · intro x hx
        obtain ⟨y, hy, hxy⟩ := h.starts x hx
        rcases List.mem_cons.1 hy with rfl | hy
        · exact ⟨last, List.mem_cons_self, hxy⟩
        · exact ⟨y, List.mem_cons_of_mem _ (List.mem_cons_of_mem m hy), hxy⟩
      · obtain ⟨w, hw, hleft, hright, hdiag⟩ := h.within _ List.mem_cons_self
        dsimp only at hleft hright hdiag
        refine List.forall_mem_cons.2 ⟨⟨w, hw, hleft, by omega, hdiag⟩,
          List.forall_mem_cons.2 ⟨⟨w, hw, by omega, by omega, by omega⟩, ?_⟩⟩
        exact fun x hx => h.within x (List.mem_cons_of_mem _ hx)
    · obtain ⟨h, o, rest, hout, hoi, hoj⟩ := ih hms hmspos hmseq
      refine ⟨⟨?_, ?_, ?_, ?_, ?_, ?_⟩, last, collapseFrom m ms, rfl, rfl, rfl⟩
      · refine List.forall_mem_cons.2 ⟨⟨last, List.mem_cons_self, rfl, rfl⟩, fun x hx => ?_⟩
        obtain ⟨y, hy, hxy⟩ := h.starts x hx
        exact ⟨y, List.mem_cons_of_mem _ hy, hxy⟩
      · exact List.forall_mem_cons.2 ⟨hlastpos, h.pos⟩
      · exact List.forall_mem_cons.2 ⟨hlasteq, h.equal⟩
      · refine List.pairwise_cons.2 ⟨fun x hx => ?_, h.before⟩
        obtain ⟨y, hy, hxi, hxj⟩ := h.starts x hx
        have hlasty := hlast y hy
        unfold Before at *
        omega
      · have happart := h.apart
        rw [hout] at happart ⊢
        refine List.isChain_cons_cons.2 ⟨?_, happart⟩
        unfold Adjacent
        rw [hoi, hoj]
        exact hadj
      · refine List.forall_mem_cons.2 ⟨⟨last, List.mem_cons_self, Nat.le_refl _, Nat.le_refl _,
          Nat.add_comm _ _⟩, fun x hx => ?_⟩
        obtain ⟨w, hw, hin⟩ := h.within x hx
        exact ⟨w, List.mem_cons_of_mem _ hw, hin⟩

theorem joined_collapse {ms : List Block} (hbefore : ms.Pairwise Before) (hpos : ∀ m ∈ ms, 0 < m.size)
    (hequal : ∀ m ∈ ms, Match a b m.i m.j m.size) : Joined a b ms (collapse ms) := by
  cases ms with
  | nil =>
    refine ⟨?_, ?_, ?_, List.Pairwise.nil, List.IsChain.nil, ?_⟩ <;>
      exact fun m hm => absurd hm List.not_mem_nil
  | cons m ms => exact (joined_collapseFrom hbefore hpos hequal).1

/-! ## The alignment -/

theorem sum_size_le {l : List Block} {lo n : Nat} (h : l.Pairwise Before) (hlo : ∀ m ∈ l, lo ≤ m.i)
    (hn : ∀ m ∈ l, m.i + m.size ≤ n) (hle : lo ≤ n) : lo + (l.map Block.size).sum ≤ n := by
  induction l generalizing lo with
  | nil => exact hle
  | cons m l ih =>
    obtain ⟨hm, hl⟩ := List.pairwise_cons.1 h
    obtain ⟨hmlo, -⟩ := List.forall_mem_cons.1 hlo
    obtain ⟨hmn, hln⟩ := List.forall_mem_cons.1 hn
    have hrest := ih hl (fun x hx => (hm x hx).1) hln hmn
    rw [List.map_cons, List.sum_cons]
    omega

/-- An alignment of the lines of two texts that holds their longest block. -/
structure Aligned (a b : List Line) (out : List Block) : Prop where
  pos : ∀ m ∈ out, 0 < m.size
  equal : ∀ m ∈ out, m.i + m.size ≤ a.length ∧ m.j + m.size ≤ b.length ∧
    (a.drop m.i).take m.size = (b.drop m.j).take m.size
  before : out.Pairwise Before
  apart : out.IsChain fun m m' => ¬ Adjacent m m'
  longest : ∀ m, IsLongest a b 0 a.length 0 b.length m → 0 < m.size → ∃ o ∈ out, Within m o
  kept : (out.map Block.size).sum ≤ a.length

theorem IsLongest.unique {m m' : Block} (h : IsLongest a b alo ahi blo bhi m)
    (h' : IsLongest a b alo ahi blo bhi m') (hpos : 0 < m.size) : m = m' := by
  have hin := h.common hpos
  have hle := h'.largest m hin
  have hin' := h'.common (Nat.lt_of_lt_of_le hpos hle)
  have hle' := h.largest m' hin'
  have hfirst := h.first m' hin' (by omega) (by omega)
  have hfirst' := h'.first m hin hpos (by omega)
  cases m
  cases m'
  simp only [Block.mk.injEq]
  simp only at hle hle' hfirst hfirst'
  omega

theorem aligned_matchingBlocks (a b : List Line) : Aligned a b (matchingBlocks a b) := by
  obtain ⟨hall, hapart⟩ := @blocksIn_spec a b 0 a.length 0 b.length (Nat.zero_le a.length)
  have hmem : ∀ m ∈ (blocksIn a b 0 a.length 0 b.length).insertionSort Block.le,
      0 < m.size ∧ Common a b 0 a.length 0 b.length m := fun m hm =>
    hall m ((List.mem_insertionSort _).1 hm)
  have hbefore := before_sorted (fun m hm => (hall m hm).1) hapart
  have hjoined := joined_collapse hbefore (fun m hm => (hmem m hm).1) fun m hm => (hmem m hm).2.equal
  have hlength : ∀ o ∈ matchingBlocks a b, o.i + o.size ≤ a.length ∧ o.j + o.size ≤ b.length :=
    fun o ho => (hjoined.equal o ho).le_length (hjoined.pos o ho)
  constructor
  · exact hjoined.pos
  · intro m hm
    exact ⟨(hlength m hm).1, (hlength m hm).2, (hjoined.equal m hm).take_eq⟩
  · exact hjoined.before
  · exact hjoined.apart
  · intro m hm hpos
    -- the first turn of the loop finds it
    have heq := hm.unique (longest_spec a b 0 a.length 0 b.length) hpos
    refine hjoined.within m ((List.mem_insertionSort _).2 ?_)
    rw [heq] at hpos ⊢
    rw [blocksIn_of_pos (Nat.zero_le _) hpos]
    exact List.mem_cons_self
  · have hsum := sum_size_le hjoined.before (fun m _ => Nat.zero_le m.i) (fun o ho => (hlength o ho).1)
      (Nat.zero_le a.length)
    rwa [Nat.zero_add] at hsum

/-- The loop over the queue ends, what it has found is what is sorted and joined, and the blocks are
an alignment. -/
theorem matchingBlocks_aligned (a b : List Line) :
    (∃ n found, turns a b n ⟨[(0, a.length, 0, b.length)], []⟩ = some ⟨[], found⟩ ∧
      Work.turn a b ⟨[], found⟩ () = none ∧
        matchingBlocks a b = collapse (found.insertionSort Block.le)) ∧
      Aligned a b (matchingBlocks a b) := by
  refine ⟨?_, aligned_matchingBlocks a b⟩
  obtain ⟨n, found, hrun, hperm⟩ := @turns_range a b 0 a.length 0 b.length (Nat.zero_le a.length) [] []
  refine ⟨n, found, hrun, rfl, ?_⟩
  rw [insertionSort_eq_of_perm hperm]
  rfl

end Portal.FileTools
