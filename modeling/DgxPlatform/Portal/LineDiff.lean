import DgxPlatform.Lib.Subsequence
import DgxPlatform.Portal.Rejoin

/-! # The line diff of an edited file

`diffLines` aligns the lines of two texts: what they start and end with is set aside, the rest is
aligned along a table of longest common subsequences. `hunks` leaves out what is far from a change.
-/

namespace Portal.LineDiff

open Rejoin (JsText lineFeed)
open Subsequence (IsLongest)

inductive LineKind
  | same
  | add
  | del
  deriving DecidableEq

structure DiffLine where
  kind : LineKind
  text : JsText
  oldNo : Option Nat
  newNo : Option Nat
  deriving DecidableEq

def MAX_CELLS : Nat := 4000000

/-! ## The diff -/

/-- How many lines two lists have in common at their heads. -/
def commonHead : List JsText → List JsText → Nat
  | x :: a, y :: b => if x = y then commonHead a b + 1 else 0
  | _, _ => 0

/-- A line of the table: `below` is the one under it, without the line `x` of the old text. -/
def lcsRow (x : JsText) : List JsText → List Nat → List Nat
  | y :: mb, below =>
      let row := lcsRow x mb below.tail
      (if x = y then below.tail.headD 0 + 1 else max (below.headD 0) (row.headD 0)) :: row
  | [], _ => [0]

/-- `lcs[i][j]`: how long the longest common subsequence of `ma[i:]` and `mb[j:]` is. -/
def lcsTable : List JsText → List JsText → List (List Nat)
  | x :: ma, mb =>
      let table := lcsTable ma mb
      lcsRow x mb (table.headD []) :: table
  | [], mb => [List.replicate (mb.length + 1) 0]

def cell (table : List (List Nat)) (i j : Nat) : Nat := (table.getD i []).getD j 0

/-- The walk through the table, from the line `i` of the old and `j` of the new text on. -/
def walk (start : Nat) (table : List (List Nat)) (ma mb : List JsText) (i j : Nat) : List DiffLine :=
  if i < ma.length ∧ j < mb.length ∧ ma[i]? = mb[j]? then
    ⟨.same, ma.getD i [], some (start + i + 1), some (start + j + 1)⟩ :: walk start table ma mb (i + 1) (j + 1)
  else if j < mb.length ∧ (ma.length ≤ i ∨ cell table (i + 1) j ≤ cell table i (j + 1)) then
    ⟨.add, mb.getD j [], none, some (start + j + 1)⟩ :: walk start table ma mb i (j + 1)
  else if i < ma.length then
    ⟨.del, ma.getD i [], some (start + i + 1), none⟩ :: walk start table ma mb (i + 1) j
  else []
termination_by (ma.length - i) + (mb.length - j)

/-- Lines that stand in both texts, behind the lines `oldNo` and `newNo`. -/
def sames : Nat → Nat → List JsText → List DiffLine
  | _, _, [] => []
  | oldNo, newNo, text :: texts =>
      ⟨.same, text, some (oldNo + 1), some (newNo + 1)⟩ :: sames (oldNo + 1) (newNo + 1) texts

def dels : Nat → List JsText → List DiffLine
  | _, [] => []
  | oldNo, text :: texts => ⟨.del, text, some (oldNo + 1), none⟩ :: dels (oldNo + 1) texts

def adds : Nat → List JsText → List DiffLine
  | _, [] => []
  | newNo, text :: texts => ⟨.add, text, none, some (newNo + 1)⟩ :: adds (newNo + 1) texts

/-- The lines that differ, between those that the texts start and end with. -/
def align (start : Nat) (ma mb : List JsText) : List DiffLine :=
  if MAX_CELLS < ma.length * mb.length then dels start ma ++ adds start mb
  else walk start (lcsTable ma mb) ma mb 0 0

/-- Where the lines of two texts cease to be the same, and how many are the same at their ends. -/
def startOf (a b : List JsText) : Nat := commonHead a b

def tailOf (a b : List JsText) : Nat := commonHead (a.drop (startOf a b)).reverse (b.drop (startOf a b)).reverse

/-- The lines of one text between those that it has in common with the other one. -/
def middle (a b lines : List JsText) : List JsText :=
  (lines.drop (startOf a b)).take (lines.length - tailOf a b - startOf a b)

def diffLines (before after : JsText) : List DiffLine :=
  let a := before.splitOn lineFeed
  let b := after.splitOn lineFeed
  let endA := a.length - tailOf a b
  let endB := b.length - tailOf a b
  sames 0 0 (a.take (startOf a b)) ++ align (startOf a b) (middle a b a) (middle a b b) ++
    sames endA endB (a.drop endA)

/-! ## The hunks -/

def DiffLine.Changed (l : DiffLine) : Prop := l.kind ≠ .same

instance (l : DiffLine) : Decidable l.Changed := inferInstanceAs (Decidable (_ ≠ _))

/-- The lines around the line `i` are kept. -/
def keepAround (n context : Nat) (keep : List Bool) (i : Nat) : List Bool :=
  (List.range' (i - context) (min (n - 1) (i + context) + 1 - (i - context))).foldl (fun keep k => keep.set k true) keep

def kept (lines : List DiffLine) (context : Nat) : List Bool :=
  lines.zipIdx.foldl (fun keep l => if l.1.kind = .same then keep else keepAround lines.length context keep l.2)
    (List.replicate lines.length false)

/-- The lines that are kept; `none` marks the others, once for all that follow each other. -/
def elide : Bool → List (DiffLine × Bool) → List (Option DiffLine)
  | _, [] => []
  | skipped, (l, keep) :: rest =>
      if keep then some l :: elide false rest
      else if skipped then elide true rest
      else none :: elide true rest

def hunks (lines : List DiffLine) (context : Nat) : List (Option DiffLine) :=
  elide false (lines.zip (kept lines context))

/-! ## What is in a diff -/

/-- The lines of the old text, with their numbers. -/
def olds (out : List DiffLine) : List (JsText × Option Nat) :=
  (out.filter fun l => l.kind ≠ .add).map fun l => (l.text, l.oldNo)

/-- The lines of the new text, with their numbers. -/
def news (out : List DiffLine) : List (JsText × Option Nat) :=
  (out.filter fun l => l.kind ≠ .del).map fun l => (l.text, l.newNo)

def sameCount (out : List DiffLine) : Nat := out.countP fun l => l.kind = .same

/-- Lines, numbered from `n + 1` on. -/
def numbered : Nat → List JsText → List (JsText × Option Nat)
  | _, [] => []
  | n, text :: texts => (text, some (n + 1)) :: numbered (n + 1) texts

section Numbers

variable {out out' : List DiffLine} {lines lines' : List JsText} {n m : Nat}

theorem olds_append : olds (out ++ out') = olds out ++ olds out' := by
  rw [olds, List.filter_append, List.map_append, olds, olds]

theorem news_append : news (out ++ out') = news out ++ news out' := by
  rw [news, List.filter_append, List.map_append, news, news]

theorem sameCount_append : sameCount (out ++ out') = sameCount out + sameCount out' := List.countP_append

theorem sameCount_same {text : JsText} {oldNo newNo : Option Nat} :
    sameCount (⟨.same, text, oldNo, newNo⟩ :: out) = sameCount out + 1 := List.countP_cons_of_pos rfl

theorem sameCount_add {text : JsText} {oldNo newNo : Option Nat} :
    sameCount (⟨.add, text, oldNo, newNo⟩ :: out) = sameCount out := List.countP_cons_of_neg Bool.false_ne_true

theorem sameCount_del {text : JsText} {oldNo newNo : Option Nat} :
    sameCount (⟨.del, text, oldNo, newNo⟩ :: out) = sameCount out := List.countP_cons_of_neg Bool.false_ne_true

theorem numbered_append : numbered n (lines ++ lines') = numbered n lines ++ numbered (n + lines.length) lines' := by
  induction lines generalizing n with
  | nil => rfl
  | cons x lines ih =>
    rw [List.cons_append, numbered, ih, numbered, List.length_cons, List.cons_append, Nat.add_right_comm,
      Nat.add_assoc]

theorem sames_spec : olds (sames n m lines) = numbered n lines ∧ news (sames n m lines) = numbered m lines ∧
    sameCount (sames n m lines) = lines.length := by
  induction lines generalizing n m with
  | nil => exact ⟨rfl, rfl, rfl⟩
  | cons x lines ih =>
    obtain ⟨holds, hnews, hcount⟩ := ih (n := n + 1) (m := m + 1)
    refine ⟨congrArg (_ :: ·) holds, congrArg (_ :: ·) hnews, ?_⟩
    rw [sames, sameCount_same, hcount, List.length_cons]

theorem dels_spec : olds (dels n lines) = numbered n lines ∧ news (dels n lines) = [] := by
  induction lines generalizing n with
  | nil => exact ⟨rfl, rfl⟩
  | cons x lines ih =>
    obtain ⟨holds, hnews⟩ := ih (n := n + 1)
    exact ⟨congrArg (_ :: ·) holds, hnews⟩

theorem adds_spec : olds (adds n lines) = [] ∧ news (adds n lines) = numbered n lines := by
  induction lines generalizing n with
  | nil => exact ⟨rfl, rfl⟩
  | cons x lines ih =>
    obtain ⟨holds, hnews⟩ := ih (n := n + 1)
    exact ⟨holds, congrArg (_ :: ·) hnews⟩

/-! ### The walk -/

theorem drop_eq_cons {i : Nat} (h : i < lines.length) : lines.drop i = lines.getD i [] :: lines.drop (i + 1) := by
  rw [List.drop_eq_getElem_cons h, List.getD_eq_getElem?_getD, List.getElem?_eq_getElem h, Option.getD_some]

theorem walk_numbers (start : Nat) (table : List (List Nat)) (ma mb : List JsText) (i j : Nat) :
    olds (walk start table ma mb i j) = numbered (start + i) (ma.drop i) ∧
      news (walk start table ma mb i j) = numbered (start + j) (mb.drop j) := by
  fun_induction walk start table ma mb i j with
  | case1 i j h ih =>
    obtain ⟨hi, hj, heq⟩ := h
    have hsame : ma.getD i [] = mb.getD j [] := by
      rw [List.getD_eq_getElem?_getD, heq, List.getD_eq_getElem?_getD]
    rw [drop_eq_cons hi, drop_eq_cons hj, ← hsame]
    exact ⟨congrArg (_ :: ·) ih.1, congrArg (_ :: ·) ih.2⟩
  | case2 i j hsame h ih =>
    rw [drop_eq_cons h.1]
    exact ⟨ih.1, congrArg (_ :: ·) ih.2⟩
  | case3 i j hsame hadd h ih =>
    rw [drop_eq_cons h]
    exact ⟨congrArg (_ :: ·) ih.1, ih.2⟩
  | case4 i j hsame hadd h =>
    have hj : mb.length ≤ j := by
      by_contra hlt
      exact hadd ⟨Nat.lt_of_not_le hlt, .inl (Nat.le_of_not_lt h)⟩
    rw [List.drop_eq_nil_of_le (Nat.le_of_not_lt h), List.drop_eq_nil_of_le hj]
    exact ⟨rfl, rfl⟩

end Numbers

/-! ## The table -/

section Table

variable {x : JsText} {ma mb : List JsText}

theorem getD_of_tails {β : Type*} {R : List JsText → β → Prop} {lines : List JsText} {row : List β}
    (h : List.Forall₂ R lines.tails row) {i : Nat} (hi : i ≤ lines.length) (d : β) :
    R (lines.drop i) (row.getD i d) := by
  induction lines generalizing i row with
  | nil =>
    obtain rfl := Nat.le_zero.1 hi
    cases h with
    | cons hfirst _ => exact hfirst
  | cons y lines ih =>
    cases h with
    | cons hfirst hrest =>
      cases i with
      | zero => exact hfirst
      | succ i => exact ih hrest (Nat.le_of_succ_le_succ hi)

/-- A line of the table tells of every part of the new text from some line on. -/
def IsRow (ma mb : List JsText) (row : List Nat) : Prop := List.Forall₂ (IsLongest ma) mb.tails row

theorem isRow_nil (mb : List JsText) : IsRow [] mb (List.replicate (mb.length + 1) 0) := by
  induction mb with
  | nil => exact .cons (Subsequence.isLongest_nil_left []) .nil
  | cons y mb ih => exact .cons (Subsequence.isLongest_nil_left (y :: mb)) ih

theorem IsRow.lcsRow {below : List Nat} (h : IsRow ma mb below) (x : JsText) :
    IsRow (x :: ma) mb (lcsRow x mb below) := by
  induction mb generalizing below with
  | nil => exact .cons (Subsequence.isLongest_nil_right (x :: ma)) .nil
  | cons y mb ih =>
    cases h with
    | @cons _ first _ below hfirst hbelow =>
      have hrow := ih hbelow
      have hdiagonal : IsLongest ma mb (below.headD 0) := by
        rw [List.headD_eq_getD]
        exact getD_of_tails hbelow (Nat.zero_le _) 0
      have hright : IsLongest (x :: ma) mb ((LineDiff.lcsRow x mb below).headD 0) := by
        rw [List.headD_eq_getD]
        exact getD_of_tails hrow (Nat.zero_le _) 0
      refine .cons ?_ hrow
      show IsLongest (x :: ma) (y :: mb) (if x = y then below.headD 0 + 1 else max first _)
      split_ifs with heq
      · rw [heq]
        exact hdiagonal.cons_same y
      · exact hfirst.cons_ne hright heq

theorem isRow_lcsTable (ma mb : List JsText) :
    List.Forall₂ (fun suffix row => IsRow suffix mb row) ma.tails (lcsTable ma mb) := by
  induction ma with
  | nil => exact .cons (isRow_nil mb) .nil
  | cons x ma ih =>
    refine .cons ?_ ih
    have hbelow : IsRow ma mb ((lcsTable ma mb).headD []) := by
      rw [List.headD_eq_getD]
      exact getD_of_tails ih (Nat.zero_le _) []
    exact hbelow.lcsRow x

theorem isLongest_cell {i j : Nat} (hi : i ≤ ma.length) (hj : j ≤ mb.length) :
    IsLongest (ma.drop i) (mb.drop j) (cell (lcsTable ma mb) i j) :=
  getD_of_tails (getD_of_tails (isRow_lcsTable ma mb) hi []) hj 0

theorem getElem?_of_getD {i j : Nat} (hi : i < ma.length) (hj : j < mb.length) (h : ma.getD i [] = mb.getD j []) :
    ma[i]? = mb[j]? := by
  rw [List.getElem?_eq_getElem hi, List.getElem?_eq_getElem hj]
  rwa [List.getD_eq_getElem?_getD, List.getElem?_eq_getElem hi, List.getD_eq_getElem?_getD,
    List.getElem?_eq_getElem hj, Option.getD_some, Option.getD_some, ← Option.some_inj] at h

/-- The two lines differ: the better one of the two ways on is a longest one. -/
theorem isLongest_ways {i j m n : Nat} (hi : i < ma.length) (hj : j < mb.length) (hne : ¬ ma[i]? = mb[j]?)
    (hbelow : IsLongest (ma.drop (i + 1)) (mb.drop j) m) (hright : IsLongest (ma.drop i) (mb.drop (j + 1)) n) :
    IsLongest (ma.drop i) (mb.drop j) (max m n) := by
  rw [drop_eq_cons hj] at hbelow
  rw [drop_eq_cons hi] at hright
  rw [drop_eq_cons hi, drop_eq_cons hj]
  exact hbelow.cons_ne hright fun heq => hne (getElem?_of_getD hi hj heq)

/-- The walk passes by no line that a longest common subsequence needs. -/
theorem isLongest_walk (start : Nat) (ma mb : List JsText) (i j : Nat) :
    IsLongest (ma.drop i) (mb.drop j) (sameCount (walk start (lcsTable ma mb) ma mb i j)) := by
  fun_induction walk start (lcsTable ma mb) ma mb i j with
  | case1 i j h ih =>
    obtain ⟨hi, hj, heq⟩ := h
    have hsame : ma.getD i [] = mb.getD j [] := by
      rw [List.getD_eq_getElem?_getD, heq, List.getD_eq_getElem?_getD]
    rw [drop_eq_cons hi, drop_eq_cons hj, ← hsame, sameCount_same]
    exact ih.cons_same _
  | case2 i j hsame h ih =>
    obtain ⟨hj, hor⟩ := h
    rw [sameCount_add]
    rcases Nat.lt_or_ge i ma.length with hi | hi
    · -- both texts go on: the table says that the line can be passed by
      have hle := hor.resolve_left (Nat.not_le_of_lt hi)
      rw [← ih.unique (isLongest_cell hi.le hj)] at hle
      have hways := isLongest_ways hi hj (fun heq => hsame ⟨hi, hj, heq⟩) (isLongest_cell hi hj.le) ih
      rwa [Nat.max_eq_right hle] at hways
    · rw [List.drop_eq_nil_of_le hi] at ih ⊢
      rw [ih.unique (Subsequence.isLongest_nil_left _)]
      exact Subsequence.isLongest_nil_left _
  | case3 i j hsame hadd hi ih =>
    rw [sameCount_del]
    rcases Nat.lt_or_ge j mb.length with hj | hj
    · have hle : cell (lcsTable ma mb) i (j + 1) ≤ cell (lcsTable ma mb) (i + 1) j := by
        by_contra hlt
        exact hadd ⟨hj, .inr (Nat.le_of_not_le hlt)⟩
      rw [← ih.unique (isLongest_cell hi hj.le)] at hle
      have hways := isLongest_ways hi hj (fun heq => hsame ⟨hi, hj, heq⟩) ih (isLongest_cell hi.le hj)
      rwa [Nat.max_eq_left hle] at hways
    · rw [List.drop_eq_nil_of_le hj] at ih ⊢
      rw [ih.unique (Subsequence.isLongest_nil_right _)]
      exact Subsequence.isLongest_nil_right _
  | case4 i j hsame hadd hi =>
    rw [List.drop_eq_nil_of_le (Nat.le_of_not_lt hi)]
    exact Subsequence.isLongest_nil_left _

end Table

/-! ## What the texts have in common -/

theorem exists_commonHead (a b : List JsText) :
    ∃ p a' b', a = p ++ a' ∧ b = p ++ b' ∧ p.length = commonHead a b := by
  fun_induction commonHead a b with
  | case1 x a b ih =>
    obtain ⟨p, a', b', rfl, rfl, hlen⟩ := ih
    exact ⟨_ :: p, a', b', rfl, rfl, congrArg (· + 1) hlen⟩
  | case2 x a y b h => exact ⟨[], x :: a, y :: b, rfl, rfl, rfl⟩
  | case3 a b h => exact ⟨[], a, b, rfl, rfl, rfl⟩

/-- Two lists are what stands between their common head and their common tail. -/
theorem exists_parts (a b : List JsText) :
    ∃ p ma mb s, a = p ++ ma ++ s ∧ b = p ++ mb ++ s ∧ p.length = startOf a b ∧ s.length = tailOf a b := by
  obtain ⟨p, a', b', ha, hb, hp⟩ := exists_commonHead a b
  obtain ⟨q, ma, mb, ha', hb', hq⟩ := exists_commonHead a'.reverse b'.reverse
  have hdrop : a.drop (startOf a b) = a' ∧ b.drop (startOf a b) = b' := by
    rw [startOf, ← hp]
    constructor
    · rw [ha, List.drop_left]
    · rw [hb, List.drop_left]
  refine ⟨p, ma.reverse, mb.reverse, q.reverse, ?_, ?_, hp, ?_⟩
  · rw [List.append_assoc, ← List.reverse_append, ← ha', List.reverse_reverse, ← ha]
  · rw [List.append_assoc, ← List.reverse_append, ← hb', List.reverse_reverse, ← hb]
  · rw [List.length_reverse, hq, tailOf, hdrop.1, hdrop.2]

theorem middle_of_parts {a b p m s : List JsText} (hp : p.length = startOf a b) (hs : s.length = tailOf a b) :
    middle a b (p ++ m ++ s) = m := by
  have hlen : (p ++ m ++ s).length - s.length - p.length = m.length := by
    rw [List.length_append, List.length_append]
    omega
  rw [middle, ← hp, ← hs, hlen, List.append_assoc, List.drop_left, List.take_left]

theorem align_numbers (start : Nat) (ma mb : List JsText) :
    olds (align start ma mb) = numbered start ma ∧ news (align start ma mb) = numbered start mb := by
  unfold align
  split_ifs
  · rw [olds_append, news_append, dels_spec.1, dels_spec.2, adds_spec.1, adds_spec.2]
    exact ⟨List.append_nil _, rfl⟩
  · exact walk_numbers start _ ma mb 0 0

theorem diffLines_of_parts {before after : JsText} {p ma mb s : List JsText}
    (ha : before.splitOn lineFeed = p ++ ma ++ s) (hb : after.splitOn lineFeed = p ++ mb ++ s)
    (hp : p.length = startOf (p ++ ma ++ s) (p ++ mb ++ s)) (hs : s.length = tailOf (p ++ ma ++ s) (p ++ mb ++ s)) :
    diffLines before after =
      sames 0 0 p ++ align p.length ma mb ++ sames (p.length + ma.length) (p.length + mb.length) s := by
  have hends : ∀ m : List JsText, (p ++ m ++ s).length - s.length = p.length + m.length := by
    intro m
    rw [List.length_append, List.length_append]
    omega
  have hdrop : (p ++ ma ++ s).drop (p.length + ma.length) = s := by
    rw [← List.length_append, List.drop_left]
  have htake : (p ++ ma ++ s).take p.length = p := by rw [List.append_assoc, List.take_left]
  unfold diffLines
  dsimp only
  rw [ha, hb, middle_of_parts hp hs, middle_of_parts hp hs, ← hp, ← hs, hends, hends, hdrop, htake]

/-! ## What a hunk keeps -/

theorem foldl_set (ks : List Nat) (keep : List Bool) :
    (ks.foldl (fun keep k => keep.set k true) keep).length = keep.length ∧
      ∀ k < keep.length, (k ∈ ks ∨ keep[k]? = some true) →
        (ks.foldl (fun keep k => keep.set k true) keep)[k]? = some true := by
  induction ks generalizing keep with
  | nil => exact ⟨rfl, fun k _ h => h.resolve_left List.not_mem_nil⟩
  | cons i ks ih =>
    obtain ⟨hlen, hset⟩ := ih (keep.set i true)
    rw [List.length_set] at hlen hset
    refine ⟨hlen, fun k hk h => hset k hk ?_⟩
    rcases eq_or_ne i k with rfl | hne
    · exact .inr (by rw [List.getElem?_set_self hk])
    · rw [List.getElem?_set_ne hne]
      exact h.imp_left fun hmem => (List.mem_cons.1 hmem).resolve_left hne.symm

theorem keepAround_spec {n context i : Nat} {keep : List Bool} (hlen : keep.length = n) (hi : i < n) :
    (keepAround n context keep i).length = n ∧ (keepAround n context keep i)[i]? = some true ∧
      ∀ k : Nat, keep[k]? = some true → (keepAround n context keep i)[k]? = some true := by
  obtain ⟨hlen', hset⟩ := foldl_set
    (List.range' (i - context) (min (n - 1) (i + context) + 1 - (i - context))) keep
  refine ⟨hlen'.trans hlen, hset i (by omega) (.inl ?_), fun k hk => hset k ?_ (.inr hk)⟩
  · rw [List.mem_range'_1]
    omega
  · exact (List.getElem?_eq_some_iff.1 hk).1

theorem kept_spec (lines : List DiffLine) (context : Nat) :
    (kept lines context).length = lines.length ∧
      ∀ l ∈ lines.zipIdx, l.1.Changed → (kept lines context)[l.2]? = some true := by
  have hloop : ∀ (ls : List (DiffLine × Nat)) (keep : List Bool), keep.length = lines.length →
      (∀ l ∈ ls, l.2 < lines.length) →
      let r := ls.foldl (fun keep l => if l.1.kind = .same then keep else keepAround lines.length context keep l.2) keep
      r.length = lines.length ∧ (∀ k : Nat, keep[k]? = some true → r[k]? = some true) ∧
        ∀ l ∈ ls, l.1.Changed → r[l.2]? = some true := by
    intro ls
    induction ls with
    | nil => exact fun keep hlen _ => ⟨hlen, fun _ h => h, fun l hl => absurd hl List.not_mem_nil⟩
    | cons l ls ih =>
      intro keep hlen hls
      have hrest : ∀ l ∈ ls, l.2 < lines.length := fun l hl => hls l (List.mem_cons_of_mem _ hl)
      rw [List.foldl_cons]
      by_cases hsame : l.1.kind = .same
      · rw [if_pos hsame]
        obtain ⟨hlen', hkept, hchanged⟩ := ih keep hlen hrest
        refine ⟨hlen', hkept, fun l' hl' h => ?_⟩
        rcases List.mem_cons.1 hl' with rfl | hl'
        · exact absurd hsame h
        · exact hchanged l' hl' h
      · rw [if_neg hsame]
        obtain ⟨hlen1, hset, hstays⟩ := @keepAround_spec _ context _ _ hlen (hls l List.mem_cons_self)
        obtain ⟨hlen', hkept, hchanged⟩ := ih _ hlen1 hrest
        refine ⟨hlen', fun k hk => hkept k (hstays k hk), fun l' hl' h => ?_⟩
        rcases List.mem_cons.1 hl' with rfl | hl'
        · exact hkept _ hset
        · exact hchanged l' hl' h
  obtain ⟨hlen, -, hchanged⟩ := hloop lines.zipIdx (List.replicate lines.length false) List.length_replicate
    fun l hl => (List.mem_zipIdx' hl).1
  exact ⟨hlen, hchanged⟩

theorem filterMap_elide (skipped : Bool) (ls : List (DiffLine × Bool)) :
    (elide skipped ls).filterMap id = (ls.filter Prod.snd).map Prod.fst := by
  fun_induction elide skipped ls with
  | case1 skipped => rfl
  | case2 skipped l rest ih => exact congrArg (l :: ·) ih
  | case3 l rest keep h ih =>
    rw [List.filter_cons_of_neg h]
    exact ih
  | case4 skipped l keep rest h hskipped ih =>
    rw [List.filter_cons_of_neg h]
    exact ih

theorem hunks_spec (lines : List DiffLine) (context : Nat) :
    ((hunks lines context).filterMap id).filter (fun l => decide l.Changed) =
        lines.filter (fun l => decide l.Changed) ∧
      ((hunks lines context).filterMap id).Sublist lines := by
  obtain ⟨hlen, hchanged⟩ := kept_spec lines context
  have hzip : (lines.zip (kept lines context)).map Prod.fst = lines := List.map_fst_zip hlen.ge
  rw [hunks, filterMap_elide]
  constructor
  · have hall : ∀ l ∈ (lines.zip (kept lines context)).filter fun l => decide l.1.Changed, l.2 = true := by
      intro l hl
      obtain ⟨hmem, hl⟩ := List.mem_filter.1 hl
      obtain ⟨i, hi, rfl⟩ := List.getElem_of_mem hmem
      rw [List.getElem_zip] at hl ⊢
      rw [List.length_zip] at hi
      have hline : i < lines.length := lt_of_lt_of_le hi (Nat.min_le_left _ _)
      have hmem : (lines[i], i) ∈ lines.zipIdx := by
        rw [List.mk_mem_zipIdx_iff_getElem?]
        exact List.getElem?_eq_getElem hline
      exact (List.getElem?_eq_some_iff.1 (hchanged _ hmem (of_decide_eq_true hl))).2
    have hfilter : ((lines.zip (kept lines context)).filter Prod.snd).filter (fun l => decide l.1.Changed) =
        (lines.zip (kept lines context)).filter fun l => decide l.1.Changed := by
      rw [List.filter_comm, List.filter_eq_self.2 hall]
    rw [List.filter_map]
    refine (congrArg (List.map Prod.fst) hfilter).trans ?_
    rw [← hzip, List.filter_map, hzip]
    rfl
  · have hsub := (List.filter_sublist (p := Prod.snd) (l := lines.zip (kept lines context))).map Prod.fst
    rwa [hzip] at hsub

/-- For all texts: the lines of the diff that are not added are those of the text before, numbered
from 1 on, the lines that are not removed are those of the text after, and unless the parts in the
middle are too large, as many lines are the same as a longest common subsequence has. The hunks of
a list of lines keep its changed lines, and the order of all that they keep. -/
theorem diff_correct (before after : JsText) :
    let a := before.splitOn lineFeed
    let b := after.splitOn lineFeed
    (olds (diffLines before after) = numbered 0 a ∧ news (diffLines before after) = numbered 0 b) ∧
      ((middle a b a).length * (middle a b b).length ≤ MAX_CELLS →
        IsLongest a b (sameCount (diffLines before after))) ∧
      ∀ (lines : List DiffLine) (context : Nat),
        ((hunks lines context).filterMap id).filter (fun l => decide l.Changed) =
            lines.filter (fun l => decide l.Changed) ∧
          ((hunks lines context).filterMap id).Sublist lines := by
  dsimp only
  obtain ⟨p, ma, mb, s, ha, hb, hp, hs⟩ := exists_parts (before.splitOn lineFeed) (after.splitOn lineFeed)
  rw [ha, hb] at hp hs
  have hdiff := diffLines_of_parts ha hb hp hs
  rw [ha, hb, middle_of_parts hp hs, middle_of_parts hp hs]
  refine ⟨⟨?_, ?_⟩, ?_, hunks_spec⟩
  · rw [hdiff, olds_append, olds_append, sames_spec.1, (align_numbers _ _ _).1, sames_spec.1, numbered_append,
      numbered_append, List.length_append, Nat.zero_add, Nat.zero_add]
  · rw [hdiff, news_append, news_append, sames_spec.2.1, (align_numbers _ _ _).2, sames_spec.2.1, numbered_append,
      numbered_append, List.length_append, Nat.zero_add, Nat.zero_add]
  · intro hcells
    have halign : align p.length ma mb = walk p.length (lcsTable ma mb) ma mb 0 0 := if_neg (Nat.not_lt.2 hcells)
    rw [hdiff, sameCount_append, sameCount_append, sames_spec.2.2, sames_spec.2.2, halign]
    have hwalk := isLongest_walk p.length ma mb 0 0
    exact (hwalk.append_left p).append_right s

end Portal.LineDiff
