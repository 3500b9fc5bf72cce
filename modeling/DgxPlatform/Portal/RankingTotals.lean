import DgxPlatform.Lib.Binary64
import DgxPlatform.Portal.RankingWindow
import Mathlib.Algebra.Order.BigOperators.Group.List

/-! # The sums of the leaderboard

The account view adds up: the logs of a period to the rows of their owners, and the rows to
the total. Each log is in the row of its owner if this account has a positive figure, and
the trend of a row adds up to its figure if the buckets cover the account's logs.

* `sums_byAccount`, `spark_byAccount`: an aggregate holds the sums over the owner's logs.
-/

namespace Portal.Ranking

open Civil (Date Timestamp)
open Grouping (sumWhere)
open Ordered (Map)

/-! ## Sums of tokens and requests -/

theorem Triple.ext {a b : Triple} (hp : a.prompt = b.prompt) (hc : a.completion = b.completion)
    (hr : a.requests = b.requests) : a = b := by
  cases a
  cases b
  simp only at hp hc hr
  subst hp hc hr
  rfl

instance : Zero Triple := ⟨{}⟩

instance : Add Triple := ⟨Triple.add⟩

namespace Triple

@[simp] theorem prompt_zero : (0 : Triple).prompt = 0 := rfl

@[simp] theorem completion_zero : (0 : Triple).completion = 0 := rfl

@[simp] theorem requests_zero : (0 : Triple).requests = 0 := rfl

@[simp] theorem prompt_add (a b : Triple) : (a + b).prompt = a.prompt + b.prompt := rfl

@[simp] theorem completion_add (a b : Triple) : (a + b).completion = a.completion + b.completion := rfl

@[simp] theorem requests_add (a b : Triple) : (a + b).requests = a.requests + b.requests := rfl

instance : AddCommMonoid Triple where
  add_assoc a b c := by
    apply Triple.ext <;> simp only [prompt_add, completion_add, requests_add] <;> omega
  zero_add a := by
    apply Triple.ext <;> simp
  add_zero a := by
    apply Triple.ext <;> simp
  add_comm a b := by
    apply Triple.ext <;> simp only [prompt_add, completion_add, requests_add] <;> omega
  nsmul := nsmulRec

/-- The figure of a metric. -/
def weight (m : Metric) (t : Triple) : Int :=
  match m with
  | .completion => t.completion
  | .prompt => t.prompt
  | .requests => t.requests
  | .total | .perRequest => t.prompt + t.completion

@[simp] theorem weight_zero (m : Metric) : (0 : Triple).weight m = 0 := by
  cases m <;> rfl

@[simp] theorem weight_add (m : Metric) (a b : Triple) : (a + b).weight m = a.weight m + b.weight m := by
  cases m <;> simp only [weight, prompt_add, completion_add, requests_add] <;> omega

theorem weight_sum (m : Metric) (ts : List Triple) : ts.sum.weight m = (ts.map (weight m)).sum := by
  induction ts with
  | nil => exact weight_zero m
  | cons t ts ih => rw [List.sum_cons, weight_add, List.map_cons, List.sum_cons, ih]

structure NonNeg (t : Triple) : Prop where
  prompt : 0 ≤ t.prompt
  completion : 0 ≤ t.completion
  requests : 0 ≤ t.requests

theorem NonNeg.weight {t : Triple} (h : t.NonNeg) (m : Metric) : 0 ≤ t.weight m := by
  obtain ⟨hp, hc, hr⟩ := h
  cases m <;> simp only [Triple.weight] <;> omega

theorem NonNeg.add {a b : Triple} (ha : a.NonNeg) (hb : b.NonNeg) : (a + b).NonNeg where
  prompt := Int.add_nonneg ha.prompt hb.prompt
  completion := Int.add_nonneg ha.completion hb.completion
  requests := Int.add_nonneg ha.requests hb.requests

theorem nonNeg_sum {ts : List Triple} (h : ∀ t ∈ ts, t.NonNeg) : ts.sum.NonNeg := by
  induction ts with
  | nil => exact ⟨Int.le_refl 0, Int.le_refl 0, Int.le_refl 0⟩
  | cons t ts ih =>
    obtain ⟨ht, hts⟩ := List.forall_mem_cons.1 h
    rw [List.sum_cons]
    exact ht.add (ih hts)

end Triple

/-- What a log counts for. -/
def SpendLog.triple (log : SpendLog) : Triple where
  prompt := log.prompt.getD 0
  completion := log.completion.getD 0
  requests := if log.success then 1 else 0

theorem getD_sumTokens (xs : List (Option Int)) : (sumTokens xs).getD 0 = (xs.map fun x => x.getD 0).sum := by
  unfold sumTokens
  split_ifs with h
  · -- no value at all
    have hzero : ∀ y ∈ xs.map (fun x => x.getD 0), y = 0 := by
      intro y hy
      obtain ⟨x, hx, rfl⟩ := List.mem_map.1 hy
      have hnone := List.all_eq_true.1 h x hx
      rw [Option.isNone_iff_eq_none.1 hnone, Option.getD_none]
    rw [List.sum_eq_zero hzero, Option.getD_none]
  · rfl

theorem countP_eq_sum (p : SpendLog → Bool) (logs : List SpendLog) :
    (logs.countP p : Int) = (logs.map fun log => if p log then 1 else 0).sum := by
  induction logs with
  | nil => rfl
  | cons log logs ih =>
    rw [List.countP_cons, List.map_cons, List.sum_cons, ← ih]
    split_ifs <;> push_cast <;> omega

theorem triple_groupRow (g : (String × Option String × Option String) × List SpendLog) :
    (groupRow g).triple = (g.2.map SpendLog.triple).sum := by
  -- each number is a figure, and a figure of a sum is the sum of the figures
  apply Triple.ext
  · refine Eq.trans ?_ (Triple.weight_sum .prompt _).symm
    show (sumTokens (g.2.map SpendLog.prompt)).getD 0 = _
    rw [getD_sumTokens, List.map_map, List.map_map]
    rfl
  · refine Eq.trans ?_ (Triple.weight_sum .completion _).symm
    show (sumTokens (g.2.map SpendLog.completion)).getD 0 = _
    rw [getD_sumTokens, List.map_map, List.map_map]
    rfl
  · refine Eq.trans ?_ (Triple.weight_sum .requests _).symm
    rw [List.map_map]
    exact countP_eq_sum SpendLog.success g.2

/-! ## The aggregates -/

section Aggregates

variable {umap : Map String String} {u b : String}

/-- The key of a log or of a row is one of the account. -/
def isOwner (umap : Map String String) (u : String) (key : Option String) : Bool :=
  decide (ownerOf umap key = some u)

def rowsOf (umap : Map String String) (u : String) (rows : List CurrentRow) : List CurrentRow :=
  rows.filter fun r => isOwner umap u r.apiKey

/-- Rows added to an aggregate. -/
def aggOf (a : Agg) (rows : List CurrentRow) : Agg := rows.foldl (fun a r => a.addRow r) a

theorem get?_foldl_addCurrent (rows : List CurrentRow) (m : Map String Agg) :
    Ordered.get? u (rows.foldl (addCurrent umap) m) =
      if rowsOf umap u rows = [] then Ordered.get? u m
      else some (aggOf ((Ordered.get? u m).getD {}) (rowsOf umap u rows)) := by
  induction rows generalizing m with
  | nil => rfl
  | cons r rows ih =>
    rw [List.foldl_cons, ih]
    by_cases hown : ownerOf umap r.apiKey = some u
    · have hrows : rowsOf umap u (r :: rows) = r :: rowsOf umap u rows :=
        List.filter_cons_of_pos (decide_eq_true hown)
      have hget : Ordered.get? u (addCurrent umap m r) =
          some (((Ordered.get? u m).getD {}).addRow r) := by
        rw [addCurrent, hown]
        exact Ordered.get?_modify.trans (if_pos rfl)
      rw [hrows, if_neg (List.cons_ne_nil _ _), hget, Option.getD_some]
      split_ifs with hempty
      · rw [hempty]
        rfl
      · rfl
    · have hrows : rowsOf umap u (r :: rows) = rowsOf umap u rows := by
        refine List.filter_cons_of_neg ?_
        rw [isOwner, decide_eq_true_eq]
        exact hown
      have hget : Ordered.get? u (addCurrent umap m r) = Ordered.get? u m := by
        unfold addCurrent
        cases hkey : ownerOf umap r.apiKey with
        | none => rfl
        | some v =>
          have hne : ¬ u = v := fun h => hown (h ▸ hkey)
          exact Ordered.get?_modify.trans (if_neg hne)
      rw [hrows, hget]

theorem sums_addRow (r : CurrentRow) (a : Agg) : (a.addRow r).sums = a.sums + r.triple := by
  unfold Agg.addRow
  dsimp only
  split
  · split_ifs <;> rfl
  · rfl

/-- What an aggregate holds in a bucket. -/
def sparkAt (a : Agg) (b : String) : Triple := (Ordered.get? b a.spark).getD {}

theorem sparkAt_addRow (r : CurrentRow) (a : Agg) :
    sparkAt (a.addRow r) b = sparkAt a b + if r.bucket.getD "" = b then r.triple else 0 := by
  have hspark : (a.addRow r).spark = Ordered.modify (r.bucket.getD "") {} (·.add r.triple) a.spark := by
    unfold Agg.addRow
    dsimp only
    split
    · split_ifs <;> rfl
    · rfl
  unfold sparkAt
  rw [hspark, Ordered.get?_modify]
  by_cases hb : b = r.bucket.getD ""
  · subst hb
    rw [if_pos rfl, if_pos rfl]
    rfl
  · have hb' : ¬ r.bucket.getD "" = b := fun h => hb h.symm
    rw [if_neg hb, if_neg hb', add_zero]

theorem sums_aggOf (a : Agg) (rows : List CurrentRow) :
    (aggOf a rows).sums = a.sums + (rows.map CurrentRow.triple).sum := by
  induction rows generalizing a with
  | nil => exact (add_zero _).symm
  | cons r rows ih =>
    show (aggOf (a.addRow r) rows).sums = _
    rw [ih, sums_addRow, List.map_cons, List.sum_cons, add_assoc]

theorem sparkAt_aggOf (a : Agg) (rows : List CurrentRow) :
    sparkAt (aggOf a rows) b =
      sparkAt a b + sumWhere CurrentRow.triple (fun r => decide (r.bucket.getD "" = b)) rows := by
  induction rows generalizing a with
  | nil => exact (add_zero _).symm
  | cons r rows ih =>
    show sparkAt (aggOf (a.addRow r) rows) b = _
    rw [ih, sparkAt_addRow, Grouping.sumWhere_cons, add_assoc]
    simp only [decide_eq_true_eq]

theorem nodup_byAccount (sp : Spend) (q : Query) : ((byAccount sp q).map Prod.fst).Nodup := by
  have hfold : ∀ (rows : List CurrentRow) (m : Map String Agg), (m.map Prod.fst).Nodup →
      ((rows.foldl (addCurrent sp.umap) m).map Prod.fst).Nodup := by
    intro rows
    induction rows with
    | nil => exact fun m hm => hm
    | cons r rows ih =>
      intro m hm
      refine ih _ ?_
      unfold addCurrent
      split
      · exact Ordered.nodup_modify hm
      · exact hm
  exact hfold _ [] List.nodup_nil

end Aggregates

/-! ## From the logs to the aggregates -/

section Logs

variable {z : Zone} {now : Timestamp} {logs : List SpendLog} {sp : Spend} {q : Query} {u b : String}

/-- What the logs of the period that satisfy a condition on bucket and key count for. -/
def sumLogs (z : Zone) (now : Timestamp) (logs : List SpendLog) (q : Query)
    (p : String → Option String → Bool) : Triple :=
  sumWhere SpendLog.triple (fun log => p (bucketOf (z.toLocal log.startTime) q.period) log.apiKey)
    (logsOf z now logs q)

theorem sum_current (h : Reads z now logs sp q) (p : String → Option String → Bool) :
    sumWhere CurrentRow.triple (fun r => p (r.bucket.getD "") r.apiKey) (sp.current q.period q.model) =
      sumLogs z now logs q p := by
  rw [Grouping.sumWhere_perm _ _ h.current]
  have hgroups := @Grouping.sum_groups _ _ _ (groupKey z q.period) _ _ SpendLog.triple
    (fun k => p k.1 k.2.1) (logsOf z now logs q)
  refine Eq.trans ?_ hgroups
  unfold currentRows sumWhere
  rw [List.filter_map, List.map_map]
  exact congrArg List.sum (List.map_congr_left fun g _ => triple_groupRow g)

/-- What the logs of an account count for. -/
def sumsOf (z : Zone) (now : Timestamp) (logs : List SpendLog) (q : Query) (umap : Map String String)
    (u : String) : Triple :=
  sumLogs z now logs q fun _ key => isOwner umap u key

theorem sums_byAccount (h : Reads z now logs sp q) {a : Agg} (ha : (u, a) ∈ byAccount sp q) :
    a.sums = sumsOf z now logs q sp.umap u ∧
      ∀ b, sparkAt a b =
        sumLogs z now logs q fun bucket key => isOwner sp.umap u key && decide (bucket = b) := by
  have hget := Ordered.get?_of_mem (nodup_byAccount sp q) ha
  rw [byAccount, get?_foldl_addCurrent] at hget
  split_ifs at hget with hempty
  · cases hget
  · obtain rfl := Option.some.inj hget
    constructor
    · rw [sums_aggOf, sumsOf, ← sum_current h]
      exact zero_add _
    · intro b
      rw [sparkAt_aggOf, ← sum_current h]
      unfold sumWhere rowsOf
      rw [List.filter_filter]
      refine (zero_add _).trans ?_
      simp only [Bool.and_comm]

theorem sumsOf_eq_zero (h : Reads z now logs sp q) (hu : ∀ a, (u, a) ∉ byAccount sp q) :
    sumsOf z now logs q sp.umap u = 0 := by
  have hnone : rowsOf sp.umap u (sp.current q.period q.model) = [] := by
    by_contra hne
    have hget := @get?_foldl_addCurrent sp.umap u (sp.current q.period q.model) []
    rw [if_neg hne] at hget
    exact hu _ (Ordered.mem_of_get? hget)
  rw [sumsOf, ← sum_current h]
  show ((rowsOf sp.umap u (sp.current q.period q.model)).map CurrentRow.triple).sum = 0
  rw [hnone]
  rfl

end Logs

/-! ## Whole figures -/

section Whole

variable {F : Type} {ar : Arith F}

/-- Whole figures of up to 53 bits are kept, added, compared and written without an error. -/
structure Arith.Whole (ar : Arith F) : Prop where
  toInt : ∀ n, 0 ≤ n → n ≤ 2 ^ 53 → ar.toInt (ar.ofInt n) = n
  add : ∀ m n, 0 ≤ m → 0 ≤ n → m + n ≤ 2 ^ 53 → ar.add (ar.ofInt m) (ar.ofInt n) = ar.ofInt (m + n)
  gt : ∀ m n, 0 ≤ m → m ≤ 2 ^ 53 → 0 ≤ n → n ≤ 2 ^ 53 →
    ar.gt (ar.ofInt m) (ar.ofInt n) = decide (n < m)
  roundTo : ∀ n, 0 ≤ n → n ≤ 2 ^ 53 → ar.roundTo (ar.ofInt n) 1 = ar.ofInt n

/-- `f64`. -/
def f64 : Arith ℚ where
  ofInt n := Binary64.round n
  toInt x := max (-2 ^ 63) (min (x.num.tdiv x.den) (2 ^ 63 - 1))
  add x y := Binary64.round (x + y)
  sub x y := Binary64.round (x - y)
  mul x y := Binary64.round (x * y)
  div x y := Binary64.round (x / y)
  gt x y := decide (y < x)
  roundTo := Binary64.roundTo

theorem whole_f64 : f64.Whole := by
  have hround : ∀ n : Int, 0 ≤ n → n ≤ 2 ^ 53 → Binary64.round (n : ℚ) = n := by
    intro n h0 h
    exact Binary64.round_intCast (by rw [abs_of_nonneg h0]; exact h)
  refine ⟨?_, ?_, ?_, ?_⟩
  · intro n h0 h
    show max (-2 ^ 63) (min ((Binary64.round (n : ℚ)).num.tdiv (Binary64.round (n : ℚ)).den)
      (2 ^ 63 - 1)) = n
    rw [hround n h0 h, Rat.num_intCast, Rat.den_intCast, Nat.cast_one, Int.tdiv_one]
    omega
  · intro m n hm hn h
    show Binary64.round (Binary64.round (m : ℚ) + Binary64.round (n : ℚ)) =
      Binary64.round ((m + n : Int) : ℚ)
    rw [hround m hm (by omega), hround n hn (by omega), Int.cast_add]
  · intro m n hm hm' hn hn'
    show decide (Binary64.round (n : ℚ) < Binary64.round (m : ℚ)) = decide (n < m)
    rw [hround m hm hm', hround n hn hn']
    exact decide_eq_decide.2 Int.cast_lt
  · intro n h0 h
    show Binary64.roundTo (Binary64.round (n : ℚ)) 1 = Binary64.round (n : ℚ)
    rw [hround n h0 h]
    exact Binary64.roundTo_intCast (by rw [abs_of_nonneg h0]; exact h) 1

theorem tripleValue_eq (h : ar.Whole) {m : Metric} (hm : m ≠ .perRequest) {t : Triple} (ht : t.NonNeg)
    (hle : t.weight m ≤ 2 ^ 53) : ar.tripleValue m t = ar.ofInt (t.weight m) := by
  obtain ⟨hp, hc, hr⟩ := ht
  unfold Arith.tripleValue Arith.metricValue
  rw [max_eq_left hp, max_eq_left hc, max_eq_left hr]
  cases m with
  | completion => rfl
  | prompt => rfl
  | requests => rfl
  | perRequest => exact absurd rfl hm
  | total => exact h.add t.prompt t.completion hp hc hle

theorem sum_ofInt (h : ar.Whole) {ns : List Int} (hnn : ∀ n ∈ ns, 0 ≤ n) (hle : ns.sum ≤ 2 ^ 53) :
    ar.sum (ns.map ar.ofInt) = ar.ofInt ns.sum := by
  have hfold : ∀ (ns : List Int) (a : Int), 0 ≤ a → (∀ n ∈ ns, 0 ≤ n) → a + ns.sum ≤ 2 ^ 53 →
      (ns.map ar.ofInt).foldl ar.add (ar.ofInt a) = ar.ofInt (a + ns.sum) := by
    intro ns
    induction ns with
    | nil =>
      intro a _ _ _
      rw [List.sum_nil, Int.add_zero]
      rfl
    | cons n ns ih =>
      intro a ha hnn hle
      obtain ⟨hn, hns⟩ := List.forall_mem_cons.1 hnn
      have hsum := List.sum_nonneg hns
      rw [List.sum_cons] at hle ⊢
      rw [List.map_cons, List.foldl_cons, h.add a n ha hn (by omega), ih (a + n) (by omega) hns (by omega),
        Int.add_assoc]
  have hzero := hfold ns 0 (Int.le_refl 0) hnn (by omega)
  rw [Int.zero_add] at hzero
  exact hzero

end Whole

/-! ## The figures of the accounts -/

/-- The figure of an account. -/
def figureOf (z : Zone) (now : Timestamp) (logs : List SpendLog) (q : Query) (umap : Map String String)
    (u : String) : Int :=
  (sumsOf z now logs q umap u).weight q.metric

/-- The logs of the period that are not the proxy's count for no more than `f64` can tell
apart, and no count is negative. -/
structure Small (z : Zone) (now : Timestamp) (logs : List SpendLog) (q : Query) (umap : Map String String) :
    Prop where
  counts : ∀ log ∈ logsOf z now logs q, 0 ≤ log.prompt.getD 0 ∧ 0 ≤ log.completion.getD 0
  total : (sumLogs z now logs q fun _ key => (ownerOf umap key).isSome).weight q.metric ≤ 2 ^ 53

section Figures

variable {z : Zone} {now : Timestamp} {logs : List SpendLog} {q : Query} {umap : Map String String}
  {u : String}

theorem Small.nonNeg (h : Small z now logs q umap) {log : SpendLog} (hlog : log ∈ logsOf z now logs q) :
    log.triple.NonNeg := by
  obtain ⟨hp, hc⟩ := h.counts log hlog
  refine ⟨hp, hc, ?_⟩
  show 0 ≤ if log.success then (1 : Int) else 0
  split_ifs <;> omega

theorem Small.weight_nonneg (h : Small z now logs q umap) :
    ∀ log ∈ logsOf z now logs q, 0 ≤ log.triple.weight q.metric := fun _ hlog =>
  (h.nonNeg hlog).weight q.metric

theorem weight_sumLogs (p : String → Option String → Bool) :
    (sumLogs z now logs q p).weight q.metric =
      sumWhere (fun log => log.triple.weight q.metric)
        (fun log => p (bucketOf (z.toLocal log.startTime) q.period) log.apiKey) (logsOf z now logs q) := by
  unfold sumLogs sumWhere
  rw [Triple.weight_sum, List.map_map]
  rfl

theorem Small.nonNeg_sumLogs (h : Small z now logs q umap) (p : String → Option String → Bool) :
    (sumLogs z now logs q p).NonNeg := by
  refine Triple.nonNeg_sum fun t ht => ?_
  obtain ⟨log, hlog, rfl⟩ := List.mem_map.1 ht
  exact h.nonNeg (List.mem_filter.1 hlog).1

theorem Small.weight_le (h : Small z now logs q umap) {p p' : String → Option String → Bool}
    (hp : ∀ bucket key, p bucket key = true → p' bucket key = true) :
    (sumLogs z now logs q p).weight q.metric ≤ (sumLogs z now logs q p').weight q.metric := by
  rw [weight_sumLogs, weight_sumLogs]
  exact Grouping.sumWhere_le _ (fun log _ => hp _ _) h.weight_nonneg

theorem Small.figure_nonneg (h : Small z now logs q umap) (u : String) : 0 ≤ figureOf z now logs q umap u :=
  (h.nonNeg_sumLogs _).weight q.metric

theorem isSome_of_isOwner {key : Option String} (h : isOwner umap u key = true) :
    (ownerOf umap key).isSome = true := by
  rw [of_decide_eq_true h]
  rfl

theorem Small.figure_le (h : Small z now logs q umap) (u : String) : figureOf z now logs q umap u ≤ 2 ^ 53 :=
  Int.le_trans (h.weight_le fun _ _ => isSome_of_isOwner) h.total

theorem Small.sum_le (h : Small z now logs q umap) {us : List String} (hus : us.Nodup) :
    (us.map (figureOf z now logs q umap)).sum ≤ 2 ^ 53 := by
  have hnodup : (us.map some).Nodup := hus.map (Option.some_injective String)
  have hkeys := @Grouping.sum_keys_le _ _ _ (fun log : SpendLog => ownerOf umap log.apiKey) _ _
    (fun log => log.triple.weight q.metric) _ _ _ hnodup (fun log => (ownerOf umap log.apiKey).isSome)
    (logsOf z now logs q)
    (fun log _ hmem => by
      obtain ⟨v, -, hv⟩ := List.mem_map.1 hmem
      rw [← hv]
      rfl)
    h.weight_nonneg
  rw [List.map_map] at hkeys
  have hfigures : us.map (figureOf z now logs q umap) = us.map ((fun k =>
      sumWhere (fun log => log.triple.weight q.metric) (fun log => decide (ownerOf umap log.apiKey = k))
        (logsOf z now logs q)) ∘ some) := List.map_congr_left fun u _ => weight_sumLogs _
  rw [hfigures]
  refine Int.le_trans hkeys ?_
  have htotal := h.total
  rwa [weight_sumLogs] at htotal

end Figures

/-! ## The rows -/

section Rows

variable {F : Type} {ar : Arith F} {z : Zone} {now : Timestamp} {logs : List SpendLog} {sp : Spend}
  {t : Tables} {q : Query} {u : String} {a : Agg}

theorem tripleValue_byAccount (hwhole : ar.Whole) (hread : Reads z now logs sp q)
    (hsmall : Small z now logs q sp.umap) (hm : q.metric ≠ .perRequest) (ha : (u, a) ∈ byAccount sp q) :
    ar.tripleValue q.metric a.sums = ar.ofInt (figureOf z now logs q sp.umap u) := by
  rw [(sums_byAccount hread ha).1]
  exact tripleValue_eq hwhole hm (hsmall.nonNeg_sumLogs _) (hsmall.figure_le u)

/-- The accounts that are ranked, or listed as residues: those with a positive figure. -/
theorem mem_ranked_iff (hwhole : ar.Whole) (hread : Reads z now logs sp q)
    (hsmall : Small z now logs q sp.umap) (hm : q.metric ≠ .perRequest) {residue : Bool} :
    (u, a) ∈ ranked ar q (accountBoard sp t q) residue ↔
      (u, a) ∈ byAccount sp q ∧ 0 < figureOf z now logs q sp.umap u ∧ t.isResidue u = residue := by
  unfold ranked
  rw [List.mem_mergeSort, List.mem_filter, Bool.and_eq_true, beq_iff_eq]
  refine and_congr_right fun ha => and_congr_left fun _ => ?_
  have hmem : (u, a) ∈ byAccount sp q := ha
  rw [tripleValue_byAccount hwhole hread hsmall hm hmem, Arith.zero,
    hwhole.gt _ 0 (hsmall.figure_nonneg u) (hsmall.figure_le u) (Int.le_refl 0) (by omega), decide_eq_true_eq]

/-- All accounts of the answer, the ranked ones first. -/
def entries (ar : Arith F) (q : Query) (b : Board) : Map String Agg := ranked ar q b false ++ ranked ar q b true

theorem nodup_entries (ar : Arith F) (sp : Spend) (t : Tables) (q : Query) :
    ((entries ar q (accountBoard sp t q)).map Prod.fst).Nodup := by
  have hpart : ∀ residue, ((ranked ar q (accountBoard sp t q) residue).map Prod.fst).Nodup := by
    intro residue
    have hperm := (List.mergeSort_perm ((byAccount sp q).filter fun p =>
      ar.gt (ar.tripleValue q.metric p.2.sums) ar.zero && t.isResidue p.1 == residue) (fun p p' =>
        !ar.gt (ar.tripleValue q.metric p'.2.sums) (ar.tripleValue q.metric p.2.sums))).map Prod.fst
    refine hperm.nodup_iff.2 ?_
    exact (nodup_byAccount sp q).sublist (List.filter_sublist.map Prod.fst)
  have hresidue : ∀ residue, ∀ u ∈ (ranked ar q (accountBoard sp t q) residue).map Prod.fst,
      t.isResidue u = residue := by
    rintro residue u hu
    obtain ⟨p, hp, rfl⟩ := List.mem_map.1 hu
    have hkept := (List.mem_filter.1 (List.mem_mergeSort.1 hp)).2
    rw [Bool.and_eq_true, beq_iff_eq] at hkept
    exact hkept.2
  rw [entries, List.map_append, List.nodup_append]
  refine ⟨hpart false, hpart true, ?_⟩
  rintro u hu v hv rfl
  have hfalse := hresidue false u hu
  rw [hresidue true u hv] at hfalse
  cases hfalse

theorem mem_entries_iff (hwhole : ar.Whole) (hread : Reads z now logs sp q)
    (hsmall : Small z now logs q sp.umap) (hm : q.metric ≠ .perRequest) :
    (u, a) ∈ entries ar q (accountBoard sp t q) ↔
      (u, a) ∈ byAccount sp q ∧ 0 < figureOf z now logs q sp.umap u := by
  rw [entries, List.mem_append, mem_ranked_iff hwhole hread hsmall hm, mem_ranked_iff hwhole hread hsmall hm]
  constructor
  · rintro (⟨ha, hpos, -⟩ | ⟨ha, hpos, -⟩) <;> exact ⟨ha, hpos⟩
  · rintro ⟨ha, hpos⟩
    cases hres : t.isResidue u with
    | false => exact .inl ⟨ha, hpos, rfl⟩
    | true => exact .inr ⟨ha, hpos, rfl⟩

theorem exists_mem_entries (hwhole : ar.Whole) (hread : Reads z now logs sp q)
    (hsmall : Small z now logs q sp.umap) (hm : q.metric ≠ .perRequest)
    (hpos : 0 < figureOf z now logs q sp.umap u) : ∃ a, (u, a) ∈ entries ar q (accountBoard sp t q) := by
  by_contra hnone
  have hzero : sumsOf z now logs q sp.umap u = 0 := by
    refine sumsOf_eq_zero hread fun a ha => hnone ⟨a, ?_⟩
    exact (mem_entries_iff hwhole hread hsmall hm).2 ⟨ha, hpos⟩
  rw [figureOf, hzero, Triple.weight_zero] at hpos
  omega

theorem value_line (hwhole : ar.Whole) (hread : Reads z now logs sp q)
    (hsmall : Small z now logs q sp.umap) (hm : q.metric ≠ .perRequest) (ha : (u, a) ∈ byAccount sp q)
    (prices : Prices F) (me : String) (total : F) (rank : Option Nat) :
    (line ar sp prices q (accountBoard sp t q) me total rank u a).value =
      .int (figureOf z now logs q sp.umap u) := by
  show figure ar q.metric _ _ = _
  rw [figure, if_neg hm, tripleValue_byAccount hwhole hread hsmall hm ha,
    hwhole.toInt _ (hsmall.figure_nonneg u) (hsmall.figure_le u)]

theorem trend_line (hwhole : ar.Whole) (hread : Reads z now logs sp q)
    (hsmall : Small z now logs q sp.umap) (hm : q.metric ≠ .perRequest) (ha : (u, a) ∈ byAccount sp q)
    (prices : Prices F) (me : String) (total : F) (rank : Option Nat) :
    (line ar sp prices q (accountBoard sp t q) me total rank u a).trend =
      (sp.buckets q.period).map fun b => .int ((sumLogs z now logs q fun bucket key =>
        isOwner sp.umap u key && decide (bucket = b)).weight q.metric) := by
  show (sp.buckets q.period).map _ = _
  refine List.map_congr_left fun b _ => ?_
  have hspark : (Ordered.get? b a.spark).getD {} = _ := (sums_byAccount hread ha).2 b
  have hle : (sumLogs z now logs q fun bucket key => isOwner sp.umap u key && decide (bucket = b)).weight
      q.metric ≤ figureOf z now logs q sp.umap u := by
    refine hsmall.weight_le fun bucket key hkey => ?_
    exact (Bool.and_eq_true _ _ ▸ hkey).1
  have hbound := Int.le_trans hle (hsmall.figure_le u)
  dsimp only
  rw [hspark, figure, if_neg hm, tripleValue_eq hwhole hm (hsmall.nonNeg_sumLogs _) hbound,
    hwhole.toInt _ ((hsmall.nonNeg_sumLogs _).weight q.metric) hbound]

/-- Over buckets that cover the account's logs, the trend adds up to the figure. -/
theorem sum_trend (hread : Reads z now logs sp q)
    (hcovered : ∀ log ∈ logsOf z now logs q, isOwner sp.umap u log.apiKey = true →
      Covered (z.toLocal now).date (z.toLocal log.startTime) q.period) :
    ((sp.buckets q.period).map fun b => (sumLogs z now logs q fun bucket key =>
      isOwner sp.umap u key && decide (bucket = b)).weight q.metric).sum =
        figureOf z now logs q sp.umap u := by
  have hnodup : (sp.buckets q.period).Nodup := by
    rw [hread.buckets]
    exact nodup_bucketsOf _ _ _
  have hmem : ∀ log ∈ (logsOf z now logs q).filter (fun log => isOwner sp.umap u log.apiKey),
      bucketOf (z.toLocal log.startTime) q.period ∈ sp.buckets q.period := by
    intro log hlog
    obtain ⟨hin, hown⟩ := List.mem_filter.1 hlog
    have hstart := (List.mem_filter.1 hin).2
    rw [Bool.and_eq_true, decide_eq_true_eq] at hstart
    rw [hread.buckets]
    exact bucketOf_mem hstart.1 (hcovered log hin hown)
  have hkeys := Grouping.sum_keys_of_mem (fun log : SpendLog => log.triple.weight q.metric) hnodup hmem
  unfold figureOf sumsOf
  rw [weight_sumLogs]
  refine Eq.trans ?_ hkeys
  refine congrArg List.sum (List.map_congr_left fun b _ => ?_)
  rw [weight_sumLogs]
  unfold sumWhere
  rw [List.filter_filter]
  simp only [Bool.and_comm]

theorem map_mapIdx {α β γ : Type} {f : Nat → α → β} {g : β → γ} {g' : α → γ} {l : List α}
    (h : ∀ i, ∀ x ∈ l, g (f i x) = g' x) : (l.mapIdx f).map g = l.map g' := by
  refine List.ext_getElem ?_ fun i _ hi => ?_
  · rw [List.length_map, List.length_mapIdx, List.length_map]
  · rw [List.getElem_map, List.getElem_mapIdx, List.getElem_map]
    exact h i _ (List.getElem_mem _)

theorem map_boardRows {β : Type} {g : Row F → β} {g' : String × Agg → β} {b : Board} {prices : Prices F}
    {me : String}
    (h : ∀ rank p, p ∈ entries ar q b →
      g (line ar sp prices q b me (totalAndAvg ar q b).1 rank p.1 p.2) = g' p) :
    (boardRows ar sp prices q b me).map g = (entries ar q b).map g' := by
  unfold boardRows entries at *
  rw [List.map_append, List.map_append, List.map_map]
  congr 1
  · exact map_mapIdx fun i p hp => h _ p (List.mem_append_left _ hp)
  · exact List.map_congr_left fun p hp => h none p (List.mem_append_right _ hp)

theorem exists_of_mem_boardRows {b : Board} {prices : Prices F} {me : String} {row : Row F}
    (h : row ∈ boardRows ar sp prices q b me) :
    ∃ rank p, p ∈ entries ar q b ∧ row = line ar sp prices q b me (totalAndAvg ar q b).1 rank p.1 p.2 := by
  rcases List.mem_append.1 h with h | h
  · obtain ⟨i, hi, rfl⟩ := List.mem_mapIdx.1 h
    exact ⟨_, _, List.mem_append_left _ (List.getElem_mem hi), rfl⟩
  · obtain ⟨p, hp, rfl⟩ := List.mem_map.1 h
    exact ⟨_, p, List.mem_append_right _ hp, rfl⟩

theorem sorted_ranked (hwhole : ar.Whole) (hread : Reads z now logs sp q)
    (hsmall : Small z now logs q sp.umap) (hm : q.metric ≠ .perRequest) :
    ((ranked ar q (accountBoard sp t q) false).map fun p =>
      figureOf z now logs q sp.umap p.1).Pairwise (· ≥ ·) := by
  have htrans : ∀ m n k : Int,
      decide (m ≥ n) = true → decide (n ≥ k) = true → decide (m ≥ k) = true := by
    intro m n k hmn hnk
    rw [decide_eq_true_eq] at hmn hnk ⊢
    omega
  have htotal : ∀ m n : Int, (decide (m ≥ n) || decide (n ≥ m)) = true := by
    intro m n
    rw [Bool.or_eq_true, decide_eq_true_eq, decide_eq_true_eq]
    omega
  unfold ranked
  -- the comparison of the figures as numbers is the one of the whole numbers
  rw [List.map_mergeSort (s := fun m n : Int => decide (m ≥ n))]
  · exact (List.pairwise_mergeSort htrans htotal _).imp fun h => of_decide_eq_true h
  · rintro ⟨u, a⟩ ha ⟨v, c⟩ hc
    have hu : (u, a) ∈ byAccount sp q := (List.mem_filter.1 ha).1
    have hv : (v, c) ∈ byAccount sp q := (List.mem_filter.1 hc).1
    dsimp only
    rw [tripleValue_byAccount hwhole hread hsmall hm hu, tripleValue_byAccount hwhole hread hsmall hm hv,
      hwhole.gt _ _ (hsmall.figure_nonneg v) (hsmall.figure_le v) (hsmall.figure_nonneg u) (hsmall.figure_le u),
      ← decide_not]
    exact decide_eq_decide.2 Int.not_lt

end Rows

/-! ## The answer -/

section Answer

variable {F : Type}

/-- The answer of the account view adds up. -/
structure AddsUp (ar : Arith F) (z : Zone) (now : Timestamp) (logs : List SpendLog)
    (umap : Map String String) (t : Tables) (q : Query) (ans : Answer F) : Prop where
  /-- The total is the sum of the values of the rows. -/
  total : ∃ values : List Int, ans.rows.map Row.value = values.map .int ∧
    ans.total = .float (ar.ofInt values.sum)
  /-- No account has two rows. -/
  once : (ans.rows.map Row.username).Nodup
  /-- A row adds up the logs of its account, each of which has one owner. -/
  sums : ∀ row ∈ ans.rows, ∃ u, row.username = some u ∧ row.value = .int (figureOf z now logs q umap u) ∧
    row.prompt = (sumsOf z now logs q umap u).prompt ∧
    row.completion = (sumsOf z now logs q umap u).completion ∧
    row.requests = (sumsOf z now logs q umap u).requests
  /-- The accounts with a row are those with a positive figure. -/
  counted : ∀ u, (∃ row ∈ ans.rows, row.username = some u) ↔ 0 < figureOf z now logs q umap u
  /-- The trend of a row adds up to its value if the buckets cover the account's logs. -/
  trend : ∀ row ∈ ans.rows, ∀ u, row.username = some u →
    (∀ log ∈ logsOf z now logs q, ownerOf umap log.apiKey = some u →
      Covered (z.toLocal now).date (z.toLocal log.startTime) q.period) →
    ∃ points : List Int, row.trend = points.map .int ∧ row.value = .int points.sum
  /-- The known accounts among them come first, ranked from 1 on by falling value. -/
  ranked : ∃ top rest, ans.rows = top ++ rest ∧
    top.map Row.rank = (List.range top.length).map (fun i => some (i + 1)) ∧
    (∀ row ∈ rest, row.rank = none) ∧
    (∃ values : List Int, top.map Row.value = values.map .int ∧ values.Pairwise (· ≥ ·)) ∧
    ∀ u, (∃ row ∈ top, row.username = some u) ↔ 0 < figureOf z now logs q umap u ∧ t.isResidue u = false

variable {ar : Arith F} {z : Zone} {now : Timestamp} {logs : List SpendLog} {sp : Spend} {t : Tables}
  {q : Query} {prices : Prices F} {me : String}

theorem total_entries (hm : q.metric ≠ .perRequest) (b : Board) :
    (totalAndAvg ar q b).1 = ar.sum ((entries ar q b).map fun p => ar.tripleValue q.metric p.2.sums) := by
  unfold totalAndAvg entries
  rw [if_neg hm, List.map_append]

theorem total_boardRows (hwhole : ar.Whole) (hread : Reads z now logs sp q)
    (hsmall : Small z now logs q sp.umap) (hm : q.metric ≠ .perRequest) :
    ∃ values : List Int,
      (boardRows ar sp prices q (accountBoard sp t q) me).map Row.value = values.map .int ∧
        ar.roundTo (totalAndAvg ar q (accountBoard sp t q)).1 1 = ar.ofInt values.sum := by
  have hmem : ∀ p ∈ entries ar q (accountBoard sp t q), p ∈ byAccount sp q := fun p hp =>
    ((mem_entries_iff hwhole hread hsmall hm).1 hp).1
  refine ⟨((entries ar q (accountBoard sp t q)).map Prod.fst).map (figureOf z now logs q sp.umap), ?_, ?_⟩
  · rw [List.map_map, List.map_map]
    exact map_boardRows fun rank p hp =>
      value_line hwhole hread hsmall hm (hmem p hp) prices me _ rank
  · have hfigures : (entries ar q (accountBoard sp t q)).map (fun p => ar.tripleValue q.metric p.2.sums) =
        (((entries ar q (accountBoard sp t q)).map Prod.fst).map (figureOf z now logs q sp.umap)).map
          ar.ofInt := by
      rw [List.map_map, List.map_map]
      exact List.map_congr_left fun p hp => tripleValue_byAccount hwhole hread hsmall hm (hmem p hp)
    have hnn : ∀ n ∈ ((entries ar q (accountBoard sp t q)).map Prod.fst).map (figureOf z now logs q sp.umap),
        0 ≤ n := by
      intro n hn
      obtain ⟨u, -, rfl⟩ := List.mem_map.1 hn
      exact hsmall.figure_nonneg u
    have hle := hsmall.sum_le (nodup_entries ar sp t q)
    rw [total_entries hm, hfigures, sum_ofInt hwhole hnn hle, hwhole.roundTo _ (List.sum_nonneg hnn) hle]

theorem names_boardRows : (boardRows ar sp prices q (accountBoard sp t q) me).map Row.username =
    (entries ar q (accountBoard sp t q)).map fun p => some p.1 := map_boardRows fun _ _ _ => rfl

theorem nodup_boardRows :
    ((boardRows ar sp prices q (accountBoard sp t q) me).map Row.username).Nodup := by
  rw [names_boardRows]
  have hsome := (nodup_entries ar sp t q).map (Option.some_injective String)
  rwa [List.map_map] at hsome

/-- The ranked rows: their ranks, their values and their accounts. -/
theorem ranked_boardRows (hwhole : ar.Whole) (hread : Reads z now logs sp q)
    (hsmall : Small z now logs q sp.umap) (hm : q.metric ≠ .perRequest) :
    ∃ top rest, boardRows ar sp prices q (accountBoard sp t q) me = top ++ rest ∧
      top.map Row.rank = (List.range top.length).map (fun i => some (i + 1)) ∧
      (∀ row ∈ rest, row.rank = none) ∧
      (∃ values : List Int, top.map Row.value = values.map .int ∧ values.Pairwise (· ≥ ·)) ∧
      ∀ u, (∃ row ∈ top, row.username = some u) ↔
        0 < figureOf z now logs q sp.umap u ∧ t.isResidue u = false := by
  have hmem : ∀ p ∈ ranked ar q (accountBoard sp t q) false, p ∈ byAccount sp q := fun p hp =>
    ((mem_ranked_iff hwhole hread hsmall hm).1 hp).1
  refine ⟨_, _, rfl, ?_, ?_, ?_, ?_⟩
  · refine List.ext_getElem ?_ fun i _ _ => ?_
    · rw [List.length_map, List.length_map, List.length_range]
    · rw [List.getElem_map, List.getElem_mapIdx, List.getElem_map, List.getElem_range]
      rfl
  · intro row hrow
    obtain ⟨p, -, rfl⟩ := List.mem_map.1 hrow
    rfl
  · refine ⟨_, ?_, sorted_ranked (t := t) hwhole hread hsmall hm⟩
    rw [List.map_map]
    exact map_mapIdx fun i p hp =>
      value_line hwhole hread hsmall hm (hmem p hp) prices me _ (some (i + 1))
  · intro u
    constructor
    · rintro ⟨row, hrow, hname⟩
      obtain ⟨i, hi, rfl⟩ := List.mem_mapIdx.1 hrow
      obtain rfl := Option.some.inj hname
      have hp := (mem_ranked_iff hwhole hread hsmall hm).1 (List.getElem_mem hi)
      exact hp.2
    · rintro ⟨hpos, hknown⟩
      obtain ⟨a, ha⟩ := exists_mem_entries (t := t) hwhole hread hsmall hm hpos
      have hin := ((mem_entries_iff hwhole hread hsmall hm).1 ha).1
      obtain ⟨i, hi, hp⟩ := List.mem_iff_getElem.1
        ((mem_ranked_iff hwhole hread hsmall hm).2 ⟨hin, hpos, hknown⟩)
      refine ⟨_, List.mem_mapIdx.2 ⟨i, hi, rfl⟩, ?_⟩
      show some ((ranked ar q (accountBoard sp t q) false)[i]).1 = some u
      rw [hp]

theorem sums_boardRows (hwhole : ar.Whole) (hread : Reads z now logs sp q)
    (hsmall : Small z now logs q sp.umap) (hm : q.metric ≠ .perRequest) {row : Row F}
    (hrow : row ∈ boardRows ar sp prices q (accountBoard sp t q) me) :
    ∃ u, row.username = some u ∧ row.value = .int (figureOf z now logs q sp.umap u) ∧
      row.prompt = (sumsOf z now logs q sp.umap u).prompt ∧
      row.completion = (sumsOf z now logs q sp.umap u).completion ∧
      row.requests = (sumsOf z now logs q sp.umap u).requests := by
  obtain ⟨rank, p, hp, rfl⟩ := exists_of_mem_boardRows hrow
  have hin := ((mem_entries_iff hwhole hread hsmall hm).1 hp).1
  have hsums := (sums_byAccount hread hin).1
  refine ⟨p.1, rfl, value_line hwhole hread hsmall hm hin prices me _ rank, ?_, ?_, ?_⟩
  · exact congrArg Triple.prompt hsums
  · exact congrArg Triple.completion hsums
  · exact congrArg Triple.requests hsums

theorem counted_boardRows (hwhole : ar.Whole) (hread : Reads z now logs sp q)
    (hsmall : Small z now logs q sp.umap) (hm : q.metric ≠ .perRequest) (u : String) :
    (∃ row ∈ boardRows ar sp prices q (accountBoard sp t q) me, row.username = some u) ↔
      0 < figureOf z now logs q sp.umap u := by
  constructor
  · rintro ⟨row, hrow, hname⟩
    obtain ⟨rank, p, hp, rfl⟩ := exists_of_mem_boardRows hrow
    obtain rfl := Option.some.inj hname
    exact ((mem_entries_iff hwhole hread hsmall hm).1 hp).2
  · intro hpos
    obtain ⟨a, ha⟩ := exists_mem_entries (t := t) hwhole hread hsmall hm hpos
    have hname : some u ∈ (boardRows ar sp prices q (accountBoard sp t q) me).map Row.username := by
      rw [names_boardRows]
      exact List.mem_map.2 ⟨(u, a), ha, rfl⟩
    exact List.mem_map.1 hname

theorem trend_boardRows (hwhole : ar.Whole) (hread : Reads z now logs sp q)
    (hsmall : Small z now logs q sp.umap) (hm : q.metric ≠ .perRequest) {row : Row F} {u : String}
    (hrow : row ∈ boardRows ar sp prices q (accountBoard sp t q) me) (hname : row.username = some u)
    (hcovered : ∀ log ∈ logsOf z now logs q, ownerOf sp.umap log.apiKey = some u →
      Covered (z.toLocal now).date (z.toLocal log.startTime) q.period) :
    ∃ points : List Int, row.trend = points.map .int ∧ row.value = .int points.sum := by
  obtain ⟨rank, p, hp, rfl⟩ := exists_of_mem_boardRows hrow
  obtain rfl := Option.some.inj hname
  have hin := ((mem_entries_iff hwhole hread hsmall hm).1 hp).1
  have hsum := sum_trend hread fun log hlog hown => hcovered log hlog (of_decide_eq_true hown)
  refine ⟨_, (trend_line hwhole hread hsmall hm hin prices me _ rank).trans (List.map_map ..).symm, ?_⟩
  rw [value_line hwhole hread hsmall hm hin, ← hsum]

/-- The account view adds up if the figures of the period fit. -/
theorem addsUp (t : Tables) (prices : Prices F) (quotas : Map String (Option F)) (me : String)
    (hwhole : ar.Whole) (hread : Reads z now logs sp q) (hsmall : Small z now logs q sp.umap)
    (hby : q.by_ = .account) (hm : q.metric ≠ .perRequest) :
    AddsUp ar z now logs sp.umap t q (rankingFull ar ⟨some sp, t, prices, quotas⟩ q me) := by
  have hboard : board sp t q = accountBoard sp t q := by
    rw [board, hby]
  have hrows : (rankingFull ar ⟨some sp, t, prices, quotas⟩ q me).rows =
      boardRows ar sp prices q (accountBoard sp t q) me := by
    rw [← hboard]
    rfl
  have htotal : (rankingFull ar ⟨some sp, t, prices, quotas⟩ q me).total =
      .float (ar.roundTo (totalAndAvg ar q (accountBoard sp t q)).1 1) := by
    rw [← hboard]
    rfl
  constructor
  · obtain ⟨values, hvalues, hsum⟩ :=
      @total_boardRows F ar z now logs sp t q prices me hwhole hread hsmall hm
    rw [hrows, htotal, hsum]
    exact ⟨values, hvalues, rfl⟩
  · rw [hrows]
    exact nodup_boardRows
  · rw [hrows]
    exact fun row hrow => sums_boardRows hwhole hread hsmall hm hrow
  · rw [hrows]
    exact counted_boardRows hwhole hread hsmall hm
  · rw [hrows]
    exact fun row hrow u => trend_boardRows hwhole hread hsmall hm hrow
  · rw [hrows]
    exact ranked_boardRows hwhole hread hsmall hm

end Answer

/-! ## A platform with one account -/

def utc : Zone := ⟨id, id, fun _ _ h => h⟩

/-- The spend logs as Postgres reads them in UTC, without a period before. -/
def spendOf (now : Timestamp) (logs : List SpendLog) (umap : Map String String) : Spend where
  buckets p := (window utc now logs p).buckets
  current p model := currentRows utc now logs ⟨p, .total, model, .account⟩
  previous _ _ := []
  seen _ := []
  umap := umap

def onlyAlice : Tables where
  localUsers := some [("alice", none)]
  userSources := some []
  directoryGroups := some []
  prefs := []

/-- A time of January 2026. -/
def january (day hour : Nat) (h : 1 ≤ day ∧ day ≤ 31) (h' : hour < 24) : Timestamp :=
  ⟨⟨2026, 1, day, by omega, by omega, h.1, h.2⟩, hour * 3600000000, by unfold Civil.dayMicros; omega⟩

def request (t : Timestamp) (key : String) (prompt completion : Int) : SpendLog :=
  ⟨t, some key, some "m", some prompt, some completion, true⟩

/-- Alice's key is "k"; "r" has been revoked. -/
def rankAlice (now : Timestamp) (logs : List SpendLog) (p : Period) (m : Metric) : Answer ℚ :=
  rankingFull f64 ⟨some (spendOf now logs [("k", "alice")]), onlyAlice, ⟨5 / 2, 10, "USD"⟩, []⟩
    ⟨p, m, none, .account⟩ "alice"

def tenthNoon : Timestamp := january 10 12 (by omega) (by omega)

/-- Two requests of alice, one of nobody and one of the proxy. -/
def fourRequests : List SpendLog :=
  [request (january 10 9 (by omega) (by omega)) "k" 4 6, request (january 10 11 (by omega) (by omega)) "k" 2 3,
    request (january 10 10 (by omega) (by omega)) "r" 1 0,
    request (january 10 10 (by omega) (by omega)) "litellm_proxy_master_key" 100 100]

theorem addsUp_fourRequests :
    AddsUp f64 utc tenthNoon fourRequests [("k", "alice")] onlyAlice ⟨.day, .total, none, .account⟩
      (rankAlice tenthNoon fourRequests .day .total) := by
  have hread : Reads utc tenthNoon fourRequests (spendOf tenthNoon fourRequests [("k", "alice")])
      ⟨.day, .total, none, .account⟩ := ⟨rfl, .refl _⟩
  have hsmall : Small utc tenthNoon fourRequests ⟨.day, .total, none, .account⟩ [("k", "alice")] :=
    ⟨by decide +kernel, by decide +kernel⟩
  exact addsUp onlyAlice ⟨5 / 2, 10, "USD"⟩ [] "alice" whole_f64 hread hsmall rfl (by decide)

/-- A request of the rolling week before its first calendar day is in no bucket; an account
without completion tokens has no row by that metric; a total past 53 bits is rounded. -/
theorem not_addsUp_week_zero_rounded :
    ((rankAlice tenthNoon [request (january 3 15 (by omega) (by omega)) "k" 4 6] .week .total).rows.map
        fun row => (row.value, row.trend)) = [(.int 10, List.replicate 7 (.int 0))] ∧
      ((rankAlice tenthNoon [request (january 10 9 (by omega) (by omega)) "k" 4 0] .day .completion).rows = [] ∧
        (logsOf utc tenthNoon
          [request (january 10 9 (by omega) (by omega)) "k" 4 0] ⟨.day, .completion, none, .account⟩).map
            (fun log => ownerOf [("k", "alice")] log.apiKey) = [some "alice"]) ∧
      ((rankAlice tenthNoon
          [request (january 10 9 (by omega) (by omega)) "k" 0 (2 ^ 53),
            request (january 10 9 (by omega) (by omega)) "r" 0 1] .day .completion).rows.map Row.value =
          [.int (2 ^ 53), .int 1] ∧
        (rankAlice tenthNoon
          [request (january 10 9 (by omega) (by omega)) "k" 0 (2 ^ 53),
            request (january 10 9 (by omega) (by omega)) "r" 0 1] .day .completion).total =
          .float (2 ^ 53)) := by
  decide +kernel

end Portal.Ranking
