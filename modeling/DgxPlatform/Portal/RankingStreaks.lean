import Mathlib.Data.List.Sort
import Mathlib.Order.Bounds.Basic
import Mathlib.Tactic.Common

/-! # Streaks of active days

`streaks` goes once over the sorted days of an account, with a counter of the days in a row
up to the last one. A day is its number in the calendar, so that the difference of two dates
is the difference of their numbers.

* `step_inv`: after each day, `longest` is the longest run seen and `run` the one that ends
  with this day.
-/

namespace Portal.Ranking

/-! ## Days in a row -/

section Runs

variable {s : Set Int} {d : Int} {n : Nat}

/-- The `n` days up to `d` are all there. -/
def RunTo (s : Set Int) (d : Int) (n : Nat) : Prop := ∀ k : Nat, k < n → d - k ∈ s

theorem runTo_zero (s : Set Int) (d : Int) : RunTo s d 0 := fun _ hk => absurd hk (Nat.not_lt_zero _)

theorem runTo_succ_iff : RunTo s d (n + 1) ↔ d ∈ s ∧ RunTo s (d - 1) n := by
  have hback : ∀ k : Nat, d - 1 - (k : Int) = d - ((k + 1 : Nat) : Int) := by
    intro k
    push_cast
    omega
  have hzero : d - ((0 : Nat) : Int) = d := Int.sub_zero d
  constructor
  · intro h
    constructor
    · rw [← hzero]
      exact h 0 (Nat.succ_pos n)
    · intro k hk
      rw [hback]
      exact h (k + 1) (Nat.succ_lt_succ hk)
  · rintro ⟨hd, h⟩ k hk
    cases k with
    | zero => rwa [hzero]
    | succ k =>
      rw [← hback]
      exact h k (Nat.lt_of_succ_lt_succ hk)

theorem eq_zero_of_notMem (h : RunTo s d n) (hd : d ∉ s) : n = 0 := by
  cases n with
  | zero => rfl
  | succ n => exact absurd (runTo_succ_iff.1 h).1 hd

theorem runTo_insert_iff {e : Int} (hlt : e < d) : RunTo (insert d s) e n ↔ RunTo s e n := by
  apply forall_congr'
  intro k
  have hne : e - (k : Int) ≠ d := by omega
  rw [Set.mem_insert_iff, or_iff_right hne]

end Runs

/-! ## The loop -/

structure Counts where
  longest : Nat
  run : Nat
  prev : Option Int

/-- The body of the loop. -/
def Counts.step (c : Counts) (d : Int) : Counts :=
  let run := if c.prev.any fun p => d - p = 1 then c.run + 1 else 1
  { longest := max c.longest run, run := run, prev := some d }

def streaks (days : List Int) (today : Int) : Nat × Nat :=
  let sorted := days.insertionSort (· ≤ ·)
  let c := sorted.foldl Counts.step { longest := 0, run := 0, prev := none }
  let current :=
    match c.prev with
    | some p => if today - p ≤ 1 then c.run else 0
    | none => 0
  (c.longest, current)

/-- What the counters say of the days seen so far. -/
structure Inv (s : Set Int) (c : Counts) : Prop where
  longest : IsGreatest {n | ∃ d, RunTo s d n} c.longest
  run : ∀ p, c.prev = some p → IsGreatest {n | RunTo s p n} c.run
  prev : ∀ p, c.prev = some p → IsGreatest s p
  none : c.prev = none → s = ∅

theorem inv_empty : Inv ∅ { longest := 0, run := 0, prev := none } where
  longest := by
    refine ⟨⟨0, runTo_zero ∅ 0⟩, ?_⟩
    rintro n ⟨d, h⟩
    exact Nat.le_of_eq (eq_zero_of_notMem h (Set.notMem_empty d))
  run := fun _ h => absurd h (Option.some_ne_none _).symm
  prev := fun _ h => absurd h (Option.some_ne_none _).symm
  none := fun _ => rfl

/-- The run that ends with a new last day: one longer than the one before if that ended the day
before, else this day alone. -/
theorem run_step {s : Set Int} {c : Counts} {d : Int} (hinv : Inv s c) (hlater : ∀ e ∈ s, e < d) :
    IsGreatest {n | RunTo (insert d s) d n} (c.step d).run := by
  have hpred : ∀ n, RunTo (insert d s) d (n + 1) ↔ RunTo s (d - 1) n := by
    intro n
    rw [runTo_succ_iff, and_iff_right (Set.mem_insert d s), runTo_insert_iff (by omega)]
  by_cases hnext : d - 1 ∈ s
  · -- the latest day so far is the day before
    have hprev : c.prev = some (d - 1) := by
      cases hp : c.prev with
      | none =>
        rw [hinv.none hp] at hnext
        exact absurd hnext (Set.notMem_empty _)
      | some p =>
        have hmax := hinv.prev p hp
        have hle := hmax.2 hnext
        have hlt := hlater p hmax.1
        congr 1
        omega
    have hrun : (c.step d).run = c.run + 1 := by
      have hone : d - (d - 1) = 1 := by omega
      simp [Counts.step, hprev, hone]
    rw [hrun]
    have hold := hinv.run _ hprev
    refine ⟨(hpred _).2 hold.1, ?_⟩
    intro n hn
    cases n with
    | zero => exact Nat.zero_le _
    | succ n => exact Nat.succ_le_succ (hold.2 ((hpred n).1 hn))
  · have hrun : (c.step d).run = 1 := by
      have hno : (c.prev.any fun p => d - p = 1) = false := by
        cases hp : c.prev with
        | none => rfl
        | some p =>
          have hmem := (hinv.prev p hp).1
          have hne : d - p ≠ 1 := by
            intro h
            have heq : p = d - 1 := by omega
            exact hnext (heq ▸ hmem)
          exact decide_eq_false hne
      simp [Counts.step, hno]
    rw [hrun]
    refine ⟨(hpred 0).2 (runTo_zero s _), ?_⟩
    intro n hn
    cases n with
    | zero => exact Nat.zero_le _
    | succ n => exact Nat.succ_le_succ (Nat.le_of_eq (eq_zero_of_notMem ((hpred n).1 hn) hnext))

theorem step_inv {s : Set Int} {c : Counts} {d : Int} (hinv : Inv s c) (hlater : ∀ e ∈ s, e < d) :
    Inv (insert d s) (c.step d) where
  longest := by
    have hrun := run_step hinv hlater
    constructor
    · -- the longer one of the two is a run
      rcases Nat.le_total c.longest (c.step d).run with hle | hle
      · have heq : (c.step d).longest = (c.step d).run := Nat.max_eq_right hle
        rw [heq]
        exact ⟨d, hrun.1⟩
      · have heq : (c.step d).longest = c.longest := Nat.max_eq_left hle
        rw [heq]
        rcases hinv.longest.1 with ⟨e, he⟩
        exact ⟨e, fun k hk => Set.mem_insert_of_mem d (he k hk)⟩
    · -- a run ends with this day or with an earlier one
      rintro n ⟨e, he⟩
      cases n with
      | zero => exact Nat.zero_le _
      | succ n =>
        have hmem := (runTo_succ_iff.1 he).1
        rcases Set.mem_insert_iff.1 hmem with rfl | hold
        · exact Nat.le_trans (hrun.2 he) (Nat.le_max_right _ _)
        · have hseen := (runTo_insert_iff (hlater e hold)).1 he
          exact Nat.le_trans (hinv.longest.2 ⟨e, hseen⟩) (Nat.le_max_left _ _)
  run := by
    intro p hp
    cases hp
    exact run_step hinv hlater
  prev := by
    intro p hp
    cases hp
    refine ⟨Set.mem_insert d s, ?_⟩
    intro e he
    rcases Set.mem_insert_iff.1 he with rfl | hold
    · exact Int.le_refl e
    · exact Int.le_of_lt (hlater e hold)
  none := fun h => absurd h (Option.some_ne_none _)

theorem foldl_inv {s : Set Int} {c : Counts} {l : List Int} (hinv : Inv s c) (hsorted : l.Pairwise (· < ·))
    (hlater : ∀ e ∈ s, ∀ d ∈ l, e < d) : Inv (s ∪ {d | d ∈ l}) (l.foldl Counts.step c) := by
  induction l generalizing s c with
  | nil => simpa using hinv
  | cons d l ih =>
    rw [List.pairwise_cons] at hsorted
    have hstep := step_inv hinv fun e he => hlater e he d List.mem_cons_self
    have hrest : ∀ e ∈ insert d s, ∀ d' ∈ l, e < d' := by
      intro e he d' hd'
      rcases Set.mem_insert_iff.1 he with rfl | hold
      · exact hsorted.1 d' hd'
      · exact hlater e hold d' (List.mem_cons_of_mem d hd')
    have hset : s ∪ {d' | d' ∈ d :: l} = insert d s ∪ {d' | d' ∈ l} := by
      ext e
      simp only [Set.mem_union, Set.mem_ofPred_eq, List.mem_cons, Set.mem_insert_iff]
      tauto
    rw [List.foldl_cons, hset]
    exact ih hstep hsorted.2 hrest

/-! ## The two figures -/

/-- The first figure is the length of the longest run; the second one is the length of the run
that ends with the latest day if this is today or yesterday, else zero. -/
theorem streaks_spec {days : List Int} {today : Int} (hnodup : days.Nodup) (htoday : ∀ d ∈ days, d ≤ today) :
    IsGreatest {n | ∃ d, RunTo {d | d ∈ days} d n} (streaks days today).1 ∧
      (days = [] → (streaks days today).2 = 0) ∧
      ∀ last, IsGreatest {d | d ∈ days} last →
        if last = today ∨ last = today - 1 then
          IsGreatest {n | RunTo {d | d ∈ days} last n} (streaks days today).2
        else (streaks days today).2 = 0 := by
  have hperm := List.perm_insertionSort (· ≤ ·) days
  have hsorted : (days.insertionSort (· ≤ ·)).Pairwise (· < ·) := by
    have hle : (days.insertionSort (· ≤ ·)).Pairwise (· ≤ ·) := List.pairwise_insertionSort _ _
    have hne : (days.insertionSort (· ≤ ·)).Nodup := hperm.nodup_iff.2 hnodup
    exact (hle.and hne).imp fun h => lt_of_le_of_ne h.1 h.2
  have hinv := foldl_inv inv_empty hsorted fun e he => absurd he (Set.notMem_empty e)
  have hset : (∅ : Set Int) ∪ {d | d ∈ days.insertionSort (· ≤ ·)} = {d | d ∈ days} := by
    ext d
    simp [hperm.mem_iff]
  rw [hset] at hinv
  refine ⟨hinv.longest, ?_, ?_⟩
  · rintro rfl
    rfl
  · intro last hlast
    unfold streaks
    dsimp only
    cases hp : ((days.insertionSort (· ≤ ·)).foldl Counts.step { longest := 0, run := 0, prev := none }).prev with
    | none =>
        have hmem := hlast.1
        rw [hinv.none hp] at hmem
        exact absurd hmem (Set.notMem_empty _)
    | some p =>
        have heq : p = last := (hinv.prev p hp).unique hlast
        subst heq
        have hle := htoday p hlast.1
        dsimp only
        split_ifs with hnear hdiff hdiff
        · exact hinv.run p hp
        · omega
        · omega
        · rfl

/-- Three days in a row, two of them up to yesterday. -/
theorem streaks_yesterday :
    IsGreatest {n | ∃ d, RunTo {d | d ∈ [5, 1, 3, 2, 6]} d n} (streaks [5, 1, 3, 2, 6] 7).1 ∧
      ([5, 1, 3, 2, 6] = ([] : List Int) → (streaks [5, 1, 3, 2, 6] 7).2 = 0) ∧
      ∀ last, IsGreatest {d | d ∈ [5, 1, 3, 2, 6]} last →
        if last = (7 : Int) ∨ last = 7 - 1 then
          IsGreatest {n | RunTo {d | d ∈ [5, 1, 3, 2, 6]} last n} (streaks [5, 1, 3, 2, 6] 7).2
        else (streaks [5, 1, 3, 2, 6] 7).2 = 0 :=
  streaks_spec (by decide) (by decide)

example : streaks [5, 1, 3, 2, 6] 7 = (3, 2) ∧ streaks [5, 1, 3, 2, 6] 8 = (3, 0) := by decide

end Portal.Ranking
