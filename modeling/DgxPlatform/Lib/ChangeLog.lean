import Mathlib.Data.List.Chain
import Mathlib.Data.List.Basic

/-! # A log of the changes of a value

A value that is absent at first is looked at from time to time. A log notes each time with
what is seen then, unless it is what was noted last.

* `noteChange`: what is noted.
* `Records`: a log from which the value at every time can be read back.
* `Records.note`, `Records.absent`: looking once more keeps it.
-/

namespace ChangeLog

variable {E V : Type*} (time : E → Nat) (value : E → V)

/-- What was seen, noted unless it was noted last. -/
def noteChange [DecidableEq V] (log : List E) (e : E) : List E :=
  if log.getLast?.map value = some (value e) then log else log ++ [e]

/-- What the log says of a time. -/
def valueAt (log : List E) (k : Nat) : Option V :=
  ((log.filter fun e => time e ≤ k).getLast?).map value

/-- A log of the times before `n`: it says of each what the value was then. -/
structure Records (state : Nat → Option V) (n : Nat) (log : List E) : Prop where
  valueAt : ∀ k < n, valueAt time value log k = state k
  changes : log.IsChain fun e e' => value e ≠ value e' ∧ time e < time e'
  before : ∀ e ∈ log, time e < n

variable {time value} {state : Nat → Option V} {n : Nat} {log : List E}

theorem Records.nil (state : Nat → Option V) : Records time value state 0 [] where
  valueAt := fun k h => absurd h (Nat.not_lt_zero k)
  changes := List.isChain_nil
  before := fun _ h => absurd h List.not_mem_nil

theorem valueAt_of_before {k : Nat} (h : ∀ e ∈ log, time e < n) (hk : n ≤ k + 1) :
    valueAt time value log k = log.getLast?.map value := by
  rw [valueAt, List.filter_eq_self.2]
  intro e he
  have hlt := h e he
  exact decide_eq_true (by omega)

theorem valueAt_append {k : Nat} {e : E} (h : k < time e) :
    valueAt time value (log ++ [e]) k = valueAt time value log k := by
  rw [valueAt, List.filter_append, List.filter_cons_of_neg (by simpa using h), List.filter_nil, List.append_nil]
  rfl

theorem Records.note [DecidableEq V] (h : Records time value state n log) {e : E} (htime : time e = n)
    (hvalue : state n = some (value e)) : Records time value state (n + 1) (noteChange value log e) := by
  have hnow : ChangeLog.valueAt time value log n = log.getLast?.map value := valueAt_of_before h.before (Nat.le_succ n)
  unfold noteChange
  split_ifs with hsame
  · constructor
    · intro k hk
      rcases Nat.lt_succ_iff_lt_or_eq.1 hk with hlt | rfl
      · exact h.valueAt k hlt
      · rw [hnow, hsame, hvalue]
    · exact h.changes
    · intro e' he'
      exact (h.before e' he').trans (Nat.lt_succ_self n)
  · constructor
    · intro k hk
      rcases Nat.lt_succ_iff_lt_or_eq.1 hk with hlt | rfl
      · rw [valueAt_append (by omega), h.valueAt k hlt]
      · rw [valueAt_of_before (n := k + 1) ?_ (Nat.le_refl _), List.getLast?_concat, hvalue]
        · rfl
        · intro e' he'
          rcases List.mem_append.1 he' with hmem | hmem
          · exact (h.before e' hmem).trans (Nat.lt_succ_self k)
          · rw [List.mem_singleton.1 hmem, htime]
            exact Nat.lt_succ_self k
    · refine List.isChain_append.2 ⟨h.changes, List.isChain_singleton e, ?_⟩
      intro x hx y hy
      cases hy
      constructor
      · intro heq
        refine hsame ?_
        rw [Option.mem_def.1 hx, Option.map_some, heq]
      · rw [htime]
        exact h.before x (List.mem_of_getLast? hx)
    · intro e' he'
      rcases List.mem_append.1 he' with hmem | hmem
      · exact (h.before e' hmem).trans (Nat.lt_succ_self n)
      · rw [List.mem_singleton.1 hmem, htime]
        exact Nat.lt_succ_self n

theorem Records.absent (h : Records time value state n log) (habsent : ∀ k ≤ n, state k = none) :
    Records time value state (n + 1) log := by
  constructor
  · intro k hk
    rcases Nat.lt_succ_iff_lt_or_eq.1 hk with hlt | rfl
    · exact h.valueAt k hlt
    · rw [valueAt_of_before h.before (Nat.le_succ k), habsent k (Nat.le_refl k)]
      -- what was noted last was there at the time before
      cases k with
      | zero =>
        cases log with
        | nil => rfl
        | cons e log => exact absurd (h.before e List.mem_cons_self) (Nat.not_lt_zero _)
      | succ k =>
        rw [← valueAt_of_before h.before (Nat.le_refl _), h.valueAt k (Nat.lt_succ_self k)]
        exact habsent k (Nat.le_succ k)
  · exact h.changes
  · intro e he
    exact (h.before e he).trans (Nat.lt_succ_self n)

end ChangeLog
