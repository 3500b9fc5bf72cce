import DgxPlatform.Lib.Run
import Mathlib.Algebra.BigOperators.Group.List.Basic
import Mathlib.Tactic.Abel

/-! # Concurrent calls over a shared state

Any number of calls of one service, each with its own local state, interleaved
with each other and with the environment. A call moves by reading and writing
the shared state; between two of its moves everybody else may move.

* `Machine` says how a call begins, moves, and what the environment does;
  `Machine.step` is the interleaved machine, run by `Run.exec`.
* `Machine.step_move` and `Machine.step_env` are the inversions of a step.
* `total w cs` adds up a weight over the calls; `total_set` says what one move
  changes of it. Ledgers ("written but not yet recorded") and occupancy counts
  ("calls past their check") are both totals.
-/

namespace Calls

universe u v

/-- A service: `P` what a call is begun with, `C` its local state, `L` the labels
of its moves, `E` the environment's. -/
structure Machine (S P C L E : Type u) where
  first : P → C
  move : S → C → L → Option (S × C)
  env : S → E → Option S

/-- The shared state and the calls begun so far. -/
structure Conf (S C : Type u) where
  shared : S
  calls : List C

/-- A step: a new call, a move of call `i`, or the environment. -/
inductive Act (P L E : Type u) where
  | enter (p : P)
  | move (i : Nat) (l : L)
  | env (e : E)

variable {S P C L E : Type u} {m : Machine S P C L E}

/-- Nobody has called yet. -/
def Conf.init (s : S) : Conf S C := ⟨s, []⟩

def Machine.step (m : Machine S P C L E) (s : Conf S C) : Act P L E → Option (Conf S C)
  | .enter p => some { s with calls := s.calls ++ [m.first p] }
  | .move i l =>
      s.calls[i]?.bind fun c =>
        (m.move s.shared c l).map fun r => ⟨r.1, s.calls.set i r.2⟩
  | .env e => (m.env s.shared e).map fun sh => { s with shared := sh }

theorem Machine.step_move {s s' : Conf S C} {i : Nat} {l : L}
    (h : m.step s (.move i l) = some s') :
    ∃ c sh c', s.calls[i]? = some c ∧ m.move s.shared c l = some (sh, c') ∧
      s' = ⟨sh, s.calls.set i c'⟩ := by
  rcases Option.bind_eq_some_iff.1 h with ⟨c, hc, hm⟩
  rcases Option.map_eq_some_iff.1 hm with ⟨⟨sh, c'⟩, hr, rfl⟩
  exact ⟨c, sh, c', hc, hr, rfl⟩

theorem Machine.step_env {s s' : Conf S C} {e : E} (h : m.step s (.env e) = some s') :
    ∃ sh, m.env s.shared e = some sh ∧ s' = { s with shared := sh } := by
  rcases Option.map_eq_some_iff.1 h with ⟨sh, hsh, rfl⟩
  exact ⟨sh, hsh, rfl⟩

/-! ## What holds of every call -/

/-- After a move of call `i`, a call is the moved one or was there before. -/
theorem forall_set {Q : C → Prop} {cs : List C} {i : Nat} {c' : C} (hold : ∀ c ∈ cs, Q c)
    (hnew : Q c') : ∀ c ∈ cs.set i c', Q c := by
  intro c hc
  rcases List.mem_or_eq_of_mem_set hc with h | rfl
  · exact hold c h
  · exact hnew

theorem forall_append {Q : C → Prop} {cs : List C} {c' : C} (hold : ∀ c ∈ cs, Q c)
    (hnew : Q c') : ∀ c ∈ cs ++ [c'], Q c := by
  intro c hc
  rcases List.mem_append.1 hc with h | h
  · exact hold c h
  · rcases List.mem_singleton.1 h with rfl
    exact hnew

/-! ## Totals over the calls -/

section Total

variable {M : Type v} [AddCommMonoid M] (w : C → M)

/-- The weight of all calls together. -/
def total (cs : List C) : M := (cs.map w).sum

@[simp] theorem total_nil : total w [] = 0 := rfl

@[simp] theorem total_cons (c : C) (cs : List C) : total w (c :: cs) = w c + total w cs := by
  simp [total]

@[simp] theorem total_append_singleton (cs : List C) (c : C) :
    total w (cs ++ [c]) = total w cs + w c := by
  simp [total]

/-- A move exchanges the weight of the call before for the weight after. -/
theorem total_set {cs : List C} {i : Nat} {c : C} (h : cs[i]? = some c) (c' : C) :
    total w (cs.set i c') + w c = total w cs + w c' := by
  induction cs generalizing i with
  | nil => simp at h
  | cons d ds ih =>
    cases i with
    | zero =>
      obtain rfl : d = c := by simpa using h
      simp only [List.set_cons_zero, total_cons]
      abel
    | succ i =>
      -- the head is no party to the move
      have hds := ih (i := i) (by simpa using h)
      simp only [List.set_cons_succ, total_cons, add_assoc, hds]

theorem total_set_of_eq {cs : List C} {i : Nat} {c : C} (h : cs[i]? = some c) (c' : C)
    (hw : w c' = w c) : total w (cs.set i c') = total w cs := by
  induction cs generalizing i with
  | nil => simp at h
  | cons d ds ih =>
    cases i with
    | zero =>
      obtain rfl : d = c := by simpa using h
      simp [hw]
    | succ i =>
      have hds := ih (i := i) (by simpa using h)
      simp only [List.set_cons_succ, total_cons, hds]

theorem total_add (w' : C → M) (cs : List C) :
    total (fun c => w c + w' c) cs = total w cs + total w' cs := by
  induction cs with
  | nil => simp
  | cons d ds ih =>
    simp only [total_cons, ih]
    abel

theorem total_eq_zero {cs : List C} (h : ∀ c ∈ cs, w c = 0) : total w cs = 0 := by
  induction cs with
  | nil => rfl
  | cons d ds ih =>
    rw [total_cons, h d List.mem_cons_self, ih fun c hc => h c (List.mem_cons_of_mem _ hc),
      add_zero]

end Total

section NatTotal

variable {w w' : C → Nat} {cs : List C}

theorem total_le_total (h : ∀ c ∈ cs, w c ≤ w' c) : total w cs ≤ total w' cs := by
  induction cs with
  | nil => exact Nat.le_refl 0
  | cons d ds ih =>
    rw [total_cons, total_cons]
    exact Nat.add_le_add (h d List.mem_cons_self) (ih fun c hc => h c (List.mem_cons_of_mem _ hc))

/-- A weight that is smaller on one call has a strictly smaller total. -/
theorem total_lt_total {c : C} (h : ∀ c ∈ cs, w c ≤ w' c) (hc : c ∈ cs) (hlt : w c < w' c) :
    total w cs < total w' cs := by
  induction cs with
  | nil => cases hc
  | cons d ds ih =>
    have hd : w d ≤ w' d := h d List.mem_cons_self
    have hds : ∀ c ∈ ds, w c ≤ w' c := fun c hc => h c (List.mem_cons_of_mem _ hc)
    rw [total_cons, total_cons]
    -- the strict part is the head or one of the rest
    rcases List.mem_cons.1 hc with rfl | hc
    · exact Nat.add_lt_add_of_lt_of_le hlt (total_le_total hds)
    · exact Nat.add_lt_add_of_le_of_lt hd (ih hds hc)

end NatTotal

end Calls
