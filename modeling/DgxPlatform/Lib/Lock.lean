import Mathlib.Logic.Function.Basic

/-! # A lock and the actors that hold it

A mutex is an `Option ι`: the actor that holds it. The program counter of each
actor says whether it is inside its critical section (`held`). `Names` says that
the two agree; every `Move` of an actor keeps them in agreement, so at most one
actor is ever inside.
-/

namespace Lock

universe u

variable {ι : Type u}

/-- The lock names exactly the actor that is inside its critical section. -/
def Names (held : ι → Bool) (lock : Option ι) : Prop := ∀ i, held i = true ↔ lock = some i

/-- A move of actor `x`, inside its section before (`b`) and after (`b'`): it
takes the free lock, releases its own, or leaves the lock alone. -/
def Move (x : ι) (b b' : Bool) (lock lock' : Option ι) : Prop :=
  (b = false ∧ lock = none ∧ b' = true ∧ lock' = some x) ∨
    (b = true ∧ b' = false ∧ lock' = none) ∨ (b' = b ∧ lock' = lock)

variable {held : ι → Bool} {lock lock' : Option ι} {x : ι} {b : Bool}

theorem Names.free (h : Names held lock) (hl : lock = none) (i : ι) : held i = false := by
  by_contra hi
  have hsome := (h i).1 (by simpa using hi)
  rw [hl] at hsome
  cases hsome

/-- Every move keeps the lock in agreement with the program counters. -/
theorem Names.move [DecidableEq ι] (h : Names held lock)
    (hm : Move x (held x) b lock lock') :
    Names (Function.update held x b) lock' := by
  intro i
  have hi := h i
  have hx := h x
  by_cases hix : i = x
  · subst hix
    rcases hm with ⟨-, -, hb, hl⟩ | ⟨-, hb, hl⟩ | ⟨hb, hl⟩ <;> simp_all
  · have hxi : x ≠ i := fun e => hix e.symm
    rcases hm with ⟨-, hn, -, hl⟩ | ⟨hb, -, hl⟩ | ⟨-, hl⟩ <;> simp_all

theorem Names.not_held (h : Names held lock) (hx : ¬ (lock = none ∨ lock = some x)) :
    held x = false := by
  by_contra hne
  exact hx (Or.inr ((h x).1 (by simpa using hne)))

variable {b' : Bool}

/-- After a move of `x` under a lock that was free or its own, the lock is again. -/
theorem Move.own (hm : Move x b b' lock lock') (h : lock = none ∨ lock = some x) :
    lock' = none ∨ lock' = some x := by
  rcases hm with ⟨-, -, -, hl⟩ | ⟨-, -, hl⟩ | ⟨-, hl⟩
  · exact Or.inr hl
  · exact Or.inl hl
  · rwa [hl]

/-- A move of `x` under a lock that another holds leaves the lock alone. -/
theorem Move.other (hm : Move x b b' lock lock') (hb : b = false)
    (h : ¬ (lock = none ∨ lock = some x)) : lock' = lock := by
  rcases hm with ⟨-, hl, -⟩ | ⟨hb', -⟩ | ⟨-, hl⟩
  · exact absurd (Or.inl hl) h
  · rw [hb] at hb'
    cases hb'
  · exact hl

end Lock
