import Mathlib.Logic.Basic

/-! # What the portal's handlers share

The answer of a refused request, the early return of a handler, and the clock.
An instant is a number of microseconds since the epoch.
-/

namespace Portal

abbrev Time := Nat

/-- What a refused request is answered: the message and the HTTP status. A
redirection has its target as the message, an HTML status page has none. -/
structure Refusal where
  message : String
  code : Nat
deriving DecidableEq, Repr

/-- `if c { return r; }` of a handler. -/
def refuseIf (c : Prop) [Decidable c] (r : Refusal) : Except Refusal Unit :=
  if c then .error r else .ok ()

@[simp] theorem refuseIf_eq_ok {c : Prop} [Decidable c] {r : Refusal} {u : Unit} :
    refuseIf c r = .ok u ↔ ¬ c := by
  unfold refuseIf
  by_cases hc : c <;> simp [hc]

theorem bind_eq_ok {α β : Type} {x : Except Refusal α} {f : α → Except Refusal β} {b : β} :
    (x >>= f) = .ok b ↔ ∃ a, x = .ok a ∧ f a = .ok b := by
  rcases x with r | a
  · constructor
    · intro h
      cases h
    · rintro ⟨a, h, -⟩
      cases h
  · show f a = .ok b ↔ _
    simp

end Portal
