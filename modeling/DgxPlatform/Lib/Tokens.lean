import Mathlib.Data.List.Infix

/-! # The tokens of a sequence

A pattern that may look at the element before it is tried at every position from the left, as
a global regular expression with a lookbehind is: the sequence falls into matches and the
single elements between them. Put back, the tokens are the sequence (`flatMap_tokens`).
-/

namespace Tokens

variable {α β : Type*} {m : Option α → List α → Option β} {whole : β → List α}

/-- At most `n` tokens, behind the element `prev`. -/
def tokensUpTo (m : Option α → List α → Option β) (whole : β → List α) :
    Nat → Option α → List α → List (α ⊕ β)
  | 0, _, _ => []
  | _ + 1, _, [] => []
  | n + 1, prev, x :: t =>
      match m prev (x :: t) with
      | some b => .inr b :: tokensUpTo m whole n (whole b).getLast? ((x :: t).drop (whole b).length)
      | none => .inl x :: tokensUpTo m whole n (some x) t

def tokens (m : Option α → List α → Option β) (whole : β → List α) (prev : Option α) (t : List α) :
    List (α ⊕ β) := tokensUpTo m whole t.length prev t

/-- What a token stands for. -/
def text (whole : β → List α) : α ⊕ β → List α := Sum.elim (fun x => [x]) whole

/-- A match is a part of the sequence, and not empty. -/
def Consumes (m : Option α → List α → Option β) (whole : β → List α) : Prop :=
  ∀ prev t b, m prev t = some b → whole b <+: t ∧ whole b ≠ []

@[simp] theorem tokens_nil (prev : Option α) : tokens m whole prev [] = [] := rfl

theorem tokensUpTo_of_le (h : Consumes m whole) {n : Nat} {t : List α} (hn : t.length ≤ n)
    (prev : Option α) : tokensUpTo m whole n prev t = tokens m whole prev t := by
  unfold tokens
  induction hk : t.length using Nat.strong_induction_on generalizing n prev t with
  | _ k ih =>
    cases t with
    | nil => cases n <;> subst hk <;> rfl
    | cons x t =>
      subst hk
      obtain ⟨n, rfl⟩ : ∃ l, n = l + 1 := ⟨n - 1, by simp only [List.length_cons] at hn; omega⟩
      simp only [List.length_cons, tokensUpTo] at hn ih ⊢
      cases hm : m prev (x :: t) with
      | none => exact congrArg _ (ih _ (by omega) (by omega) _ rfl)
      | some b =>
        have hpos := List.length_pos_iff.2 (h _ _ _ hm).2
        have hlen : ((x :: t).drop (whole b).length).length ≤ t.length := by
          rw [List.length_drop, List.length_cons]
          omega
        dsimp only
        rw [ih _ (by omega) (n := n) (by omega) _ rfl, ih _ (by omega) (n := t.length) hlen _ rfl]

theorem tokens_of_none (h : Consumes m whole) {prev : Option α} {x : α} {t : List α}
    (hm : m prev (x :: t) = none) : tokens m whole prev (x :: t) = .inl x :: tokens m whole (some x) t := by
  rw [tokens, List.length_cons, tokensUpTo, hm, tokensUpTo_of_le h (Nat.le_refl _)]

theorem tokens_of_some (h : Consumes m whole) {prev : Option α} {b : β} {t : List α}
    (hm : m prev (whole b ++ t) = some b) :
    tokens m whole prev (whole b ++ t) = .inr b :: tokens m whole (whole b).getLast? t := by
  cases hw : whole b with
  | nil => exact absurd hw (h _ _ _ hm).2
  | cons x w =>
    rw [hw, List.cons_append] at hm
    rw [List.cons_append, tokens, List.length_cons, tokensUpTo, hm]
    dsimp only
    rw [tokensUpTo_of_le h (by rw [hw, List.length_drop]; simp), hw, ← List.cons_append, List.drop_left]

/-- The tokens put back. -/
theorem flatMap_tokens (h : Consumes m whole) (prev : Option α) (t : List α) :
    (tokens m whole prev t).flatMap (text whole) = t := by
  induction hk : t.length using Nat.strong_induction_on generalizing prev t with
  | _ k ih =>
    subst hk
    cases t with
    | nil => rfl
    | cons x t =>
      cases hm : m prev (x :: t) with
      | none =>
        rw [tokens_of_none h hm, List.flatMap_cons, ih _ (Nat.lt_succ_self _) _ _ rfl]
        rfl
      | some b =>
        obtain ⟨⟨r, hr⟩, hne⟩ := h _ _ _ hm
        have hpos := List.length_pos_iff.2 hne
        have hlen := congrArg List.length hr
        rw [List.length_append] at hlen
        rw [← hr] at hm
        rw [← hr, tokens_of_some h hm, List.flatMap_cons, ih _ (by omega) _ _ rfl]
        rfl

end Tokens
