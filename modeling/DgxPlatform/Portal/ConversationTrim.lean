import DgxPlatform.Lib.Budget
import DgxPlatform.Portal.Conversations

/-! # The budget of a conversation

`trim_to_budget` counts the text of the messages down by what each message takes with its
separator, then measures what is left. The count is exact, so the second loop finds nothing
to drop, and what is kept is the longest end of the conversation that fits.
-/

namespace Portal.Conversations

/-- What a message takes in the text of the whole: its own text and a separator. -/
def messageCost (m : Json) : Nat := (pyDumps m).length + 2

theorem trimExact_eq (messages : List Json) :
    trimExact messages = Budget.trim dumpedLength CONV_MAX_CHARS messages := by
  fun_induction trimExact messages with
  | case1 m m' rest hover ih => rw [ih, Budget.trim, if_pos hover]
  | case2 m m' rest hfits => rw [Budget.trim, if_neg hfits]
  | case3 messages hshort =>
    unfold Budget.trim
    split
    · exact absurd rfl (hshort _ _ _)
    · rfl

theorem trimCounted_eq (total : Nat) (messages : List Json) :
    trimCounted total messages = Budget.counted CONV_MAX_CHARS messageCost total messages := by
  fun_induction trimCounted total messages with
  | case1 total m m' rest hover ih => rw [ih, Budget.counted, if_pos hover, messageCost]
  | case2 total m m' rest hfits => rw [Budget.counted, if_neg hfits]
  | case3 total messages hshort =>
    unfold Budget.counted
    split
    · exact absurd rfl (hshort _ _ _)
    · rfl

theorem dumpedLength_cons_cons (m m' : Json) (rest : List Json) :
    dumpedLength (m :: m' :: rest) = messageCost m + dumpedLength (m' :: rest) := by
  simp only [dumpedLength, messageCost, pyDumps, write, writeItems, List.length_append]
  have hcomma : ", ".toList.length = 2 := by decide
  omega

theorem trimCounted_dumpedLength (messages : List Json) :
    trimCounted (dumpedLength messages) messages = Budget.trim dumpedLength CONV_MAX_CHARS messages := by
  rw [trimCounted_eq, Budget.counted_eq_trim dumpedLength_cons_cons]

theorem trimToBudget_eq (messages : List Json) :
    trimToBudget messages = Budget.trim dumpedLength CONV_MAX_CHARS messages := by
  rw [trimToBudget, trimCounted_dumpedLength, trimExact_eq, Budget.trim_trim]

/-- What is kept is the longest end of the messages that fits, or the last message alone;
the count of the first loop is exact after each message that goes, and the second loop
drops nothing more. -/
theorem trimToBudget_longest (messages : List Json) :
    trimToBudget messages <:+ messages ∧
      (dumpedLength (trimToBudget messages) ≤ CONV_MAX_CHARS ∨ (trimToBudget messages).length = 1) ∧
      (∀ s, s <:+ messages → dumpedLength s ≤ CONV_MAX_CHARS →
        s.length ≤ (trimToBudget messages).length) ∧
      (∀ m m' rest, dumpedLength (m :: m' :: rest) - ((pyDumps m).length + 2) =
        dumpedLength (m' :: rest)) ∧
      trimExact (trimCounted (dumpedLength messages) messages) =
        trimCounted (dumpedLength messages) messages := by
  have hspec := Budget.longest_trim dumpedLength CONV_MAX_CHARS messages
  rw [← trimToBudget_eq] at hspec
  refine ⟨hspec.suffix, ?_, hspec.longest, ?_, ?_⟩
  · rcases hspec.fits with hfits | hlen
    · exact .inl hfits
    · cases hout : trimToBudget messages with
      | nil => exact .inl (by decide)
      | cons m rest =>
          right
          rw [hout, List.length_cons] at hlen
          rw [List.length_cons]
          omega
  · intro m m' rest
    rw [dumpedLength_cons_cons, messageCost, Nat.add_sub_cancel_left]
  · rw [trimExact_eq, trimCounted_dumpedLength, Budget.trim_trim]

end Portal.Conversations
