import Mathlib.Algebra.BigOperators.Group.List.Basic
import Mathlib.Algebra.GroupWithZero.Nat
import Mathlib.Data.List.Infix

/-! # A text cut between two lines

Lines are what stands between separators, so a text always has one line more than separators.

* `splitOn_append`: behind a line start, the lines are those of the text from there on.
* `exists_front`: the lines from some line on are those of a part of the text.
* `dropLast_splitOn_prefix`: what is put behind a text changes its last line at most.
-/

namespace Lines

variable {α : Type*} [DecidableEq α] {sep : α} {front t : List α} {pre post : List (List α)}

/-- What stands in front of the start of a line. -/
def LineStart (sep : α) (front : List α) : Prop := front = [] ∨ ∃ t, front = t ++ [sep]

/-- The lines that end in front of a line start. -/
def complete (sep : α) (t : List α) : List (List α) := (t.splitOn sep).dropLast

theorem complete_append_sep (sep : α) (t : List α) : complete sep (t ++ [sep]) = t.splitOn sep := by
  unfold complete
  rw [List.splitOn_append_cons_self, List.splitOn_nil, List.dropLast_concat]

theorem splitOn_append (h : LineStart sep front) (t : List α) :
    (front ++ t).splitOn sep = complete sep front ++ t.splitOn sep := by
  rcases h with rfl | ⟨s, rfl⟩
  · rfl
  · rw [complete_append_sep, List.append_assoc, List.singleton_append, List.splitOn_append_cons_self]

theorem exists_front (h : t.splitOn sep = pre ++ post) (hpost : post ≠ []) :
    ∃ front rest, t = front ++ rest ∧ rest.splitOn sep = post ∧ front.length = (pre.map (·.length + 1)).sum ∧
      LineStart sep front := by
  induction pre generalizing t with
  | nil => exact ⟨[], t, rfl, h, rfl, .inl rfl⟩
  | cons line pre ih =>
    have hsep : sep ∈ t := by
      by_contra hno
      rw [List.splitOn_eq_singleton hno, List.cons_append] at h
      exact hpost (List.append_eq_nil_iff.1 (List.cons.inj h).2.symm).2
    obtain ⟨first, behind, rfl, hfirst⟩ := List.eq_append_cons_of_mem hsep
    rw [List.splitOn_append_cons_self_of_not_mem hfirst, List.cons_append] at h
    obtain ⟨rfl, hbehind⟩ := List.cons.inj h
    obtain ⟨front, rest, rfl, hrest, hlen, hstart⟩ := ih hbehind
    refine ⟨first ++ [sep] ++ front, rest, ?_, hrest, ?_, ?_⟩
    · simp only [List.append_assoc, List.cons_append, List.nil_append]
    · simp only [List.length_append, List.length_singleton, hlen, List.map_cons, List.sum_cons]
    · rcases hstart with rfl | ⟨s, rfl⟩
      · exact .inr ⟨first, List.append_nil _⟩
      · exact .inr ⟨first ++ [sep] ++ s, (List.append_assoc _ _ _).symm⟩

theorem dropLast_splitOn_prefix (t u : List α) : complete sep t <+: (t ++ u).splitOn sep := by
  have hne : t.splitOn sep ≠ [] := List.splitOn_ne_nil sep t
  obtain ⟨front, rest, rfl, hrest, -, hstart⟩ :=
    exists_front (List.dropLast_append_getLast hne).symm (List.cons_ne_nil _ _)
  have hlines := splitOn_append hstart rest
  have hcomplete : complete sep (front ++ rest) = complete sep front := by
    rw [complete, hlines, hrest, List.dropLast_concat]
  rw [hcomplete, List.append_assoc, splitOn_append hstart]
  exact List.prefix_append _ _

end Lines
