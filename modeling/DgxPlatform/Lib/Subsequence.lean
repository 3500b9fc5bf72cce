import Mathlib.Data.List.Infix
import Mathlib.Order.Bounds.Basic

/-! # Longest common subsequences

How long the longest common subsequence of two lists is, by the heads of the lists.

* `IsLongest.cons_same`, `IsLongest.cons_ne`: the two lists have the same head, or two heads.
* `IsLongest.append_left`, `IsLongest.append_right`: what both lists start or end with is in it.
-/

namespace Subsequence

variable {α : Type*} {a b : List α} {x y : α} {m n : Nat}

/-- The lengths of the common subsequences of two lists. -/
def lengths (a b : List α) : Set Nat := {n | ∃ s : List α, s.Sublist a ∧ s.Sublist b ∧ s.length = n}

abbrev IsLongest (a b : List α) (n : Nat) : Prop := IsGreatest (lengths a b) n

theorem IsLongest.symm (h : IsLongest a b n) : IsLongest b a n := by
  obtain ⟨⟨s, ha, hb, hlen⟩, hmax⟩ := h
  refine ⟨⟨s, hb, ha, hlen⟩, ?_⟩
  rintro k ⟨t, htb, hta, hk⟩
  exact hmax ⟨t, hta, htb, hk⟩

theorem isLongest_nil_left (b : List α) : IsLongest [] b 0 := by
  refine ⟨⟨[], List.nil_sublist _, List.nil_sublist b, rfl⟩, ?_⟩
  rintro k ⟨s, hs, -, hk⟩
  rw [← hk, List.sublist_nil.1 hs]
  exact le_rfl

theorem isLongest_nil_right (a : List α) : IsLongest a [] 0 := (isLongest_nil_left a).symm

theorem IsLongest.cons_same (h : IsLongest a b n) (x : α) : IsLongest (x :: a) (x :: b) (n + 1) := by
  obtain ⟨⟨s, ha, hb, hlen⟩, hmax⟩ := h
  refine ⟨⟨x :: s, ha.cons_cons x, hb.cons_cons x, congrArg (· + 1) hlen⟩, ?_⟩
  rintro k ⟨t, hta, htb, hk⟩
  -- without its head, it is a common subsequence of the tails
  have hle : t.tail.length ≤ n := hmax ⟨t.tail, hta.tail, htb.tail, rfl⟩
  rw [List.length_tail] at hle
  omega

theorem IsLongest.cons_ne (hx : IsLongest a (y :: b) m) (hy : IsLongest (x :: a) b n) (hne : x ≠ y) :
    IsLongest (x :: a) (y :: b) (max m n) := by
  constructor
  · rcases Nat.le_total m n with hle | hle
    · obtain ⟨s, hsa, hsb, hlen⟩ := hy.1
      rw [Nat.max_eq_right hle]
      exact ⟨s, hsa, hsb.cons y, hlen⟩
    · obtain ⟨s, hsa, hsb, hlen⟩ := hx.1
      rw [Nat.max_eq_left hle]
      exact ⟨s, hsa.cons x, hsb, hlen⟩
  · rintro k ⟨t, hta, htb, hk⟩
    rcases List.sublist_cons_iff.1 hta with hta' | ⟨t', rfl, -⟩
    · exact (hx.2 ⟨t, hta', htb, hk⟩).trans (Nat.le_max_left m n)
    · rcases List.sublist_cons_iff.1 htb with htb' | ⟨u, heq, -⟩
      · exact (hy.2 ⟨_, hta, htb', hk⟩).trans (Nat.le_max_right m n)
      · exact absurd (List.cons.inj heq).1 hne

theorem IsLongest.append_left (h : IsLongest a b n) (p : List α) :
    IsLongest (p ++ a) (p ++ b) (p.length + n) := by
  induction p with
  | nil => rwa [List.length_nil, Nat.zero_add]
  | cons x p ih =>
    rw [List.length_cons, Nat.add_right_comm]
    exact ih.cons_same x

theorem IsLongest.reverse (h : IsLongest a b n) : IsLongest a.reverse b.reverse n := by
  obtain ⟨⟨s, ha, hb, hlen⟩, hmax⟩ := h
  refine ⟨⟨s.reverse, ha.reverse, hb.reverse, s.length_reverse.trans hlen⟩, ?_⟩
  rintro k ⟨t, hta, htb, hk⟩
  refine hmax ⟨t.reverse, ?_, ?_, t.length_reverse.trans hk⟩
  · rw [← a.reverse_reverse]
    exact hta.reverse
  · rw [← b.reverse_reverse]
    exact htb.reverse

theorem IsLongest.append_right (h : IsLongest a b n) (s : List α) :
    IsLongest (a ++ s) (b ++ s) (n + s.length) := by
  have hreverse := (h.reverse.append_left s.reverse).reverse
  rwa [List.reverse_append, List.reverse_append, List.reverse_reverse, List.reverse_reverse, List.reverse_reverse,
    List.length_reverse, Nat.add_comm] at hreverse

end Subsequence
