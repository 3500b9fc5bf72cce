import Mathlib.Data.List.Infix

/-! # Collecting what is new

A list that is filled one by one: an element is added if none with its key is there yet and the
list is not full. What was offered once need not be offered again.
-/

namespace Collect

variable {α κ : Type*} (key : α → κ) (n : Nat)

/-- The list with an element, if it is new and there is room. -/
def add [DecidableEq κ] (kept : List α) (x : α) : List α :=
  if (kept.any fun y => decide (key y = key x)) ∨ n ≤ kept.length then kept else kept ++ [x]

/-- There is nothing to add. -/
def Done (kept : List α) (x : α) : Prop := (∃ y ∈ kept, key y = key x) ∨ n ≤ kept.length

variable {key n} {kept kept' l l' : List α} {x : α}

theorem Done.mono (h : Done key n kept x) (hle : kept <+: kept') : Done key n kept' x := by
  rcases h with ⟨y, hy, hkey⟩ | hfull
  · exact .inl ⟨y, hle.subset hy, hkey⟩
  · exact .inr (hfull.trans hle.length_le)

variable [DecidableEq κ]

theorem add_of_done (h : Done key n kept x) : add key n kept x = kept := by
  refine if_pos (h.imp_left ?_)
  rintro ⟨y, hy, hkey⟩
  exact List.any_eq_true.2 ⟨y, hy, decide_eq_true hkey⟩

theorem add_of_not_done (h : ¬ Done key n kept x) : add key n kept x = kept ++ [x] := by
  refine if_neg fun hcond => h (hcond.imp_left fun hany => ?_)
  obtain ⟨y, hy, hkey⟩ := List.any_eq_true.1 hany
  exact ⟨y, hy, of_decide_eq_true hkey⟩

theorem prefix_add (kept : List α) (x : α) : kept <+: add key n kept x := by
  by_cases h : Done key n kept x
  · rw [add_of_done h]
  · rw [add_of_not_done h]
    exact List.prefix_append kept [x]

theorem done_add (kept : List α) (x : α) : Done key n (add key n kept x) x := by
  by_cases h : Done key n kept x
  · rwa [add_of_done h]
  · rw [add_of_not_done h]
    exact .inl ⟨x, List.mem_append_right _ (List.mem_singleton_self x), rfl⟩

theorem prefix_foldl (kept l : List α) : kept <+: l.foldl (add key n) kept := by
  induction l generalizing kept with
  | nil => exact List.prefix_rfl
  | cons x l ih => exact (prefix_add kept x).trans (ih _)

theorem done_foldl (hx : x ∈ l) (kept : List α) : Done key n (l.foldl (add key n) kept) x := by
  induction l generalizing kept with
  | nil => cases hx
  | cons y l ih =>
    rcases List.mem_cons.1 hx with rfl | hx
    · exact (done_add kept x).mono (prefix_foldl _ l)
    · exact ih hx _

theorem foldl_of_done (h : ∀ x ∈ l, Done key n kept x) : l.foldl (add key n) kept = kept := by
  induction l with
  | nil => rfl
  | cons x l ih =>
    rw [List.forall_mem_cons] at h
    rw [List.foldl_cons, add_of_done h.1]
    exact ih h.2

theorem foldl_append_of_subset (h : l' ⊆ l) (kept : List α) :
    (l ++ l').foldl (add key n) kept = l.foldl (add key n) kept := by
  rw [List.foldl_append]
  exact foldl_of_done fun x hx => done_foldl (h hx) kept

/-- Elements with keys of their own are all kept, if there is room. -/
theorem foldl_distinct (hkeys : l.Pairwise fun x y => key x ≠ key y) (hroom : l.length ≤ n) :
    l.foldl (add key n) [] = l := by
  induction l using List.reverseRecOn with
  | nil => rfl
  | append_singleton l x ih =>
    obtain ⟨hl, -, hnew⟩ := List.pairwise_append.1 hkeys
    rw [List.length_append, List.length_singleton] at hroom
    rw [List.foldl_append, ih hl (by omega)]
    refine add_of_not_done ?_
    rintro (⟨y, hy, hkey⟩ | hfull)
    · exact hnew y hy x (List.mem_singleton_self x) hkey
    · omega

theorem add_eq (kept : List α) (x : α) : ∃ rest, rest <+: [x] ∧ add key n kept x = kept ++ rest := by
  by_cases h : Done key n kept x
  · exact ⟨[], List.nil_prefix, by rw [add_of_done h, List.append_nil]⟩
  · exact ⟨[x], List.prefix_rfl, add_of_not_done h⟩

end Collect
