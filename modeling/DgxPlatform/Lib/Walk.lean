import Mathlib.Data.List.Infix
import Mathlib.Algebra.Order.Ring.Int

/-! # Walking down and up a tree

A walker stands at a place: the steps down that are not taken back, the last one first.
A move up takes the last step back and is refused where there is none.

* `run_append`: a walk goes on from where its first part ends.
* `length_run`: the depth of the place is the level of the walk.
* `getLast?_run_iff`: the first step of the place where a walk ends is the step down from
  the root that no later move takes back.
-/

namespace Walk

inductive Move (α : Type*) where
  | stay
  | down (a : α)
  | up

variable {α : Type*} {s t : List α} {ms : List (Move α)} {a : α}

/-- One move, `none` for a move up from the root. -/
def move (s : List α) : Move α → Option (List α)
  | .stay => some s
  | .down a => some (a :: s)
  | .up =>
      match s with
      | [] => none
      | _ :: t => some t

/-- The place where a walk from `s` ends. -/
def run (s : List α) (ms : List (Move α)) : Option (List α) := ms.foldlM move s

/-- How much deeper a move leads. -/
def Move.rise : Move α → Int
  | .stay => 0
  | .down _ => 1
  | .up => -1

/-- How much deeper a walk leads. -/
def level (ms : List (Move α)) : Int := (ms.map Move.rise).sum

@[simp] theorem level_nil : level ([] : List (Move α)) = 0 := rfl

@[simp] theorem level_cons (m : Move α) (ms : List (Move α)) : level (m :: ms) = m.rise + level ms :=
  List.sum_cons

@[simp] theorem level_append (ms ms' : List (Move α)) : level (ms ++ ms') = level ms + level ms' := by
  rw [level, List.map_append, List.sum_append]
  rfl

@[simp] theorem run_nil (s : List α) : run s [] = some s := rfl

theorem run_cons (s : List α) (m : Move α) (ms : List (Move α)) :
    run s (m :: ms) = (move s m).bind fun t => run t ms := List.foldlM_cons

theorem run_append (s : List α) (ms ms' : List (Move α)) :
    run s (ms ++ ms') = (run s ms).bind fun t => run t ms' := List.foldlM_append

theorem run_concat (s : List α) (ms : List (Move α)) (m : Move α) :
    run s (ms ++ [m]) = (run s ms).bind fun t => move t m := by
  rw [run_append]
  congr 1
  funext t
  rw [run_cons]
  exact Option.bind_fun_some _

theorem move_cases {m : Move α} (h : move s m = some t) :
    (m = .stay ∧ t = s) ∨ (∃ a, m = .down a ∧ t = a :: s) ∨ ∃ a, m = .up ∧ s = a :: t := by
  cases m with
  | stay => exact .inl ⟨rfl, (Option.some.inj h).symm⟩
  | down a => exact .inr (.inl ⟨a, rfl, (Option.some.inj h).symm⟩)
  | up =>
    cases s with
    | nil => cases h
    | cons a s => exact .inr (.inr ⟨a, rfl, by rw [Option.some.inj h]⟩)

theorem length_move {m : Move α} (h : move s m = some t) : (t.length : Int) = s.length + m.rise := by
  obtain ⟨rfl, rfl⟩ | ⟨a, rfl, rfl⟩ | ⟨a, rfl, rfl⟩ := move_cases h
  all_goals
    simp only [Move.rise, List.length_cons]
    omega

theorem length_run (h : run s ms = some t) : (t.length : Int) = s.length + level ms := by
  induction ms generalizing s with
  | nil =>
    obtain rfl : s = t := Option.some.inj h
    simp
  | cons m ms ih =>
    rw [run_cons] at h
    obtain ⟨u, hmove, hrun⟩ := Option.bind_eq_some_iff.1 h
    have hlen := length_move hmove
    have hrest := ih hrun
    rw [level_cons]
    omega

/-- A walk that never comes back above `a` leaves it where it was. -/
theorem run_above (hlevel : ∀ q, q <+: ms → 0 ≤ s.length + level q)
    (h : run (s ++ [a]) ms = some t) : t.getLast? = some a := by
  induction ms generalizing s with
  | nil =>
    obtain rfl : s ++ [a] = t := Option.some.inj h
    exact List.getLast?_concat
  | cons m ms ih =>
    rw [run_cons] at h
    obtain ⟨u, hmove, hrun⟩ := Option.bind_eq_some_iff.1 h
    have hlevel' : ∀ q, q <+: ms → 0 ≤ s.length + m.rise + level q := by
      intro q hq
      have hnext := hlevel (m :: q) ((List.cons_prefix_cons).2 ⟨rfl, hq⟩)
      rw [level_cons] at hnext
      omega
    obtain ⟨rfl, rfl⟩ | ⟨b, rfl, rfl⟩ | ⟨b, rfl, hs⟩ := move_cases hmove
    · refine ih (fun q hq => ?_) hrun
      have hq' := hlevel' q hq
      simp only [Move.rise] at hq'
      omega
    · refine ih (s := b :: s) (fun q hq => ?_) hrun
      have hq' := hlevel' q hq
      simp only [Move.rise, List.length_cons] at hq' ⊢
      omega
    · -- the move up takes back a step below `a`, for the level after it is not negative
      have hroot := hlevel' [] (List.nil_prefix)
      cases s with
      | nil =>
        simp only [Move.rise, level_nil, List.length_nil] at hroot
        omega
      | cons c s =>
        obtain ⟨rfl, rfl⟩ := List.cons.inj hs
        refine ih (fun q hq => ?_) hrun
        have hq' := hlevel' q hq
        simp only [Move.rise, List.length_cons] at hq'
        omega

/-- The walk steps onto `a` from the root, and never takes that step back. -/
def KeepsFirst (ms : List (Move α)) (a : α) : Prop :=
  ∃ pre post, ms = pre ++ .down a :: post ∧ level pre = 0 ∧ ∀ q, q <+: post → 0 ≤ level q

theorem KeepsFirst.concat {m : Move α} (h : KeepsFirst ms a) (hlevel : 0 < level (ms ++ [m])) :
    KeepsFirst (ms ++ [m]) a := by
  obtain ⟨pre, post, rfl, hpre, hpost⟩ := h
  refine ⟨pre, post ++ [m], by simp, hpre, fun q hq => ?_⟩
  obtain hq | rfl := List.prefix_concat_iff.1 hq |>.symm
  · exact hpost q hq
  · simp only [level_append, level_cons, level_nil, Move.rise, hpre] at hlevel ⊢
    omega

theorem keepsFirst_of_run (h : run [] ms = some s) (ha : s.getLast? = some a) : KeepsFirst ms a := by
  induction ms using List.reverseRecOn generalizing s with
  | nil =>
    obtain rfl : [] = s := Option.some.inj h
    cases ha
  | append_singleton ms m ih =>
    have hlen := length_run h
    rw [run_concat] at h
    obtain ⟨u, hrun, hmove⟩ := Option.bind_eq_some_iff.1 h
    have hpos : 0 < level (ms ++ [m]) := by
      have hne : 0 < s.length := List.length_pos_of_ne_nil (by rintro rfl; cases ha)
      simp only [List.length_nil] at hlen
      omega
    obtain ⟨rfl, rfl⟩ | ⟨b, rfl, rfl⟩ | ⟨b, rfl, rfl⟩ := move_cases hmove
    · exact (ih hrun ha).concat hpos
    · cases u with
      | nil =>
        -- the step from the root
        obtain rfl : b = a := Option.some.inj ha
        refine ⟨ms, [], rfl, ?_, fun q hq => ?_⟩
        · have hroot := length_run hrun
          simp only [List.length_nil] at hroot
          omega
        · rw [List.prefix_nil.1 hq, level_nil]
      | cons c u =>
        rw [List.getLast?_cons_cons] at ha
        exact (ih hrun ha).concat hpos
    · refine (ih hrun ?_).concat hpos
      cases s with
      | nil => cases ha
      | cons c s => rwa [List.getLast?_cons_cons]

theorem getLast?_run_iff (h : run [] ms = some s) : s.getLast? = some a ↔ KeepsFirst ms a := by
  refine ⟨keepsFirst_of_run h, ?_⟩
  rintro ⟨pre, post, rfl, hpre, hpost⟩
  rw [run_append] at h
  obtain ⟨u, hrun, hrest⟩ := Option.bind_eq_some_iff.1 h
  have hu : u = [] := by
    have hlen := length_run hrun
    simp only [List.length_nil] at hlen
    exact List.length_eq_zero_iff.1 (by omega)
  subst hu
  rw [run_cons] at hrest
  refine run_above (s := []) (fun q hq => ?_) hrest
  have hq' := hpost q hq
  simp only [List.length_nil]
  omega

end Walk
