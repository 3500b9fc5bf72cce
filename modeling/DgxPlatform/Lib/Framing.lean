import Mathlib.Data.List.Infix

/-! # Cutting a stream at a separator

A reader that receives a sequence in pieces keeps a buffer: it cuts off every
part that is complete and leaves the rest for the next piece.

* `cut` splits at the first occurrence of the separator, `frames` at all of them.
* `frames_append` is the law of the buffer: what was left over, with more behind
  it, is cut as the whole would have been.
* `feed_eq`: pieces received one after another give the parts of the whole,
  wherever it was divided.
* `frames_flatMap`: parts that do not hold the separator's first element, each
  with a separator behind it, are the parts found.
-/

namespace Framing

variable {α : Type*} [DecidableEq α] {sep t a b : List α}

/-- What is before the first separator, and what is behind it. -/
def cut (sep : List α) : List α → Option (List α × List α)
  | [] => none
  | x :: t =>
      if sep <+: x :: t then some ([], (x :: t).drop sep.length)
      else (cut sep t).map fun r => (x :: r.1, r.2)

/-- At most `n` parts, and what is left. -/
def framesUpTo (sep : List α) : Nat → List α → List (List α) × List α
  | 0, t => ([], t)
  | n + 1, t =>
      match cut sep t with
      | none => ([], t)
      | some (a, b) => (a :: (framesUpTo sep n b).1, (framesUpTo sep n b).2)

/-- The parts that end with a separator, and what is left. -/
def frames (sep t : List α) : List (List α) × List α := framesUpTo sep t.length t

/-- The buffer and the parts after the pieces. -/
def feed (sep : List α) : List α → List (List α) → List (List α) × List α
  | buf, [] => ([], buf)
  | buf, p :: pieces =>
      let r := frames sep (buf ++ p)
      (r.1 ++ (feed sep r.2 pieces).1, (feed sep r.2 pieces).2)

/-- Every part, the last one without a separator included. -/
def split (sep t : List α) : List (List α) := (frames sep t).1 ++ [(frames sep t).2]

/-! ## The first separator -/

omit [DecidableEq α] in
/-- A text up to a mark is not the same text shifted, if the mark is not in what is put around. -/
theorem eq_nil_of_shift {m : α} {x y s a b : List α} (hx : m ∉ x) (hy : m ∉ y)
    (h : s ++ m :: a = x ++ (s ++ (y ++ m :: b))) : x = [] ∧ y = [] := by
  have hfront : ∀ {s b : List α}, s ++ m :: a = x ++ (s ++ b) → x = [] := by
    intro s b h
    by_contra hne
    induction hn : s.length using Nat.strong_induction_on generalizing s with
    | _ n ih =>
      rcases List.append_eq_append_iff.1 h with ⟨u, rfl, hu⟩ | ⟨u, rfl, hu⟩
      · -- the shift reaches over the text up to the mark
        cases u with
        | nil =>
          rw [List.append_nil] at hne hx
          cases s with
          | nil => exact hne rfl
          | cons c s =>
            have hc : m = c := (List.cons.inj hu).1
            exact hx (hc ▸ List.mem_cons_self)
        | cons c u =>
          have hc : m = c := (List.cons.inj hu).1
          exact hx (List.mem_append_right s (hc ▸ List.mem_cons_self))
      · -- the text begins with the shift: the same for what is left of it
        have hlen : u.length < n := by
          have hpos := List.length_pos_iff.2 hne
          rw [List.length_append] at hn
          omega
        refine ih u.length hlen ?_ rfl
        rw [← hu, List.append_assoc]
  have hnil := hfront h
  refine ⟨hnil, ?_⟩
  rw [hnil, List.nil_append, List.append_cancel_left_eq] at h
  cases y with
  | nil => rfl
  | cons c y =>
    have hc : m = c := (List.cons.inj h).1
    exact absurd (hc ▸ List.mem_cons_self) hy

variable {c : α}

omit [DecidableEq α] in
/-- Two readings of a text at the first of some element are the same. -/
theorem eq_of_first {a' b' : List α} (ha : c ∉ a) (ha' : c ∉ a')
    (h : a ++ c :: b = a' ++ c :: b') : a = a' ∧ b = b' := by
  induction a generalizing a' with
  | nil =>
    cases a' with
    | nil => exact ⟨rfl, (List.cons.inj h).2⟩
    | cons x a' => exact absurd ((List.cons.inj h).1 ▸ List.mem_cons_self) ha'
  | cons x a ih =>
    cases a' with
    | nil => exact absurd ((List.cons.inj h).1 ▸ List.mem_cons_self) ha
    | cons x' a' =>
      rw [List.mem_cons, not_or] at ha ha'
      obtain ⟨hx, hrest⟩ := List.cons.inj h
      obtain ⟨heq, hb⟩ := ih ha.2 ha'.2 hrest
      rw [hx, heq]
      exact ⟨rfl, hb⟩

theorem eq_of_cut (h : cut sep t = some (a, b)) : t = a ++ sep ++ b := by
  induction t generalizing a with
  | nil => cases h
  | cons x t ih =>
    rw [cut] at h
    split at h
    · next hp =>
        obtain ⟨rest, hrest⟩ := hp
        cases h
        rw [← hrest]
        simp
    · obtain ⟨r, hr, heq⟩ := Option.map_eq_some_iff.1 h
      cases heq
      rw [ih hr]
      simp

theorem length_lt_of_cut (hsep : sep ≠ []) (h : cut sep t = some (a, b)) : b.length < t.length := by
  rw [eq_of_cut h]
  have hpos := List.length_pos_iff.2 hsep
  simp only [List.length_append]
  omega

theorem cut_append (h : cut sep t = some (a, b)) (u : List α) : cut sep (t ++ u) = some (a, b ++ u) := by
  induction t generalizing a with
  | nil => cases h
  | cons x t ih =>
    rw [cut] at h
    rw [List.cons_append, cut]
    split at h
    · next hp =>
        cases h
        have hpu : sep <+: x :: (t ++ u) := hp.trans (List.prefix_append (x :: t) u)
        rw [if_pos hpu, ← List.cons_append, List.drop_append_of_le_length hp.length_le]
    · next hp =>
        obtain ⟨r, hr, heq⟩ := Option.map_eq_some_iff.1 h
        cases heq
        -- a separator over the border would end behind the one found inside
        have hlen : sep.length ≤ (x :: t).length := by
          rw [eq_of_cut hr]
          simp only [List.length_cons, List.length_append]
          omega
        have hno : ¬ sep <+: x :: (t ++ u) := fun hu =>
          hp (List.prefix_of_prefix_length_le hu (List.prefix_append (x :: t) u) hlen)
        rw [if_neg hno, ih hr]
        rfl

variable {rest : List α}

theorem cut_eq_none (h : c ∉ t) : cut (c :: rest) t = none := by
  cases hr : cut (c :: rest) t with
  | none => rfl
  | some r =>
    have heq := eq_of_cut (a := r.1) (b := r.2) hr
    exact absurd (by rw [heq]; simp) h

theorem not_prefix_of_cut (h : cut sep t = some (a, b)) {p : Nat} (hp : p < a.length) : ¬ sep <+: t.drop p := by
  induction t generalizing a p with
  | nil => cases h
  | cons x t ih =>
    rw [cut] at h
    split at h
    · cases h
      cases hp
    · next hno =>
        obtain ⟨r, hr, heq⟩ := Option.map_eq_some_iff.1 h
        cases heq
        cases p with
        | zero => exact hno
        | succ p => exact ih hr (by simpa using hp)

theorem not_mem_of_cut (h : cut [c] t = some (a, b)) : c ∉ a := by
  intro hmem
  obtain ⟨x, y, rfl, -⟩ := List.eq_append_cons_of_mem hmem
  apply not_prefix_of_cut h (p := x.length) (by simp)
  rw [eq_of_cut h]
  simp

theorem not_prefix_of_cut_none (hsep : sep ≠ []) (h : cut sep t = none) (p : Nat) : ¬ sep <+: t.drop p := by
  induction t generalizing p with
  | nil => simpa using hsep
  | cons x t ih =>
    rw [cut] at h
    split at h
    · cases h
    · next hno =>
        cases p with
        | zero => exact hno
        | succ p => exact ih (Option.map_eq_none_iff.1 h) p

theorem cut_append_of_not_mem {rest w : List α} (hw : c ∉ w) (t : List α) :
    cut (c :: rest) (w ++ t) = (cut (c :: rest) t).map fun r => (w ++ r.1, r.2) := by
  induction w with
  | nil => simp
  | cons x w ih =>
    have hx : c ≠ x := fun h => hw (h ▸ List.mem_cons_self)
    have hno : ¬ (c :: rest) <+: x :: (w ++ t) := fun h => hx (List.cons_prefix_cons.1 h).1
    rw [List.cons_append, cut, if_neg hno, ih fun h => hw (List.mem_cons_of_mem _ h),
      Option.map_map]
    rfl

/-- A part without the separator's first element ends at the first separator. -/
theorem cut_part (ha : c ∉ a) (b : List α) : cut (c :: rest) (a ++ (c :: rest) ++ b) = some (a, b) := by
  rw [List.append_assoc, cut_append_of_not_mem ha]
  simp [cut]

/-! ## Where a separator stands -/

omit [DecidableEq α] in
theorem prefix_append_cons_iff (h : c ∉ sep) (a b : List α) : sep <+: a ++ c :: b ↔ sep <+: a := by
  constructor
  · intro hp
    rcases Nat.lt_or_ge a.length sep.length with hlt | hge
    · -- a longer word would hold the element
      have hin : a ++ [c] <+: sep :=
        List.prefix_of_prefix_length_le (by simp) hp (by simpa using Nat.succ_le_of_lt hlt)
      exact absurd (hin.subset (by simp)) h
    · exact List.prefix_of_prefix_length_le hp (List.prefix_append a (c :: b)) hge
  · intro hp
    exact hp.trans (List.prefix_append a (c :: b))

omit [DecidableEq α] in
theorem infix_append_cons_iff (h : c ∉ sep) (a b : List α) :
    sep <:+: a ++ c :: b ↔ sep <:+: a ∨ sep <:+: b := by
  induction a with
  | nil =>
    have hhead : sep <+: c :: b ↔ sep <+: [] := prefix_append_cons_iff h [] b
    rw [List.nil_append, List.infix_cons_iff, hhead, List.infix_nil, List.prefix_nil]
  | cons x a ih =>
    have hhead : sep <+: x :: (a ++ c :: b) ↔ sep <+: x :: a := prefix_append_cons_iff h (x :: a) b
    rw [List.cons_append, List.infix_cons_iff, List.infix_cons_iff, hhead, ih, or_assoc]

theorem cut_eq_none_iff (hsep : sep ≠ []) : cut sep t = none ↔ ¬ sep <:+: t := by
  induction t with
  | nil =>
    rw [List.infix_nil]
    exact iff_of_true rfl hsep
  | cons x t ih =>
    rw [List.infix_cons_iff, cut]
    split
    · next hp =>
        constructor
        · intro h
          cases h
        · intro h
          exact absurd (Or.inl hp) h
    · next hno => rw [Option.map_eq_none_iff, ih, or_iff_right hno]

theorem cut_self (hsep : sep ≠ []) (h : cut sep (a ++ sep ++ b) = some (a, b)) : cut sep (a ++ sep) = some (a, []) := by
  cases hc : cut sep (a ++ sep) with
  | none => exact absurd (List.suffix_append a sep).isInfix ((cut_eq_none_iff hsep).1 hc)
  | some r =>
    have hall := cut_append (a := r.1) (b := r.2) hc b
    rw [h, Option.some.injEq, Prod.mk.injEq] at hall
    have hnil : r.2 = [] := List.append_left_eq_self.1 hall.2.symm
    rw [← hnil, hall.1]

theorem not_infix_of_cut (hsep : sep ≠ []) (h : cut sep t = some (a, b)) : ¬ sep <:+: a := by
  rintro ⟨x, y, rfl⟩
  have hpos := List.length_pos_iff.2 hsep
  apply not_prefix_of_cut h (p := x.length)
  · simp only [List.length_append]
    omega
  · rw [eq_of_cut h]
    simp [List.append_assoc]

/-- The search goes on behind an element that the separator does not have. -/
theorem cut_append_cons (hc : c ∉ sep) (h : ¬ sep <:+: a) (t : List α) :
    cut sep (a ++ c :: t) = (cut sep t).map fun r => (a ++ c :: r.1, r.2) := by
  induction a with
  | nil =>
    have hno : ¬ sep <+: c :: t := fun hp => h ((prefix_append_cons_iff hc [] t).1 hp).isInfix
    rw [List.nil_append, cut, if_neg hno]
    rfl
  | cons x a ih =>
    rw [List.infix_cons_iff, not_or] at h
    have hno : ¬ sep <+: x :: (a ++ c :: t) := fun hp => h.1 ((prefix_append_cons_iff hc (x :: a) t).1 hp)
    rw [List.cons_append, cut, if_neg hno, ih h.2, Option.map_map]
    rfl

/-- A separator is the first one if none is complete before its last element. -/
theorem cut_first (hsep : sep ≠ []) (h : ¬ sep <:+: a ++ sep.dropLast) (t : List α) :
    cut sep (a ++ sep ++ t) = some (a, t) := by
  induction a with
  | nil =>
    obtain ⟨x, rest, rfl⟩ := List.exists_cons_of_ne_nil hsep
    simp [cut]
  | cons x a ih =>
    rw [List.cons_append, List.infix_cons_iff, not_or] at h
    have hno : ¬ sep <+: x :: (a ++ sep ++ t) := by
      intro hp
      have hpos := List.length_pos_iff.2 hsep
      have hfront : x :: (a ++ sep.dropLast) <+: x :: (a ++ sep ++ t) := by
        rw [List.cons_prefix_cons, List.append_assoc, List.prefix_append_right_inj]
        exact ⟨rfl, (List.dropLast_prefix sep).trans (List.prefix_append sep t)⟩
      refine h.1 (List.prefix_of_prefix_length_le hp hfront ?_)
      simp only [List.length_cons, List.length_append, List.length_dropLast]
      omega
    rw [List.cons_append, List.cons_append, cut, if_neg hno, ih h.2]
    rfl

/-- A separator whose first element comes once in it does not overlap with another one. -/
theorem cut_whole (hc : c ∉ rest) (h : ¬ (c :: rest) <:+: a) (t : List α) :
    cut (c :: rest) (a ++ (c :: rest) ++ t) = some (a, t) := by
  induction a with
  | nil => simp [cut]
  | cons x a ih =>
    rw [List.infix_cons_iff, not_or] at h
    have hno : ¬ (c :: rest) <+: x :: (a ++ (c :: rest) ++ t) := by
      intro hp
      obtain ⟨rfl, hrest⟩ := List.cons_prefix_cons.1 hp
      rw [List.append_assoc, List.cons_append, prefix_append_cons_iff hc] at hrest
      exact h.1 (List.cons_prefix_cons.2 ⟨rfl, hrest⟩)
    rw [List.cons_append, List.cons_append, cut, if_neg hno, ih h.2]
    rfl

/-! ## All the parts -/

theorem framesUpTo_of_le (hsep : sep ≠ []) :
    ∀ {n : Nat} {t : List α}, t.length ≤ n → framesUpTo sep n t = frames sep t := by
  intro n
  induction n using Nat.strong_induction_on with
  | _ n ih =>
    intro t hn
    unfold frames
    cases hc : cut sep t with
    | none => cases n <;> cases ht : t.length <;> simp [framesUpTo, hc]
    | some r =>
      obtain ⟨a, b⟩ := r
      have hlt := length_lt_of_cut hsep hc
      obtain ⟨k, hk⟩ : ∃ k, t.length = k + 1 := ⟨t.length - 1, by omega⟩
      obtain ⟨m, rfl⟩ : ∃ m, n = m + 1 := ⟨n - 1, by omega⟩
      rw [hk, framesUpTo, framesUpTo, hc]
      simp only
      rw [ih m (by omega) (by omega)]
      by_cases hkm : k = m
      · rw [hkm, ih m (by omega) (by omega)]
      · rw [ih k (by omega) (by omega)]

theorem frames_of_none (h : cut sep t = none) : frames sep t = ([], t) := by
  unfold frames
  cases t.length <;> simp [framesUpTo, h]

theorem frames_of_some (hsep : sep ≠ []) (h : cut sep t = some (a, b)) :
    frames sep t = (a :: (frames sep b).1, (frames sep b).2) := by
  have hlt := length_lt_of_cut hsep h
  obtain ⟨k, hk⟩ : ∃ k, t.length = k + 1 := ⟨t.length - 1, by omega⟩
  rw [frames, hk, framesUpTo, h]
  simp only
  rw [framesUpTo_of_le hsep (n := k) (by omega)]

theorem frames_append (hsep : sep ≠ []) (t u : List α) : frames sep (t ++ u) =
      ((frames sep t).1 ++ (frames sep ((frames sep t).2 ++ u)).1,
        (frames sep ((frames sep t).2 ++ u)).2) := by
  induction hn : t.length using Nat.strong_induction_on generalizing t with
  | _ n ih =>
    cases hc : cut sep t with
    | none => simp [frames_of_none hc]
    | some r =>
      obtain ⟨a, b⟩ := r
      have hlt := length_lt_of_cut hsep hc
      rw [frames_of_some hsep (cut_append hc u), frames_of_some hsep hc,
        ih b.length (by omega) b rfl]
      rfl

theorem cut_left (hsep : sep ≠ []) (t : List α) : cut sep (frames sep t).2 = none := by
  induction hn : t.length using Nat.strong_induction_on generalizing t with
  | _ n ih =>
    cases hc : cut sep t with
    | none => rw [frames_of_none hc, hc]
    | some r =>
      obtain ⟨a, b⟩ := r
      have hlt := length_lt_of_cut hsep hc
      rw [frames_of_some hsep hc]
      exact ih b.length (by omega) b rfl

theorem feed_eq (hsep : sep ≠ []) (pieces : List (List α)) :
    feed sep [] pieces = frames sep pieces.flatten := by
  suffices h : ∀ (buf : List α), cut sep buf = none →
      feed sep buf pieces = frames sep (buf ++ pieces.flatten) from h [] rfl
  induction pieces with
  | nil =>
    intro buf hbuf
    rw [List.flatten_nil, List.append_nil, frames_of_none hbuf]
    rfl
  | cons p pieces ih =>
    intro buf hbuf
    rw [List.flatten_cons, ← List.append_assoc, frames_append hsep, feed,
      ih _ (cut_left hsep _)]

/-- Parts that do not hold the separator's first element are found as they are. -/
theorem frames_flatMap {parts : List (List α)} (h : ∀ p ∈ parts, c ∉ p) (left : List α) (hleft : c ∉ left) :
    frames (c :: rest) (parts.flatMap (fun p => p ++ (c :: rest)) ++ left) = (parts, left) := by
  induction parts with
  | nil => exact frames_of_none (cut_eq_none hleft)
  | cons p parts ih =>
    rw [List.flatMap_cons, List.append_assoc,
      frames_of_some (List.cons_ne_nil c rest) (cut_part (h p List.mem_cons_self) _),
      ih fun q hq => h q (List.mem_cons_of_mem _ hq)]

theorem split_of_not_mem (h : c ∉ t) : split (c :: rest) t = [t] := by
  rw [split, frames_of_none (cut_eq_none h)]
  rfl

end Framing
