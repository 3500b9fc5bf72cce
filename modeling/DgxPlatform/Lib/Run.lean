import Mathlib.Logic.Basic

/-! # Runs of a partial-step machine

A machine is a step function `σ → α → Option σ`: the state reached under a
label, or `none` when the label is not enabled. A run is a list of labels;
`exec` executes it. Interleavings of several actors are runs of one machine
whose labels say who moves.

* `Meets step G s as` says that every step of the run `as` from `s` meets the
  condition `G` in the state before it.
* `exec_inv` is invariant induction along a run that meets a condition, `exec_kept`
  along any run.
* `exec_after` is the rule for "once `E` has happened, `Q` holds until `R`":
  an invariant carries the run to the event, `Q` carries it from there.
* `always_iff_meets` is the rule for an exact condition: a step that meets it
  keeps the invariant, a step that does not breaks the property at once.
-/

namespace Run

universe u v

variable {σ : Type u} {α : Type v}

/-- A machine: what a state becomes under a label. -/
abbrev Step (σ : Type u) (α : Type v) := σ → α → Option σ

/-- The state after a list of labels, `none` as soon as one is not enabled. -/
def exec (step : Step σ α) : σ → List α → Option σ
  | s, [] => some s
  | s, a :: as => (step s a).bind fun s' => exec step s' as

/-- Every step of the run meets `G` in the state before it. -/
def Meets (step : Step σ α) (G : σ → α → Prop) : σ → List α → Prop
  | _, [] => True
  | s, a :: as => G s a ∧ ∀ s', step s a = some s' → Meets step G s' as

variable {step : Step σ α} {G : σ → α → Prop}

@[simp] theorem exec_nil (s : σ) : exec step s [] = some s := rfl

theorem exec_cons (s : σ) (a : α) (as : List α) :
    exec step s (a :: as) = (step s a).bind fun s' => exec step s' as := rfl

/-- A run that starts with `a` is a step under `a` and a run from there. -/
theorem exec_cons_eq_some {s t : σ} {a : α} {as : List α} :
    exec step s (a :: as) = some t ↔ ∃ s', step s a = some s' ∧ exec step s' as = some t := by
  rw [exec_cons, Option.bind_eq_some_iff]

theorem exec_append_eq_some {s t : σ} {as bs : List α} :
    exec step s (as ++ bs) = some t ↔
      ∃ m, exec step s as = some m ∧ exec step m bs = some t := by
  induction as generalizing s with
  | nil => simp
  | cons a as ih =>
    simp only [List.cons_append, exec_cons_eq_some, ih]
    constructor
    · rintro ⟨s', hs, m, hm, ht⟩
      exact ⟨m, ⟨s', hs, hm⟩, ht⟩
    · rintro ⟨m, ⟨s', hs, hm⟩, ht⟩
      exact ⟨s', hs, m, hm, ht⟩

@[simp] theorem meets_nil (s : σ) : Meets step G s [] := trivial

theorem meets_cons {s : σ} {a : α} {as : List α} :
    Meets step G s (a :: as) ↔ G s a ∧ ∀ s', step s a = some s' → Meets step G s' as := Iff.rfl

theorem meets_append {s : σ} {as bs : List α} :
    Meets step G s (as ++ bs) ↔
      Meets step G s as ∧ ∀ m, exec step s as = some m → Meets step G m bs := by
  induction as generalizing s with
  | nil => simp
  | cons a as ih =>
    simp only [List.cons_append, meets_cons, ih, exec_cons_eq_some]
    constructor
    · rintro ⟨hG, h⟩
      exact ⟨⟨hG, fun s' hs => (h s' hs).1⟩, fun m ⟨s', hs, hm⟩ => (h s' hs).2 m hm⟩
    · rintro ⟨⟨hG, h⟩, hm⟩
      exact ⟨hG, fun s' hs => ⟨h s' hs, fun m he => hm m ⟨s', hs, he⟩⟩⟩

theorem meets_of_labels {R : α → Prop} {s : σ} {as : List α} (hR : ∀ a ∈ as, R a) :
    Meets step (fun _ a => R a) s as := by
  induction as generalizing s with
  | nil => exact meets_nil s
  | cons a as ih =>
    refine meets_cons.2 ⟨hR a List.mem_cons_self, ?_⟩
    intro s' _
    exact ih fun b hb => hR b (List.mem_cons_of_mem a hb)

theorem meets_of_forall {R : α → Prop} {s : σ} {as : List α} (hR : ∀ a ∈ as, R a)
    (hG : Meets step G s as) : Meets step (fun s a => R a ∧ G s a) s as := by
  induction as generalizing s with
  | nil => exact meets_nil s
  | cons a as ih =>
    refine meets_cons.2 ⟨⟨hR a List.mem_cons_self, hG.1⟩, ?_⟩
    intro s' hs'
    exact ih (fun b hb => hR b (List.mem_cons_of_mem a hb)) (hG.2 s' hs')

/-- Whether a run meets a decidable condition can be executed along it. -/
instance Meets.decidable [∀ s a, Decidable (G s a)] :
    ∀ (s : σ) (as : List α), Decidable (Meets step G s as)
  | _, [] => .isTrue trivial
  | s, a :: as =>
      match h : step s a with
      | none => decidable_of_iff (G s a) (by simp [meets_cons, h])
      | some s' =>
          have := Meets.decidable s' as
          decidable_of_iff (G s a ∧ Meets step G s' as) (by simp [meets_cons, h])

theorem exec_inv {Inv : σ → Prop}
    (hstep : ∀ s a s', Inv s → G s a → step s a = some s' → Inv s')
    {s t : σ} {as : List α} (hinv : Inv s) (hG : Meets step G s as)
    (hrun : exec step s as = some t) : Inv t := by
  induction as generalizing s with
  | nil =>
    obtain rfl : s = t := by simpa using hrun
    exact hinv
  | cons a as ih =>
    rcases exec_cons_eq_some.1 hrun with ⟨s', hs, ht⟩
    exact ih (hstep s a s' hinv hG.1 hs) (hG.2 s' hs) ht

theorem exec_kept {Inv : σ → Prop}
    (hstep : ∀ s a s', Inv s → step s a = some s' → Inv s')
    {s t : σ} {as : List α} (hinv : Inv s) (hrun : exec step s as = some t) : Inv t :=
  exec_inv (fun s a s' hs _ h => hstep s a s' hs h) hinv (meets_of_labels fun _ _ => trivial) hrun

/-- Once the event `e` has happened, `Q` holds as long as no label is a reset
(`R`): the invariant carries the run to the event, the event establishes `Q`,
and every other step keeps it. -/
theorem exec_after {Inv Q : σ → Prop} {R : α → Prop}
    (hinv : ∀ s a s', Inv s → G s a → step s a = some s' → Inv s')
    (hQ : ∀ s a s', Inv s → Q s → G s a → ¬ R a → step s a = some s' → Q s')
    {s t : σ} {before after : List α} {e : α}
    (he : ∀ m m', exec step s before = some m → Inv m → G m e → step m e = some m' → Q m')
    (hs : Inv s) (hG : Meets step G s (before ++ e :: after))
    (hR : ∀ a ∈ after, ¬ R a)
    (hrun : exec step s (before ++ e :: after) = some t) : Inv t ∧ Q t := by
  obtain ⟨m, hm, hmt⟩ := exec_append_eq_some.1 hrun
  obtain ⟨hGb, hGe⟩ := meets_append.1 hG
  have hIm : Inv m := exec_inv hinv hs hGb hm
  obtain ⟨m', hme, hm't⟩ := exec_cons_eq_some.1 hmt
  obtain ⟨hGm, hGafter⟩ := hGe m hm
  have hIm' : Inv m' := hinv m e m' hIm hGm hme
  have hQm' : Q m' := he m m' hm hIm hGm hme
  -- from the event on: the labels that are no reset keep `Inv ∧ Q`
  have hrest : ∀ (as : List α) (x : σ), (∀ a ∈ as, ¬ R a) → Inv x ∧ Q x →
      Meets step G x as → exec step x as = some t → Inv t ∧ Q t := by
    intro as
    induction as with
    | nil =>
      intro x _ hx _ hxt
      obtain rfl : x = t := by simpa using hxt
      exact hx
    | cons a as ih =>
      intro x hR' hx hGx hxt
      obtain ⟨x', hxa, hx't⟩ := exec_cons_eq_some.1 hxt
      refine ih x' (fun b hb => hR' b (List.mem_cons_of_mem _ hb)) ⟨?_, ?_⟩
        (hGx.2 x' hxa) hx't
      · exact hinv x a x' hx.1 hGx.1 hxa
      · exact hQ x a x' hx.1 hx.2 hGx.1 (hR' a List.mem_cons_self) hxa
  exact hrest after m' hR ⟨hIm', hQm'⟩ (hGafter m' hme) hm't

/-- `P` holds in every state the run passes through. -/
def Always (step : Step σ α) (P : σ → Prop) (s : σ) (as : List α) : Prop :=
  ∀ pre, pre <+: as → ∀ t, exec step s pre = some t → P t

theorem always_cons {P : σ → Prop} {s s' : σ} {a : α} {as : List α} (hs : step s a = some s') :
    Always step P s (a :: as) ↔ P s ∧ Always step P s' as := by
  constructor
  · intro h
    refine ⟨h [] List.nil_prefix s rfl, ?_⟩
    intro pre hpre t ht
    exact h (a :: pre) ((List.prefix_cons_inj a).2 hpre) t (exec_cons_eq_some.2 ⟨s', hs, ht⟩)
  · rintro ⟨h0, h⟩ pre hpre t ht
    rcases List.prefix_cons_iff.1 hpre with rfl | ⟨pre', rfl, hpre'⟩
    · obtain rfl : s = t := by simpa using ht
      exact h0
    · obtain ⟨m, hm, hmt⟩ := exec_cons_eq_some.1 ht
      obtain rfl : s' = m := Option.some.inj (hs.symm.trans hm)
      exact h pre' hpre' t hmt

/-- Along a run whose steps meet `G` the invariant gives `P` in every state. -/
theorem always_of_meets {Inv P : σ → Prop} (hP : ∀ s, Inv s → P s)
    (hstep : ∀ s a s', Inv s → G s a → step s a = some s' → Inv s')
    {s : σ} {as : List α} (hs : Inv s) (hG : Meets step G s as) : Always step P s as := by
  rintro pre ⟨rest, rfl⟩ t ht
  exact hP t (exec_inv hstep hs (meets_append.1 hG).1 ht)

/-- Along a run whose steps meet `G` the invariant gives `P` of every step. -/
theorem meets_of_inv {Inv : σ → Prop} {P : σ → α → Prop} (hP : ∀ s a, Inv s → G s a → P s a)
    (hstep : ∀ s a s', Inv s → G s a → step s a = some s' → Inv s')
    {s : σ} {as : List α} (hs : Inv s) (hG : Meets step G s as) : Meets step P s as := by
  induction as generalizing s with
  | nil => exact meets_nil s
  | cons a as ih =>
    refine meets_cons.2 ⟨hP s a hs hG.1, ?_⟩
    intro s' hs'
    exact ih (hstep s a s' hs hG.1 hs') (hG.2 s' hs')

/-- The condition is exact: a step that meets it keeps the invariant, a step that
does not is enabled and ends outside `P`. -/
theorem always_iff_meets {Inv P : σ → Prop} (hP : ∀ s, Inv s → P s)
    (hstep : ∀ s a s', Inv s → G s a → step s a = some s' → Inv s')
    (hbreak : ∀ s a, Inv s → ¬ G s a → ∃ s', step s a = some s' ∧ ¬ P s')
    {s : σ} {as : List α} (hs : Inv s) : Always step P s as ↔ Meets step G s as := by
  refine ⟨?_, always_of_meets hP hstep hs⟩
  induction as generalizing s with
  | nil => exact fun _ => meets_nil s
  | cons a as ih =>
    intro h
    by_cases hG : G s a
    · refine meets_cons.2 ⟨hG, ?_⟩
      intro s' hs'
      exact ih (hstep s a s' hs hG hs') ((always_cons hs').1 h).2
    · obtain ⟨s', hs', hbad⟩ := hbreak s a hs hG
      exact absurd (h [a] ((List.prefix_cons_inj a).2 List.nil_prefix) s' (by simp [exec, hs'])) hbad

end Run
