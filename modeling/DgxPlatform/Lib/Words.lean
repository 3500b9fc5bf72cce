import Mathlib.Algebra.GroupWithZero.Nat
import Mathlib.Data.List.Chain

/-! # Words

The maximal runs of a predicate in a list, and the list with one separator between the
words. A list whose other elements stand alone between two words is its words joined.

* `eq_joined_words`: such a list is its words, joined.
* `getElem?_joined_eq_sep_iff`: where the separators stand.
-/

namespace Words

variable {α : Type}

section Runs

variable (p : α → Bool)

/-- The words of a list, from the run at its head and the words behind it. -/
def collect : List α × List (List α) → List (List α)
  | ([], ws) => ws
  | (c :: w, ws) => (c :: w) :: ws

/-- The run at the head, maybe empty, and the words behind it. -/
def runs : List α → List α × List (List α)
  | [] => ([], [])
  | c :: t => if p c then (c :: (runs t).1, (runs t).2) else ([], collect (runs t))

/-- The maximal runs of `p`. -/
def words (t : List α) : List (List α) := collect (runs p t)

variable {p} {c : α} {t : List α}

@[simp] theorem collect_cons (w : List α) (ws : List (List α)) :
    collect (c :: w, ws) = (c :: w) :: ws := rfl

@[simp] theorem collect_nil (ws : List (List α)) : collect (([] : List α), ws) = ws := rfl

theorem runs_cons_of_pos (h : p c = true) : runs p (c :: t) = (c :: (runs p t).1, (runs p t).2) :=
  if_pos h

theorem runs_cons_of_neg (h : p c = false) : runs p (c :: t) = ([], words p t) :=
  if_neg (by simp [h])

theorem words_cons_of_neg (h : p c = false) : words p (c :: t) = words p t := by
  rw [words, runs_cons_of_neg h, collect_nil]

theorem words_congr {t' : List α} (h : runs p t = runs p t') : words p t = words p t' :=
  congrArg collect h

theorem words_append_of_neg {s : List α} (h : ∀ c ∈ s, p c = false) (t : List α) :
    words p (s ++ t) = words p t := by
  induction s with
  | nil => rfl
  | cons c s ih =>
    obtain ⟨hc, hs⟩ := List.forall_mem_cons.1 h
    rw [List.cons_append, words_cons_of_neg hc, ih hs]

theorem runs_append_of_neg (t : List α) {s : List α} (h : ∀ c ∈ s, p c = false) :
    runs p (t ++ s) = runs p t := by
  induction t with
  | nil =>
    induction s with
    | nil => rfl
    | cons c s ih =>
      obtain ⟨hc, hs⟩ := List.forall_mem_cons.1 h
      have hwords : words p s = words p [] := words_congr (ih hs)
      rw [List.nil_append, runs_cons_of_neg hc, hwords]
      rfl
  | cons c t ih => simp only [List.cons_append, runs, ih]

theorem forall_mem_runs (t : List α) :
    (∀ c ∈ (runs p t).1, p c = true) ∧ ∀ w ∈ (runs p t).2, w ≠ [] ∧ ∀ c ∈ w, p c = true := by
  induction t with
  | nil => exact ⟨List.forall_mem_nil _, List.forall_mem_nil _⟩
  | cons c t ih =>
    obtain ⟨hrun, hwords⟩ := ih
    cases hc : p c with
    | true =>
      rw [runs_cons_of_pos hc]
      exact ⟨List.forall_mem_cons.2 ⟨hc, hrun⟩, hwords⟩
    | false =>
      rw [runs_cons_of_neg hc]
      refine ⟨List.forall_mem_nil _, ?_⟩
      unfold words
      rcases hr : runs p t with ⟨_ | ⟨d, w⟩, ws⟩
      · rw [hr] at hwords
        exact hwords
      · rw [hr] at hrun hwords
        exact List.forall_mem_cons.2 ⟨⟨List.cons_ne_nil d w, hrun⟩, hwords⟩

theorem forall_mem_words (t : List α) : ∀ w ∈ words p t, w ≠ [] ∧ ∀ c ∈ w, p c = true := by
  obtain ⟨hrun, hwords⟩ := forall_mem_runs (p := p) t
  unfold words
  rcases hr : runs p t with ⟨_ | ⟨d, v⟩, ws⟩
  · rw [hr] at hwords
    exact hwords
  · rw [hr] at hrun hwords
    exact List.forall_mem_cons.2 ⟨⟨List.cons_ne_nil d v, hrun⟩, hwords⟩

end Runs

section Joined

variable (sep : α)

/-- The words with a separator between them. -/
def joined : List (List α) → List α
  | [] => []
  | w :: ws => w ++ ws.flatMap (sep :: ·)

variable {sep} {p : α → Bool} {t : List α}

theorem joined_cons_cons (w w' : List α) (ws : List (List α)) :
    joined sep (w :: w' :: ws) = w ++ sep :: joined sep (w' :: ws) := by
  simp [joined]

theorem length_joined {ws : List (List α)} (h : ws ≠ []) :
    (joined sep ws).length + 1 = (ws.map (·.length + 1)).sum := by
  induction ws with
  | nil => exact absurd rfl h
  | cons w ws ih =>
    cases ws with
    | nil => simp [joined]
    | cons w' ws =>
      rw [joined_cons_cons, List.map_cons, List.sum_cons, ← ih (List.cons_ne_nil _ _),
        List.length_append, List.length_cons]
      omega

/-- The separators of a joined list stand behind the words that come before them. -/
theorem getElem?_joined_eq_sep_iff {ws : List (List α)} (h : ∀ w ∈ ws, sep ∉ w) (n : Nat) :
    (joined sep ws)[n]? = some sep ↔
      ∃ before after, ws = before ++ after ∧ before ≠ [] ∧ after ≠ [] ∧
        (before.map (·.length + 1)).sum = n + 1 := by
  induction ws generalizing n with
  | nil =>
    simp only [joined, List.getElem?_nil, reduceCtorEq, false_iff]
    rintro ⟨before, after, hws, hbefore, -⟩
    exact hbefore (List.append_eq_nil_iff.1 hws.symm).1
  | cons w ws ih =>
    obtain ⟨hw, hrest⟩ := List.forall_mem_cons.1 h
    cases ws with
    | nil =>
      have hnone : ¬ (joined sep [w])[n]? = some sep := by
        intro hn
        exact hw (by simpa [joined] using List.mem_of_getElem? hn)
      simp only [hnone, false_iff]
      rintro ⟨before, after, hws, hbefore, hafter, -⟩
      have hlen := congrArg List.length hws
      have hb := List.length_pos_of_ne_nil hbefore
      have ha := List.length_pos_of_ne_nil hafter
      simp only [List.length_cons, List.length_nil, List.length_append] at hlen
      omega
    | cons w' ws =>
      rw [joined_cons_cons]
      constructor
      · intro hn
        rcases Nat.lt_trichotomy n w.length with hlt | rfl | hgt
        · rw [List.getElem?_append_left hlt] at hn
          exact absurd (List.mem_of_getElem? hn) hw
        · exact ⟨[w], w' :: ws, rfl, List.cons_ne_nil _ _, List.cons_ne_nil _ _, by simp⟩
        · obtain ⟨m, rfl⟩ : ∃ m, n = w.length + (m + 1) := ⟨n - w.length - 1, by omega⟩
          rw [List.getElem?_append_right (by omega), Nat.add_sub_cancel_left,
            List.getElem?_cons_succ] at hn
          obtain ⟨before, after, hws, hbefore, hafter, hsum⟩ := (ih hrest m).1 hn
          refine ⟨w :: before, after, by rw [hws, List.cons_append], List.cons_ne_nil _ _, hafter, ?_⟩
          rw [List.map_cons, List.sum_cons, hsum]
          omega
      · rintro ⟨before, after, hws, hbefore, hafter, hsum⟩
        cases before with
        | nil => exact absurd rfl hbefore
        | cons v before =>
          obtain ⟨rfl, hrest'⟩ := List.cons.inj hws
          rw [List.map_cons, List.sum_cons] at hsum
          cases hb : before with
          | nil =>
            subst hb
            have hn : n = w.length := by simpa using hsum.symm
            rw [hn, List.getElem?_append_right (Nat.le_refl _), Nat.sub_self]
            rfl
          | cons u us =>
            -- at least one more word stands before the separator
            have hpos : 0 < (before.map (·.length + 1)).sum := by
              rw [hb, List.map_cons, List.sum_cons]
              omega
            obtain ⟨m, rfl⟩ : ∃ m, n = w.length + (m + 1) := ⟨n - w.length - 1, by omega⟩
            rw [List.getElem?_append_right (by omega), Nat.add_sub_cancel_left,
              List.getElem?_cons_succ]
            refine (ih hrest m).2 ⟨before, after, hrest', ?_, hafter, by omega⟩
            rw [hb]
            exact List.cons_ne_nil _ _

theorem getLast?_joined_ne_sep {ws : List (List α)} (h : ∀ w ∈ ws, w ≠ [] ∧ sep ∉ w) :
    (joined sep ws).getLast? ≠ some sep := by
  intro hlast
  rw [List.getLast?_eq_getElem?, getElem?_joined_eq_sep_iff fun w hw => (h w hw).2] at hlast
  obtain ⟨before, after, hws, hbefore, hafter, hsum⟩ := hlast
  have hlen : (joined sep ws).length + 1 = (ws.map (·.length + 1)).sum := by
    refine length_joined ?_
    rintro rfl
    exact hbefore (List.append_eq_nil_iff.1 hws.symm).1
  cases after with
  | nil => exact hafter rfl
  | cons w after =>
    -- the word behind the last separator has a character of its own
    subst hws
    have hpos := List.length_pos_of_ne_nil (h w (by simp)).1
    rw [List.map_append, List.sum_append_nat, List.map_cons, List.sum_cons] at hlen
    omega

/-- A list of words and separators, each separator alone between two words, is its
run at the head and the words behind it, joined. -/
theorem eq_run_append (hsep : ∀ c ∈ t, p c = false → c = sep)
    (hchain : t.IsChain fun a b => ¬ (p a = false ∧ p b = false))
    (hlast : ∀ c ∈ t.getLast?, p c = true) :
    t = (runs p t).1 ++ (runs p t).2.flatMap (sep :: ·) := by
  induction t with
  | nil => rfl
  | cons c t ih =>
    obtain ⟨hc, hrest⟩ := List.forall_mem_cons.1 hsep
    obtain ⟨hnext, hchain⟩ := List.isChain_cons.1 hchain
    have hlast' : ∀ d ∈ t.getLast?, p d = true := by
      intro d hd
      refine hlast d ?_
      rw [List.getLast?_cons, hd]
      rfl
    have hself := ih hrest hchain hlast'
    cases hpc : p c with
    | true =>
      rw [runs_cons_of_pos hpc, List.cons_append, ← hself]
    | false =>
      rw [runs_cons_of_neg hpc, List.nil_append, hc hpc]
      cases ht : t with
      | nil =>
        rw [ht] at hlast
        have := hlast c rfl
        simp [hpc] at this
      | cons d s =>
        -- the element behind a separator begins a word
        have hd : p d = true := by
          rw [← Bool.not_eq_false]
          intro hd
          exact hnext d (by rw [ht]; rfl) ⟨hpc, hd⟩
        rw [ht] at hself
        rw [words, runs_cons_of_pos hd, collect_cons, List.flatMap_cons, List.cons_append]
        rw [runs_cons_of_pos hd] at hself
        exact congrArg (sep :: ·) hself

theorem eq_joined_words (hsep : ∀ c ∈ t, p c = false → c = sep)
    (hchain : t.IsChain fun a b => ¬ (p a = false ∧ p b = false))
    (hfirst : ∀ c ∈ t.head?, p c = true) (hlast : ∀ c ∈ t.getLast?, p c = true) :
    t = joined sep (words p t) := by
  cases t with
  | nil => rfl
  | cons c t =>
    have hc : p c = true := hfirst c rfl
    have hself := eq_run_append hsep hchain hlast
    rw [words, runs_cons_of_pos hc, collect_cons, joined]
    rw [runs_cons_of_pos hc] at hself
    exact hself

end Joined

end Words
