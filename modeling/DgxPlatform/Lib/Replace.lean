import DgxPlatform.Lib.Framing

/-! # Replacing a word

Every occurrence of a word in a sequence is replaced by another word, from the
left, and the search goes on behind what it has replaced.

* `word_induction`: a sequence as the replacement reads it, a word or an element at a time.
* `replace_append_cons`: an element that is not in the word divides the work.
* `prefix_replace_iff`: what stands before an element that both words have is kept.
* `replace_eq_self_iff`: with a longer word, only a sequence without the word stays as it is.
* `split_replace`: a separator that shares nothing with the words cuts the same parts.
-/

namespace Replace

variable {α : Type*} [DecidableEq α] {w r a b t sep u v v' : List α} {c q : α}

/-- The first `skip` elements belong to a word that has been replaced. -/
def replaceFrom (w r : List α) : Nat → List α → List α
  | _, [] => []
  | skip + 1, _ :: t => replaceFrom w r skip t
  | 0, c :: t =>
      if w <+: c :: t then r ++ replaceFrom w r (w.length - 1) t
      else c :: replaceFrom w r 0 t

def replace (w r t : List α) : List α := replaceFrom w r 0 t

@[simp] theorem replace_nil : replace w r [] = [] := rfl

theorem replaceFrom_eq (skip : Nat) (t : List α) :
    replaceFrom w r skip t = replace w r (t.drop skip) := by
  induction t generalizing skip with
  | nil => cases skip <;> rfl
  | cons c t ih =>
    cases skip with
    | zero => rfl
    | succ skip => exact ih skip

/-! ## One step -/

theorem replace_word (hw : w ≠ []) (t : List α) : replace w r (w ++ t) = r ++ replace w r t := by
  obtain ⟨c, rest, rfl⟩ := List.exists_cons_of_ne_nil hw
  have hp : (c :: rest) <+: c :: (rest ++ t) := List.prefix_append (c :: rest) t
  rw [List.cons_append, replace, replaceFrom, if_pos hp, replaceFrom_eq]
  simp

theorem replace_cons (h : ¬ w <+: c :: t) : replace w r (c :: t) = c :: replace w r t := by
  rw [replace, replaceFrom, if_neg h, replace]

@[elab_as_elim]
theorem word_induction {motive : List α → Prop} (hw : w ≠ []) (t : List α) (nil : motive [])
    (word : ∀ t, motive t → motive (w ++ t))
    (other : ∀ c t, ¬ w <+: c :: t → motive t → motive (c :: t)) : motive t := by
  induction hn : t.length using Nat.strong_induction_on generalizing t with
  | _ n ih =>
    subst hn
    cases t with
    | nil => exact nil
    | cons c t =>
      by_cases hp : w <+: c :: t
      · obtain ⟨rest, hrest⟩ := hp
        have hpos := List.length_pos_iff.2 hw
        have hlen := congrArg List.length hrest
        rw [List.length_append] at hlen
        rw [← hrest]
        exact word rest (ih rest.length (by omega) rest rfl)
      · exact other c t hp (ih t.length (by simp) t rfl)

/-! ## Where nothing is replaced -/

theorem replace_eq_self (h : ¬ w <:+: t) : replace w r t = t := by
  induction t with
  | nil => rfl
  | cons c t ih =>
    rw [replace_cons fun hp => h hp.isInfix,
      ih fun hin => h (hin.trans (List.suffix_cons c t).isInfix)]

theorem length_replace_le (hw : w ≠ []) (hlen : w.length ≤ r.length) (t : List α) :
    t.length ≤ (replace w r t).length := by
  induction t using word_induction hw with
  | nil => exact Nat.le_refl 0
  | word t ih =>
    rw [replace_word hw]
    simp only [List.length_append]
    omega
  | other c t h ih =>
    rw [replace_cons h]
    simpa using ih

theorem replace_eq_self_iff (hw : w ≠ []) (hlen : w.length < r.length) :
    replace w r t = t ↔ ¬ w <:+: t := by
  refine ⟨?_, replace_eq_self⟩
  induction t using word_induction hw with
  | nil =>
    intro _ hin
    exact hw (List.infix_nil.1 hin)
  | word t ih =>
    intro heq
    have hle := length_replace_le hw hlen.le t
    have hsame := congrArg List.length heq
    rw [replace_word hw] at hsame
    simp only [List.length_append] at hsame
    omega
  | other c t h ih =>
    intro heq hin
    rw [replace_cons h] at heq
    rcases List.infix_cons_iff.1 hin with hp | hin
    · exact h hp
    · exact ih (List.cons.inj heq).2 hin

/-! ## Elements that are not in the word -/

theorem replace_append_cons (hw : w ≠ []) (h : c ∉ w) (a b : List α) :
    replace w r (a ++ c :: b) = replace w r a ++ c :: replace w r b := by
  induction a using word_induction hw with
  | nil =>
    have hno : ¬ w <+: c :: b := fun hp =>
      hw (List.prefix_nil.1 ((Framing.prefix_append_cons_iff h [] b).1 hp))
    rw [List.nil_append, replace_cons hno]
    rfl
  | word a ih => rw [List.append_assoc, replace_word hw, replace_word hw, ih, List.append_assoc]
  | other x a hno ih =>
    have hno' : ¬ w <+: x :: (a ++ c :: b) := fun hp =>
      hno ((Framing.prefix_append_cons_iff h (x :: a) b).1 hp)
    rw [List.cons_append, replace_cons hno', replace_cons hno, ih, List.cons_append]

theorem replace_append_of_not_mem (hw : w ≠ []) {s : List α} (h : ∀ x ∈ s, x ∉ w) (b : List α) :
    replace w r (s ++ b) = s ++ replace w r b := by
  induction s with
  | nil => rfl
  | cons x s ih =>
    rw [List.forall_mem_cons] at h
    have hx := replace_append_cons (r := r) hw h.1 [] (s ++ b)
    rw [List.cons_append, show x :: (s ++ b) = [] ++ x :: (s ++ b) from rfl, hx, ih h.2]
    rfl

theorem replace_append_of_head {s : List α} (h : q ∉ s) : replace (q :: v) r (s ++ t) = s ++ replace (q :: v) r t := by
  induction s with
  | nil => rfl
  | cons x s ih =>
    rw [List.mem_cons, not_or] at h
    have hno : ¬ q :: v <+: x :: (s ++ t) := fun hp => h.1 (List.cons_prefix_cons.1 hp).1
    rw [List.cons_append, replace_cons hno, ih h.2, List.cons_append]

/-! ## An element that both words have -/

omit [DecidableEq α] in
/-- A beginning that ends before it can only be a beginning of what both words start with. -/
theorem prefix_append_cons_of_not_mem (hq : q ∉ sep) (u v t : List α) :
    sep <+: u ++ q :: v ++ t ↔ sep <+: u := by
  rw [List.append_assoc, List.cons_append]
  exact Framing.prefix_append_cons_iff hq u (v ++ t)

theorem prefix_replace_iff (hw : w = u ++ q :: v) (hr : r = u ++ q :: v') (hq : q ∉ sep) (t : List α) :
    sep <+: replace w r t ↔ sep <+: t := by
  have hne : w ≠ [] := by
    rw [hw]
    simp
  induction sep generalizing t with
  | nil => simp
  | cons x sep ih =>
    rw [List.mem_cons, not_or] at hq
    by_cases hp : w <+: t
    · obtain ⟨rest, rfl⟩ := hp
      have hmem : q ∉ x :: sep := by
        rw [List.mem_cons, not_or]
        exact hq
      rw [replace_word hne, hr, hw, prefix_append_cons_of_not_mem hmem,
        prefix_append_cons_of_not_mem hmem]
    · cases t with
      | nil => rfl
      | cons c t =>
        rw [replace_cons hp, List.cons_prefix_cons, List.cons_prefix_cons]
        exact and_congr_right' (ih hq.2 t)

/-- A word behind elements that are not the first `q` of it is found. -/
theorem replace_append_word (hw : w = u ++ q :: v) (hu : q ∉ u) (ha : q ∉ a) (t : List α) :
    replace w r (a ++ (w ++ t)) = a ++ (r ++ replace w r t) := by
  have hne : w ≠ [] := by
    rw [hw]
    simp
  induction a with
  | nil => exact replace_word hne t
  | cons c a ih =>
    rw [List.mem_cons, not_or] at ha
    have hno : ¬ w <+: c :: (a ++ (w ++ t)) := by
      intro hp
      obtain ⟨rest, hrest⟩ := hp
      -- the first `q` of the word would come too early
      have hsplit : u ++ q :: (v ++ rest) = (c :: (a ++ u)) ++ q :: (v ++ t) := by
        rw [hw] at hrest
        simpa using hrest
      have hfront : q ∉ c :: (a ++ u) := by
        simp only [List.mem_cons, List.mem_append, not_or]
        exact ⟨ha.1, ha.2, hu⟩
      have heq := (Framing.eq_of_first hu hfront hsplit).1
      have hlen := congrArg List.length heq
      simp only [List.length_cons, List.length_append] at hlen
      omega
    rw [List.cons_append, replace_cons hno, ih ha.2, List.cons_append]

/-! ## A separator -/

theorem cut_replace (hw : w = u ++ q :: v) (hr : r = u ++ q :: v') (hsep : sep ≠ [])
    (hfresh : ∀ x ∈ sep, x ∉ w ∧ x ∉ r) (t : List α) :
    Framing.cut sep (replace w r t) =
      (Framing.cut sep t).map fun p => (replace w r p.1, replace w r p.2) := by
  have hne : w ≠ [] := by
    rw [hw]
    simp
  have hq : q ∉ sep := by
    intro hmem
    apply (hfresh q hmem).1
    rw [hw]
    simp
  obtain ⟨x, rest, rfl⟩ := List.exists_cons_of_ne_nil hsep
  have hx := hfresh x List.mem_cons_self
  induction t using word_induction hne with
  | nil => rfl
  | word t ih =>
    rw [replace_word hne, Framing.cut_append_of_not_mem hx.2, Framing.cut_append_of_not_mem hx.1, ih,
      Option.map_map, Option.map_map]
    congr 1
    funext p
    simp only [Function.comp, replace_word hne]
  | other c t hno ih =>
    rw [replace_cons hno, Framing.cut, Framing.cut]
    have hiff : x :: rest <+: replace w r (c :: t) ↔ x :: rest <+: c :: t :=
      prefix_replace_iff hw hr hq (c :: t)
    rw [replace_cons hno] at hiff
    by_cases hp : x :: rest <+: c :: t
    · rw [if_pos hp, if_pos (hiff.2 hp)]
      obtain ⟨b, hb⟩ := hp
      rw [← replace_cons (r := r) hno, ← hb,
        replace_append_of_not_mem hne fun y hy => (hfresh y hy).1]
      simp
    · rw [if_neg hp, if_neg fun h => hp (hiff.1 h), ih]
      cases hc : Framing.cut (x :: rest) t with
      | none => rfl
      | some p =>
        -- what is cut off is a beginning of the rest, so no word begins with `c` there either
        have hpre : c :: p.1 <+: c :: t := by
          rw [Framing.eq_of_cut (a := p.1) (b := p.2) hc, List.append_assoc]
          simp
        have hno' : ¬ w <+: c :: p.1 := fun h => hno (h.trans hpre)
        simp only [Option.map_some, replace_cons hno']

theorem split_replace (hw : w = u ++ q :: v) (hr : r = u ++ q :: v') (hsep : sep ≠ [])
    (hfresh : ∀ x ∈ sep, x ∉ w ∧ x ∉ r) (t : List α) :
    Framing.split sep (replace w r t) = (Framing.split sep t).map (replace w r) := by
  induction hn : t.length using Nat.strong_induction_on generalizing t with
  | _ n ih =>
    subst hn
    have hcut := cut_replace hw hr hsep hfresh t
    cases hc : Framing.cut sep t with
    | none =>
      rw [hc] at hcut
      rw [Framing.split, Framing.split, Framing.frames_of_none hcut, Framing.frames_of_none hc]
      rfl
    | some p =>
      rw [hc] at hcut
      have hrest := ih p.2.length (Framing.length_lt_of_cut (a := p.1) (b := p.2) hsep hc) p.2 rfl
      rw [Framing.split, Framing.split] at hrest ⊢
      rw [Framing.frames_of_some (a := replace w r p.1) (b := replace w r p.2) hsep hcut,
        Framing.frames_of_some (a := p.1) (b := p.2) hsep hc]
      simpa using hrest

end Replace
