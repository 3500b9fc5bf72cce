import Mathlib.Logic.Function.Basic

/-! # Maps that keep the order of insertion

An association list in which each key comes once, in the order in which the keys
were first seen. `modify` changes the value of a key, from a default when the key is
new; `mapKeys` renames the keys. A renaming that confuses no two keys commutes with
everything here.
-/

namespace Ordered

universe u v w

variable {κ : Type u} {ι : Type w} {V : Type v}

/-- A map with its keys in the order of their insertion. -/
abbrev Map (κ : Type u) (V : Type v) := List (κ × V)

/-- Changes the value of a key, which is inserted with the default when it is new. -/
def modify [DecidableEq κ] (k : κ) (d : V) (f : V → V) : Map κ V → Map κ V
  | [] => [(k, f d)]
  | (k', v) :: m => if k' = k then (k', f v) :: m else (k', v) :: modify k d f m

/-- The value of a key. -/
def get? [DecidableEq κ] (k : κ) : Map κ V → Option V
  | [] => none
  | (k', v) :: m => if k' = k then some v else get? k m

/-- The keys renamed. -/
def mapKeys (f : κ → ι) (m : Map κ V) : Map ι V := m.map fun p => (f p.1, p.2)

@[simp] theorem mapKeys_nil (f : κ → ι) : mapKeys f ([] : Map κ V) = [] := rfl

@[simp] theorem mapKeys_cons (f : κ → ι) (p : κ × V) (m : Map κ V) :
    mapKeys f (p :: m) = (f p.1, p.2) :: mapKeys f m := rfl

variable [DecidableEq κ] [DecidableEq ι] {f : κ → ι}

theorem mapKeys_modify (hf : Function.Injective f) (k : κ) (d : V) (g : V → V) (m : Map κ V) :
    mapKeys f (modify k d g m) = modify (f k) d g (mapKeys f m) := by
  induction m with
  | nil => rfl
  | cons p m ih =>
    obtain ⟨k', v⟩ := p
    by_cases hk : k' = k
    · simp [modify, hk]
    · have hfk : f k' ≠ f k := fun h => hk (hf h)
      simp [modify, hk, hfk, ih]

theorem get?_mapKeys (hf : Function.Injective f) (k : κ) (m : Map κ V) :
    get? (f k) (mapKeys f m) = get? k m := by
  induction m with
  | nil => rfl
  | cons p m ih =>
    obtain ⟨k', v⟩ := p
    by_cases hk : k' = k
    · simp [get?, hk]
    · have hfk : f k' ≠ f k := fun h => hk (hf h)
      simp [get?, hk, hfk, ih]

omit [DecidableEq ι] in
theorem get?_mapValues {W : Type v} (g : V → W) (k : κ) (m : Map κ V) :
    get? k (m.map fun p => (p.1, g p.2)) = (get? k m).map g := by
  induction m with
  | nil => rfl
  | cons p m ih =>
    obtain ⟨k', v⟩ := p
    by_cases hk : k' = k
    · simp [get?, hk]
    · simp [get?, hk, ih]

omit [DecidableEq ι] in
theorem mem_of_get? {k : κ} {x : V} {m : Map κ V} (h : get? k m = some x) : (k, x) ∈ m := by
  induction m with
  | nil => cases h
  | cons p m ih =>
    obtain ⟨k', v⟩ := p
    simp only [get?] at h
    split at h
    · next hk =>
        cases h
        rw [hk]
        exact List.mem_cons_self
    · exact List.mem_cons_of_mem _ (ih h)

omit [DecidableEq ι] in
theorem mem_keys_modify {k : κ} {d : V} {g : V → V} {m : Map κ V} {p : κ × V}
    (h : p ∈ modify k d g m) : p.1 = k ∨ ∃ v, (p.1, v) ∈ m := by
  induction m with
  | nil =>
    simp only [modify, List.mem_singleton] at h
    exact Or.inl (by rw [h])
  | cons q m ih =>
    obtain ⟨k', v⟩ := q
    simp only [modify] at h
    split at h
    · next hk =>
        rcases List.mem_cons.1 h with rfl | hm
        · exact Or.inl hk
        · exact Or.inr ⟨p.2, List.mem_cons_of_mem _ hm⟩
    · rcases List.mem_cons.1 h with rfl | hm
      · exact Or.inr ⟨v, List.mem_cons_self⟩
      · rcases ih hm with hk | ⟨v', hv'⟩
        · exact Or.inl hk
        · exact Or.inr ⟨v', List.mem_cons_of_mem _ hv'⟩

omit [DecidableEq ι] in
theorem get?_modify {k k' : κ} {d : V} {g : V → V} {m : Map κ V} :
    get? k' (modify k d g m) = if k' = k then some (g ((get? k m).getD d)) else get? k' m := by
  induction m with
  | nil =>
    by_cases hk : k = k'
    · simp [modify, get?, hk]
    · have hk' : ¬ k' = k := fun h => hk h.symm
      simp [modify, get?, hk, hk']
  | cons p m ih =>
    obtain ⟨x, v⟩ := p
    by_cases hx : x = k
    · subst hx
      by_cases hk : x = k'
      · simp [modify, get?, hk]
      · have hk' : ¬ k' = x := fun h => hk h.symm
        simp [modify, get?, hk, hk']
    · by_cases hk : x = k'
      · subst hk
        simp [modify, get?, hx]
      · simp [modify, get?, hx, hk, ih]

omit [DecidableEq ι] in
theorem nodup_modify {k : κ} {d : V} {g : V → V} {m : Map κ V} (h : (m.map Prod.fst).Nodup) :
    ((modify k d g m).map Prod.fst).Nodup := by
  induction m with
  | nil => exact List.nodup_cons.2 ⟨List.not_mem_nil, List.nodup_nil⟩
  | cons p m ih =>
    obtain ⟨x, v⟩ := p
    obtain ⟨hx, hm⟩ := List.nodup_cons.1 h
    simp only [modify]
    split
    · exact List.nodup_cons.2 ⟨hx, hm⟩
    · next hne =>
        refine List.nodup_cons.2 ⟨?_, ih hm⟩
        intro hmem
        obtain ⟨p, hp, rfl⟩ := List.mem_map.1 hmem
        rcases mem_keys_modify hp with hk | ⟨v', hv'⟩
        · exact hne hk
        · exact hx (List.mem_map.2 ⟨_, hv', rfl⟩)

omit [DecidableEq ι] in
theorem get?_of_mem {k : κ} {x : V} {m : Map κ V} (h : (m.map Prod.fst).Nodup) (hmem : (k, x) ∈ m) :
    get? k m = some x := by
  induction m with
  | nil => cases hmem
  | cons p m ih =>
    obtain ⟨k', v⟩ := p
    obtain ⟨hk', hm⟩ := List.nodup_cons.1 h
    simp only [get?]
    rcases List.mem_cons.1 hmem with heq | hin
    · cases heq
      rw [if_pos rfl]
    · have hne : ¬ k' = k := by
        rintro rfl
        exact hk' (List.mem_map.2 ⟨_, hin, rfl⟩)
      rw [if_neg hne]
      exact ih hm hin

end Ordered
