import DgxPlatform.Lib.Table

/-! # A dictionary with a journal

A `Dict` is a table of pairs: the keys in the order they were first set, each with its
value. A `Journaled` dictionary also notes, for every key that is set, the value it had
before the first time, or that it was not there.

* `restore_put`: putting back what is noted undoes a `put`.
* `After`: what any number of `put`s leaves of a dictionary and its journal.
-/

universe u v

abbrev Dict (κ : Type u) (ν : Type v) := Table (κ × ν) (Prod.fst : κ × ν → κ)

namespace Dict

variable {κ : Type u} {ν : Type v}

def empty : Dict κ ν := ⟨[], List.nodup_nil⟩

def keys (d : Dict κ ν) : List κ := d.rows.map Prod.fst

theorem ext {d d' : Dict κ ν} (h : d.rows = d'.rows) : d = d' := by
  cases d
  cases d'
  congr

variable [DecidableEq κ] {d : Dict κ ν} {k k' : κ} {v : ν}

def get? (d : Dict κ ν) (k : κ) : Option ν := (d.find? k).map Prod.snd

/-- Sets the value in place, or appends the pair. -/
def set (d : Dict κ ν) (k : κ) (v : ν) : Dict κ ν := d.upsert (k, v) (fun r => (r.1, v)) fun _ => rfl

def remove (d : Dict κ ν) (k : κ) : Dict κ ν := d.delete fun r => decide (r.1 = k)

/-- Appends the pair unless the key is there. -/
def note (d : Dict κ ν) (k : κ) (v : ν) : Dict κ ν :=
  if h : d.find? k = none then d.insert (k, v) h else d

theorem find?_eq_none_iff : d.find? k = none ↔ k ∉ d.keys := by
  rw [Table.find?, List.find?_eq_none, keys, List.mem_map]
  constructor
  · rintro h ⟨r, hr, hk⟩
    exact h r hr (decide_eq_true hk)
  · intro h r hr hk
    exact h ⟨r, hr, of_decide_eq_true hk⟩

theorem get?_eq_none_iff : d.get? k = none ↔ k ∉ d.keys := by
  rw [get?, Option.map_eq_none_iff, find?_eq_none_iff]

theorem get?_of_mem (h : (k, v) ∈ d.rows) : d.get? k = some v := by
  have hfind : d.find? k = some (k, v) := Table.find?_of_mem h
  rw [get?, hfind]
  rfl

theorem mem_of_get? (h : d.get? k = some v) : (k, v) ∈ d.rows := by
  obtain ⟨r, hr, rfl⟩ := Option.map_eq_some_iff.1 h
  obtain rfl := Table.key_of_find? hr
  exact Table.mem_of_find? hr

theorem get?_set : (d.set k v).get? k' = if k' = k then some v else d.get? k' := by
  rw [get?, set, Table.find?_upsert]
  split_ifs with h
  · cases d.find? k <;> rfl
  · rfl

theorem get?_foldl_set (d : Dict κ ν) (rows : List (κ × ν)) (k : κ) :
    (rows.foldl (fun d r => d.set r.1 r.2) d).get? k =
      ((rows.filter fun r => r.1 = k).getLast?.map Prod.snd).or (d.get? k) := by
  induction rows generalizing d with
  | nil => rfl
  | cons r rows ih =>
    rw [List.foldl_cons, ih, get?_set]
    by_cases h : r.1 = k
    · rw [if_pos h.symm, List.filter_cons_of_pos (by simpa using h), List.getLast?_cons]
      cases (rows.filter fun r => r.1 = k).getLast? <;> rfl
    · rw [if_neg (Ne.symm h), List.filter_cons_of_neg (by simpa using h)]

theorem rows_set_of_mem (h : k ∈ d.keys) :
    (d.set k v).rows = d.rows.map fun r => if r.1 = k then (k, v) else r := by
  have hsome : d.find? k ≠ none := fun hnone => find?_eq_none_iff.1 hnone h
  rw [set, Table.upsert, dif_neg hsome, Table.update_rows]
  refine List.map_congr_left fun r _ => ?_
  split_ifs with hr
  · rw [hr]
  · rfl

theorem rows_set_of_notMem (h : k ∉ d.keys) : (d.set k v).rows = d.rows ++ [(k, v)] :=
  Table.upsert_rows_of_none (find?_eq_none_iff.2 h)

theorem mem_keys_set : k' ∈ (d.set k v).keys ↔ k' = k ∨ k' ∈ d.keys := by
  rw [← not_iff_not, ← get?_eq_none_iff, get?_set, not_or, ← get?_eq_none_iff]
  split_ifs with h
  · simp [h]
  · simp [h]

theorem rows_note (d : Dict κ ν) (k : κ) (v : ν) :
    (d.note k v).rows = if k ∈ d.keys then d.rows else d.rows ++ [(k, v)] := by
  unfold note
  split_ifs with hnone hmem hmem
  · exact absurd hmem (find?_eq_none_iff.1 hnone)
  · rfl
  · rfl
  · exact absurd (find?_eq_none_iff.2 hmem) hnone

theorem mem_keys_note : k' ∈ (d.note k v).keys ↔ k' = k ∨ k' ∈ d.keys := by
  rw [keys, rows_note]
  split_ifs with h
  · constructor
    · exact .inr
    · rintro (rfl | h')
      · exact h
      · exact h'
  · rw [List.map_append, List.mem_append, or_comm]
    simp [keys]

theorem mem_keys_remove : k' ∈ (d.remove k).keys ↔ k' ∈ d.keys ∧ k' ≠ k := by
  simp only [keys, remove, Table.delete, List.mem_map, List.mem_filter]
  constructor
  · rintro ⟨r, ⟨hr, hne⟩, rfl⟩
    exact ⟨⟨r, hr, rfl⟩, by simpa using hne⟩
  · rintro ⟨⟨r, hr, rfl⟩, hne⟩
    exact ⟨r, ⟨hr, by simpa using hne⟩, rfl⟩

end Dict

/-! ## The journal -/

/-- A dictionary and the first values of the keys that were set. -/
structure Journaled (κ : Type u) (ν : Type v) where
  dict : Dict κ ν
  journal : Dict κ (Option ν)
  /-- What was set is there. -/
  present : ∀ k ∈ journal.keys, k ∈ dict.keys

namespace Journaled

variable {κ : Type u} {ν : Type v}

/-- Nothing is noted yet. -/
def start (d : Dict κ ν) : Journaled κ ν := ⟨d, .empty, fun _ h => absurd h List.not_mem_nil⟩

variable [DecidableEq κ] {s s' s'' : Journaled κ ν} {d : Dict κ ν} {k : κ} {v : ν}

/-- Sets a value; the first time, what was there before is noted. -/
def put (s : Journaled κ ν) (k : κ) (v : ν) : Journaled κ ν where
  dict := s.dict.set k v
  journal := s.journal.note k (s.dict.get? k)
  present := by
    intro k' hk'
    rw [Dict.mem_keys_set]
    exact (Dict.mem_keys_note.1 hk').imp_right (s.present k')

/-- Puts one noted value back. -/
def undo (d : Dict κ ν) : κ × Option ν → Dict κ ν
  | (k, some v) => d.set k v
  | (k, none) => d.remove k

/-- Puts everything back that is noted. -/
def restore (s : Journaled κ ν) : Dict κ ν := s.journal.rows.foldl undo s.dict

@[simp] theorem restore_start (d : Dict κ ν) : (start d).restore = d := rfl

/-! ### Putting back, pair by pair -/

/-- What becomes of one pair. -/
def rewind : List (κ × Option ν) → κ × ν → Option (κ × ν)
  | [], r => some r
  | (k, v) :: l, r => if r.1 = k then v.map (Prod.mk k) else rewind l r

variable {l : List (κ × Option ν)}

theorem rewind_of_notMem {r : κ × ν} (h : r.1 ∉ l.map Prod.fst) : rewind l r = some r := by
  induction l with
  | nil => rfl
  | cons e l ih =>
    rw [List.map_cons, List.mem_cons, not_or] at h
    rw [rewind, if_neg h.1]
    exact ih h.2

/-- A value that is put back does not depend on the one that is there. -/
theorem rewind_of_mem (h : k ∈ l.map Prod.fst) (v v' : ν) : rewind l (k, v) = rewind l (k, v') := by
  induction l with
  | nil => cases h
  | cons e l ih =>
    rw [rewind, rewind]
    by_cases hk : k = e.1
    · rw [if_pos hk, if_pos hk]
    · rw [if_neg hk, if_neg hk]
      exact ih ((List.mem_cons.1 h).resolve_left hk)

theorem rewind_concat {e : κ × Option ν} {r : κ × ν} (h : e.1 ∉ l.map Prod.fst) :
    rewind (l ++ [e]) r = if r.1 = e.1 then e.2.map (Prod.mk e.1) else rewind l r := by
  induction l with
  | nil => rfl
  | cons e' l ih =>
    rw [List.map_cons, List.mem_cons, not_or] at h
    rw [List.cons_append, rewind, rewind, ih h.2]
    by_cases hr : r.1 = e.1
    · have hne : ¬ r.1 = e'.1 := fun heq => h.1 (hr.symm.trans heq)
      rw [if_neg hne, if_pos hr, if_pos hr]
    · rw [if_neg hr, if_neg hr]

theorem rows_foldl_undo (hl : (l.map Prod.fst).Nodup) (hd : ∀ k ∈ l.map Prod.fst, k ∈ d.keys) :
    (l.foldl undo d).rows = d.rows.filterMap (rewind l) := by
  induction l generalizing d with
  | nil => exact List.filterMap_some.symm
  | cons e l ih =>
    obtain ⟨k, v⟩ := e
    obtain ⟨hk, htail⟩ := List.nodup_cons.1 hl
    obtain ⟨hkd, hkeys⟩ := List.forall_mem_cons.1 hd
    rw [List.foldl_cons]
    cases v with
    | some v =>
      rw [undo, ih htail (fun k' hk' => Dict.mem_keys_set.2 (.inr (hkeys k' hk'))),
        Dict.rows_set_of_mem hkd, List.filterMap_map]
      refine List.filterMap_congr fun r _ => ?_
      rw [Function.comp_apply, rewind]
      split_ifs with hr
      · exact rewind_of_notMem hk
      · rfl
    | none =>
      have hleft : ∀ k' ∈ l.map Prod.fst, k' ∈ (d.remove k).keys := by
        intro k' hk'
        refine Dict.mem_keys_remove.2 ⟨hkeys k' hk', ?_⟩
        rintro rfl
        exact hk hk'
      rw [undo, ih htail hleft]
      show (d.rows.filter _).filterMap _ = _
      rw [List.filterMap_filter]
      refine List.filterMap_congr fun r _ => ?_
      rw [rewind]
      by_cases hr : r.1 = k
      · simp [hr]
      · simp [hr]

theorem rows_restore (s : Journaled κ ν) :
    s.restore.rows = s.dict.rows.filterMap (rewind s.journal.rows) :=
  rows_foldl_undo s.journal.nodup s.present

/-! ### One `put` -/

theorem rows_journal_put (s : Journaled κ ν) (k : κ) (v : ν) :
    (s.put k v).journal.rows =
      if k ∈ s.journal.keys then s.journal.rows else s.journal.rows ++ [(k, s.dict.get? k)] :=
  Dict.rows_note s.journal k (s.dict.get? k)

theorem restore_put (s : Journaled κ ν) (k : κ) (v : ν) : (s.put k v).restore = s.restore := by
  refine Dict.ext ?_
  rw [rows_restore, rows_restore, rows_journal_put]
  show (s.dict.set k v).rows.filterMap _ = _
  split_ifs with hnoted
  · -- the key is noted already: its value is put back, whichever it is now
    rw [Dict.rows_set_of_mem (s.present k hnoted), List.filterMap_map]
    refine List.filterMap_congr fun r _ => ?_
    rw [Function.comp_apply]
    split_ifs with hr
    · rw [rewind_of_mem hnoted v r.2, ← hr]
    · rfl
  · by_cases hmem : k ∈ s.dict.keys
    · rw [Dict.rows_set_of_mem hmem, List.filterMap_map]
      refine List.filterMap_congr fun r hr => ?_
      rw [Function.comp_apply, rewind_concat hnoted]
      by_cases hk : r.1 = k
      · -- the value that was overwritten is the one that is noted
        obtain rfl := hk
        have hold : s.dict.get? r.1 = some r.2 := Dict.get?_of_mem hr
        rw [if_pos rfl, if_pos rfl, hold, rewind_of_notMem hnoted]
        rfl
      · rw [if_neg hk, if_neg hk]
    · -- the new pair is taken off again, the others are not touched
      rw [Dict.rows_set_of_notMem hmem, List.filterMap_append]
      have hnew : [(k, v)].filterMap (rewind (s.journal.rows ++ [(k, s.dict.get? k)])) = [] := by
        rw [List.filterMap_cons, rewind_concat hnoted, if_pos rfl, Dict.get?_eq_none_iff.2 hmem]
        rfl
      rw [hnew, List.append_nil]
      refine List.filterMap_congr fun r hr => ?_
      have hne : ¬ r.1 = k := by
        rintro rfl
        exact hmem (List.mem_map.2 ⟨r, hr, rfl⟩)
      rw [rewind_concat hnoted, if_neg hne]

/-! ### Any number of them -/

/-- What any number of `put`s leaves. -/
structure After (s s' : Journaled κ ν) : Prop where
  /-- The journal is continued by what the keys had at first. -/
  noted : ∃ new, s'.journal.rows = s.journal.rows ++ new ∧ ∀ e ∈ new, e.2 = s.dict.get? e.1
  untouched : ∀ k, k ∉ s'.journal.keys → s'.dict.get? k = s.dict.get? k
  restored : s'.restore = s.restore

theorem After.refl (s : Journaled κ ν) : After s s where
  noted := ⟨[], (List.append_nil _).symm, fun _ h => absurd h List.not_mem_nil⟩
  untouched := fun _ _ => rfl
  restored := rfl

theorem After.put (s : Journaled κ ν) (k : κ) (v : ν) : After s (s.put k v) where
  noted := by
    rw [rows_journal_put]
    split_ifs with h
    · exact ⟨[], (List.append_nil _).symm, fun _ h => absurd h List.not_mem_nil⟩
    · refine ⟨[(k, s.dict.get? k)], rfl, fun e he => ?_⟩
      rw [List.mem_singleton.1 he]
  untouched := by
    intro k' hk'
    have hne : ¬ k' = k := fun heq => hk' (Dict.mem_keys_note.2 (.inl heq))
    show (s.dict.set k v).get? k' = s.dict.get? k'
    rw [Dict.get?_set, if_neg hne]
  restored := restore_put s k v

theorem After.mem_keys (h : After s s') (hk : k ∈ s.journal.keys) : k ∈ s'.journal.keys := by
  obtain ⟨new, hnew, -⟩ := h.noted
  rw [Dict.keys, hnew, List.map_append]
  exact List.mem_append_left _ hk

theorem After.trans (h : After s s') (h' : After s' s'') : After s s'' where
  noted := by
    obtain ⟨new, hnew, hfirst⟩ := h.noted
    obtain ⟨new', hnew', hfirst'⟩ := h'.noted
    refine ⟨new ++ new', by rw [hnew', hnew, List.append_assoc], ?_⟩
    intro e he
    rcases List.mem_append.1 he with he | he
    · exact hfirst e he
    · -- a key that is noted only now was not touched before
      have hkey : e.1 ∉ s'.journal.keys := by
        intro hmem
        have hnodup := s''.journal.nodup
        rw [hnew', List.map_append, List.nodup_append] at hnodup
        exact hnodup.2.2 e.1 hmem e.1 (List.mem_map.2 ⟨e, he, rfl⟩) rfl
      rw [hfirst' e he, h.untouched e.1 hkey]
  untouched := by
    intro k hk
    rw [h'.untouched k hk, h.untouched k fun hmem => hk (h'.mem_keys hmem)]
  restored := h'.restored.trans h.restored

/-- The keys whose value is no longer the noted one, in the order they were noted. -/
def changed [DecidableEq ν] (s : Journaled κ ν) : List κ :=
  (s.journal.rows.filter fun e => s.dict.get? e.1 ≠ e.2).map Prod.fst

/-- From an empty journal on these are the keys whose value has changed. -/
theorem mem_changed_iff [DecidableEq ν] (h : After (start d) s) :
    k ∈ s.changed ↔ s.dict.get? k ≠ d.get? k := by
  obtain ⟨new, hnew, hfirst⟩ := h.noted
  have hrows : s.journal.rows = new := hnew
  rw [changed, List.mem_map]
  constructor
  · rintro ⟨e, he, rfl⟩
    obtain ⟨hmem, hne⟩ := List.mem_filter.1 he
    have hold : e.2 = d.get? e.1 := hfirst e (hrows ▸ hmem)
    rw [← hold]
    exact of_decide_eq_true hne
  · intro hne
    have hkey : k ∈ s.journal.keys := by
      by_contra hnot
      exact hne (h.untouched k hnot)
    obtain ⟨e, he, rfl⟩ := List.mem_map.1 hkey
    have hold : e.2 = d.get? e.1 := hfirst e (hrows ▸ he)
    exact ⟨e, List.mem_filter.2 ⟨he, decide_eq_true (by rwa [hold])⟩, rfl⟩

end Journaled
