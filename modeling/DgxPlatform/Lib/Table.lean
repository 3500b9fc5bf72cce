import Mathlib.Algebra.BigOperators.Group.List.Basic
import Mathlib.Data.List.Nodup
import Mathlib.Data.List.Sort
import Mathlib.Tactic.Abel

/-! # A table with a primary key

Rows in the order they were inserted, no two with the same key: the key's
uniqueness is a field, so a table that breaks it cannot be built.

* `find?` is `SELECT … WHERE key = k`, `updateWhere` and `delete` are `UPDATE`
  and `DELETE` with any condition, `update` is `UPDATE … WHERE key = k`.
* `insert` needs a key that is not taken, `upsert` is
  `INSERT … ON CONFLICT(key) DO UPDATE`.
* `keepNewest` is `DELETE … WHERE key NOT IN (SELECT key … ORDER BY rank DESC
  LIMIT n)`.
* `find?` after an update, an insertion or an upsert says what the table then
  holds; `sum` adds up a weight of the rows.
-/

universe u v w

/-- Rows with pairwise different keys. -/
structure Table (ρ : Type u) {κ : Type v} (key : ρ → κ) where
  rows : List ρ
  nodup : (rows.map key).Nodup

namespace Table

variable {ρ : Type u} {κ : Type v} [DecidableEq κ] {key : ρ → κ}

/-- The table without a row. -/
def empty : Table ρ key := ⟨[], List.nodup_nil⟩

def find? (t : Table ρ key) (k : κ) : Option ρ := t.rows.find? fun r => key r = k

/-- Replaces every row that satisfies `p` by what `f` makes of it; `f` does not
touch the key. -/
def updateWhere (t : Table ρ key) (p : ρ → Bool) (f : ρ → ρ) (hf : ∀ r, key (f r) = key r) :
    Table ρ key where
  rows := t.rows.map fun r => if p r then f r else r
  nodup := by
    have hkeys : (t.rows.map fun r => if p r then f r else r).map key = t.rows.map key := by
      rw [List.map_map]
      refine List.map_congr_left fun r _ => ?_
      simp only [Function.comp_apply]
      split
      · exact hf r
      · rfl
    rw [hkeys]
    exact t.nodup

/-- Replaces the row of key `k`, if there is one. -/
def update (t : Table ρ key) (k : κ) (f : ρ → ρ) (hf : ∀ r, key (f r) = key r) : Table ρ key :=
  t.updateWhere (fun r => key r = k) f hf

/-- Drops every row that satisfies `p`. -/
def delete (t : Table ρ key) (p : ρ → Bool) : Table ρ key where
  rows := t.rows.filter fun r => !p r
  nodup := t.nodup.sublist (List.filter_sublist.map key)

/-- Adds a row whose key is not taken. -/
def insert (t : Table ρ key) (r : ρ) (h : t.find? (key r) = none) : Table ρ key where
  rows := t.rows ++ [r]
  nodup := by
    rw [List.map_append, List.nodup_append]
    refine ⟨t.nodup, by simp, ?_⟩
    intro a ha b hb hab
    rcases List.mem_map.1 ha with ⟨q, hq, rfl⟩
    have hkey : key q = key r := hab.trans (by simpa using hb)
    simpa [hkey] using List.find?_eq_none.1 h q hq

/-- Adds the row `r`, or updates the one that has its key. -/
def upsert (t : Table ρ key) (r : ρ) (f : ρ → ρ) (hf : ∀ q, key (f q) = key q) : Table ρ key :=
  if h : t.find? (key r) = none then t.insert r h else t.update (key r) f hf

variable {t : Table ρ key} {k k' : κ} {f : ρ → ρ} {hf : ∀ r, key (f r) = key r}

theorem update_rows : (t.update k f hf).rows = t.rows.map fun r => if key r = k then f r else r := by
  simp [update, updateWhere]

variable {r : ρ}

theorem key_of_find? (h : t.find? k = some r) : key r = k := by
  simpa using List.find?_some h

theorem mem_of_find? (h : t.find? k = some r) : r ∈ t.rows :=
  List.mem_of_find?_eq_some h

theorem find?_of_mem (hr : r ∈ t.rows) : t.find? (key r) = some r := by
  have hsome : (t.find? (key r)).isSome := List.find?_isSome.2 ⟨r, hr, by simp⟩
  rcases Option.isSome_iff_exists.1 hsome with ⟨q, hq⟩
  rw [hq, List.inj_on_of_nodup_map t.nodup (mem_of_find? hq) hr (key_of_find? hq)]

/-- After an update, the row of key `k` is the updated one, every other row is
as before. -/
theorem find?_update : (t.update k f hf).find? k' = if k' = k then (t.find? k).map f else t.find? k' := by
  have hsome : ∀ rows : List ρ, (rows.map fun r => if key r = k then f r else r).find?
      (fun r => key r = k') =
      if k' = k then (rows.find? fun r => key r = k).map f else rows.find? fun r => key r = k' := by
    intro rows
    induction rows with
    | nil => simp
    | cons r rows ih =>
      rw [List.map_cons, List.find?_cons, ih]
      by_cases hr : key r = k
      · by_cases hk : k' = k
        · subst hk; simp [hr, hf]
        · have hkk : k ≠ k' := fun e => hk e.symm
          simp [hr, hf, hk, hkk]
      · by_cases hk : k' = k
        · subst hk; simp [hr]
        · simp [hr, hk, List.find?_cons]
  unfold find?
  rw [update_rows]
  exact hsome t.rows

variable {p : ρ → Bool}

theorem find?_updateWhere :
    (t.updateWhere p f hf).find? k = (t.find? k).map fun r => if p r then f r else r := by
  have hkey : (fun r => decide (key r = k)) ∘ (fun r => if p r then f r else r) =
      fun r => decide (key r = k) := by
    funext r
    simp only [Function.comp_apply]
    split
    · rw [hf]
    · rfl
  show (t.rows.map fun r => if p r then f r else r).find? (fun r => key r = k) = _
  rw [List.find?_map, hkey]
  rfl

theorem find?_insert (h : t.find? (key r) = none) :
    (t.insert r h).find? k = if k = key r then some r else t.find? k := by
  show (t.rows ++ [r]).find? (fun q => key q = k) = _
  rw [List.find?_append]
  by_cases hk : k = key r
  · subst hk
    have hnone : t.rows.find? (fun q => key q = key r) = none := h
    simp [hnone]
  · have hkr : key r ≠ k := fun e => hk e.symm
    simp [hk, hkr, find?]

theorem find?_upsert : (t.upsert r f hf).find? k =
      if k = key r then some (((t.find? (key r)).map f).getD r) else t.find? k := by
  unfold upsert
  split
  · next h => rw [find?_insert, h, Option.map_none, Option.getD_none]
  · next h =>
      rcases Option.ne_none_iff_exists'.1 h with ⟨q, hq⟩
      rw [find?_update, hq, Option.map_some, Option.getD_some]

theorem upsert_rows_of_none (h : t.find? (key r) = none) : (t.upsert r f hf).rows = t.rows ++ [r] := by
  unfold upsert
  rw [dif_pos h]
  rfl

theorem find?_delete (hr : t.find? k = some r) (hp : p r = false) : (t.delete p).find? k = some r := by
  have hmem : r ∈ (t.delete p).rows := List.mem_filter.2 ⟨mem_of_find? hr, by simp [hp]⟩
  have hfind := find?_of_mem hmem
  rwa [key_of_find? hr] at hfind

theorem find?_of_delete (hr : (t.delete p).find? k = some r) : t.find? k = some r ∧ p r = false := by
  obtain ⟨hmem, hp⟩ := List.mem_filter.1 (mem_of_find? hr)
  have hfind := find?_of_mem hmem
  rw [key_of_find? hr] at hfind
  exact ⟨hfind, by simpa using hp⟩

/-- The keys of the `n` rows of highest rank. -/
def newest (t : Table ρ key) (rank : ρ → Nat) (n : Nat) : List κ :=
  ((t.rows.insertionSort fun a b => rank b ≤ rank a).take n).map key

/-- Drops all but the `n` rows of highest rank. -/
def keepNewest (t : Table ρ key) (rank : ρ → Nat) (n : Nat) : Table ρ key :=
  t.delete fun r => decide (key r ∉ t.newest rank n)

variable {rank : ρ → Nat}

/-- In a list sorted by falling rank, a row is among the first if few rows have its
rank at least. -/
theorem mem_take_of_few {n : Nat} {sorted : List ρ}
    (hsort : sorted.Pairwise fun a b => rank b ≤ rank a) (hmem : r ∈ sorted)
    (hfew : (sorted.filter fun q => rank r ≤ rank q).length ≤ n) : r ∈ sorted.take n := by
  rw [← List.take_append_drop n sorted] at hmem hsort hfew
  rcases List.mem_append.1 hmem with htake | hdrop
  · exact htake
  · exfalso
    -- all that stands before `r` has its rank at least, and so has `r`
    have hbefore : (sorted.take n).filter (fun q => decide (rank r ≤ rank q)) = sorted.take n := by
      rw [List.filter_eq_self]
      intro q hq
      exact decide_eq_true ((List.pairwise_append.1 hsort).2.2 q hq r hdrop)
    have hself : r ∈ (sorted.drop n).filter fun q => decide (rank r ≤ rank q) :=
      List.mem_filter.2 ⟨hdrop, decide_eq_true (Nat.le_refl _)⟩
    have hpos := List.length_pos_of_mem hself
    have hlong : 0 < (sorted.drop n).length := List.length_pos_of_mem hdrop
    rw [List.filter_append, List.length_append, hbefore, List.length_take] at hfew
    rw [List.length_drop] at hlong
    omega

/-- A row is kept if all rows of its rank at least have their keys in a short list. -/
theorem find?_keepNewest_of_keys {n : Nat} {keys : List κ}
    (hr : t.find? k = some r) (hkeys : ∀ q ∈ t.rows, rank r ≤ rank q → key q ∈ keys)
    (hlen : keys.length ≤ n) : (t.keepNewest rank n).find? k = some r := by
  have hperm := List.perm_insertionSort (fun a b : ρ => rank b ≤ rank a) t.rows
  have hsort : (t.rows.insertionSort fun a b => rank b ≤ rank a).Pairwise
      fun a b => rank b ≤ rank a := by
    have : Std.Total fun a b : ρ => rank b ≤ rank a := ⟨fun a b => Nat.le_total (rank b) (rank a)⟩
    have : IsTrans ρ fun a b => rank b ≤ rank a := ⟨fun a b c h h' => Nat.le_trans h' h⟩
    exact List.pairwise_insertionSort _ t.rows
  -- the keys of these rows differ, so there are not more rows than keys
  have hfew : (t.rows.filter fun q => rank r ≤ rank q).length ≤ keys.length := by
    have hnodup : ((t.rows.filter fun q => rank r ≤ rank q).map key).Nodup :=
      t.nodup.sublist (List.filter_sublist.map key)
    have hsub : (t.rows.filter fun q => rank r ≤ rank q).map key ⊆ keys := by
      intro j hj
      obtain ⟨q, hq, rfl⟩ := List.mem_map.1 hj
      obtain ⟨hmem, hle⟩ := List.mem_filter.1 hq
      exact hkeys q hmem (of_decide_eq_true hle)
    have hlength := (List.subperm_of_subset hnodup hsub).length_le
    rwa [List.length_map] at hlength
  have htake : r ∈ (t.rows.insertionSort fun a b => rank b ≤ rank a).take n := by
    refine mem_take_of_few hsort (hperm.mem_iff.2 (mem_of_find? hr)) ?_
    rw [(hperm.filter _).length_eq]
    exact Nat.le_trans hfew hlen
  have hnewest : key r ∈ t.newest rank n := List.mem_map_of_mem htake
  exact find?_delete hr (by simp [hnewest])

theorem find?_keepNewest {n : Nat} (hr : t.find? k = some r)
    (hmax : ∀ q ∈ t.rows, key q ≠ k → rank q < rank r) (hn : 0 < n) :
    (t.keepNewest rank n).find? k = some r := by
  refine find?_keepNewest_of_keys hr (fun q hq hle => ?_ : ∀ q ∈ t.rows, _ → key q ∈ [k]) hn
  by_contra hne
  have hlt := hmax q hq fun hkey => hne (List.mem_singleton.2 hkey)
  omega

@[simp] theorem isSome_find?_update :
    ((t.update k f hf).find? k').isSome = (t.find? k').isSome := by
  rw [find?_update]
  split
  · next h => rw [Option.isSome_map, h]
  · rfl

/-- The weight of all rows together. -/
def sum {M : Type w} [AddCommMonoid M] (t : Table ρ key) (weight : ρ → M) : M :=
  (t.rows.map weight).sum

/-- An update that keeps the weight of the row of key `k` keeps the sum. -/
theorem sum_update_of_eq {M : Type w} [AddCommMonoid M] (hf : ∀ r, key (f r) = key r) (weight : ρ → M)
    (h : ∀ r, t.find? k = some r → weight (f r) = weight r) :
    (t.update k f hf).sum weight = t.sum weight := by
  unfold sum
  rw [update_rows, List.map_map]
  refine congrArg List.sum (List.map_congr_left fun r hr => ?_)
  by_cases hk : key r = k
  · subst hk
    simpa using h r (find?_of_mem hr)
  · simp [hk]

/-- An update exchanges the weight of the row of key `k` before for its weight
after: no other row has this key. -/
theorem sum_update {M : Type w} [AddCommMonoid M] (hf : ∀ r, key (f r) = key r) (weight : ρ → M)
    (h : t.find? k = some r) :
    (t.update k f hf).sum weight + weight r = t.sum weight + weight (f r) := by
  have hrows : ∀ rows : List ρ, (rows.map key).Nodup →
      (rows.find? fun r => key r = k) = some r →
      ((rows.map fun r => if key r = k then f r else r).map weight).sum + weight r =
        (rows.map weight).sum + weight (f r) := by
    intro rows hnodup hfind
    induction rows with
    | nil => simp at hfind
    | cons d ds ih =>
      rw [List.map_cons, List.nodup_cons] at hnodup
      by_cases hd : key d = k
      · -- the row of key `k` is the first: none of the others has this key
        obtain rfl : d = r := by simpa [hd] using hfind
        have hrest : (ds.map fun r => if key r = k then f r else r) = ds := by
          refine (List.map_congr_left fun x hx => ?_).trans (List.map_id ds)
          have hne : key x ≠ k := fun e => hnodup.1 (List.mem_map.2 ⟨x, hx, e.trans hd.symm⟩)
          rw [if_neg hne, id_eq]
        simp only [List.map_cons, hd, if_true, hrest, List.sum_cons]
        abel
      · have hds := ih hnodup.2 (by simpa [hd] using hfind)
        simp only [List.map_cons, hd, if_false, List.sum_cons, add_assoc]
        simp only [hds]
  unfold sum
  rw [update_rows]
  exact hrows t.rows t.nodup h

end Table
