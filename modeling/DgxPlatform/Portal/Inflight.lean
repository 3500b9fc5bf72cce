import DgxPlatform.Lib.Ordered
import DgxPlatform.Lib.Table
import Mathlib.Data.List.Induction
import Mathlib.Order.Bounds.Basic

/-! # The requests in flight

The callback of LiteLLM writes a row when a request starts and removes it when the request
ends, on a connection of its own each time; `inflight_by_callback` reads the rows and names
the accounts that are generating.

* `mem_rows_iff`: the rows are those of the `Open` requests.
-/

namespace Portal.Inflight

/-- Microseconds. -/
abbrev Time := Nat

abbrev Name := List Char

/-- `EXPIRY_S`. -/
def EXPIRY : Time := 7200 * 1000000

/-- What LiteLLM gives a hook; a text that is missing is empty. -/
structure Kwargs where
  litellmCallId : List Char
  metaCallId : List Char
  userApiKey : List Char
  userApiKeyAlias : List Char
  userApiKeyUserId : List Char
  metaUserId : List Char
  model : List Char
  metaModel : List Char

structure Row where
  requestKey : List Char
  keyAlias : List Char
  userId : List Char
  model : List Char
  startedAt : Time

abbrev Rows := Table Row Row.requestKey

/-- Python's `a or b`. -/
def orElse (a b : List Char) : List Char := if a = [] then b else a

/-- `_identity`, with the time of the insertion. -/
def identity (k : Kwargs) (startedAt : Time) : Row where
  requestKey := orElse k.litellmCallId (orElse k.metaCallId k.userApiKey)
  keyAlias := k.userApiKeyAlias
  userId := orElse k.userApiKeyUserId k.metaUserId
  model := orElse k.model k.metaModel
  startedAt := startedAt

/-- A hook. `none` is a call without arguments, or one whose transaction fails; a start
reads the clock for the expiry and again for the row. -/
inductive Hook where
  | start (kwargs : Option Kwargs) (purge startedAt : Time)
  | finish (kwargs : Option Kwargs)

/-- `INSERT OR REPLACE`. -/
def replace (t : Rows) (r : Row) : Rows where
  rows := (t.delete fun q => q.requestKey = r.requestKey).rows ++ [r]
  nodup := by
    rw [List.map_append, List.map_singleton, List.nodup_append]
    refine ⟨(t.delete _).nodup, List.nodup_singleton _, ?_⟩
    intro a ha b hb
    obtain ⟨q, hq, rfl⟩ := List.mem_map.1 ha
    rw [List.mem_singleton.1 hb]
    simpa using (List.mem_filter.1 hq).2

/-- `_record` and `_remove` behind `_safe`. -/
def apply (t : Rows) : Hook → Rows
  | .start none _ _ | .finish none => t
  | .start (some k) purge startedAt =>
      let r := identity k startedAt
      if r.requestKey = [] then t
      else replace (t.delete fun q => q.startedAt + EXPIRY < purge) r
  | .finish (some k) =>
      let key := (identity k 0).requestKey
      if key = [] then t else t.delete fun q => q.requestKey = key

/-- The rows after the hooks. -/
def rowsAfter (hooks : List Hook) : Rows := hooks.foldl apply Table.empty

/-! ## The portal's side -/

section Portal

-- the accounts of `user_prefs`
variable (known : Name → Bool)

def accountExists (name : Name) : Bool := name ≠ [] && known name

def accountFromAlias (keyAlias : List Char) : Name :=
  ((keyAlias.splitOnP fun c => c = '-' || c = '_').find? (accountExists known)).getD []

/-- The account of a row. -/
def account (r : Row) : Option Name :=
  let u := accountFromAlias known r.keyAlias
  if u ≠ [] then some u
  else if accountExists known r.userId then some r.userId
  else none

def age (now : Time) (r : Row) : Time := now - r.startedAt

/-- `inflight_by_callback`. -/
def inflightByCallback (now : Time) (rows : List Row) : Ordered.Map Name Time :=
  rows.foldl (fun out r => match account known r with
    | none => out
    | some u => Ordered.modify u 0 (max (age now r)) out) []

end Portal

/-! ## The rows -/

/-- The row a hook writes. -/
def Hook.row : Hook → Option Row
  | .start (some k) _ startedAt =>
      if (identity k startedAt).requestKey = [] then none else some (identity k startedAt)
  | _ => none

/-- The key whose row a hook takes away or writes anew. -/
def Hook.key : Hook → Option (List Char)
  | .start k _ startedAt => (Hook.start k 0 startedAt).row.map Row.requestKey
  | .finish k => (Hook.start k 0 0).row.map Row.requestKey

/-- A start takes away what is too old. -/
def Hook.expires (r : Row) : Hook → Prop
  | .start k purge startedAt => (Hook.start k 0 startedAt).row ≠ none ∧ r.startedAt + EXPIRY < purge
  | .finish _ => False

/-- A hook leaves a row alone. -/
def Hook.Spares (r : Row) (h : Hook) : Prop := h.key ≠ some r.requestKey ∧ ¬ h.expires r

/-- The request of a row has started, and has not ended, not started again and not expired
at a later start. -/
def Open (hooks : List Hook) (r : Row) : Prop :=
  ∃ before h after, hooks = before ++ h :: after ∧ h.row = some r ∧ ∀ g ∈ after, g.Spares r

variable {t : Rows} {h : Hook} {r : Row}

theorem mem_delete {p : Row → Bool} : r ∈ (t.delete p).rows ↔ r ∈ t.rows ∧ p r = false := by
  simp [Table.delete]

theorem mem_apply_iff : r ∈ (apply t h).rows ↔ h.row = some r ∨ r ∈ t.rows ∧ h.Spares r := by
  cases h with
  | start k purge startedAt =>
    cases k with
    | none => simp [apply, Hook.row, Hook.Spares, Hook.key, Hook.expires]
    | some k =>
      by_cases hkey : (identity k startedAt).requestKey = []
      · simp [apply, Hook.row, Hook.Spares, Hook.key, Hook.expires, hkey]
      · have hrows : r ∈ (apply t (.start (some k) purge startedAt)).rows ↔
            (r ∈ t.rows ∧ ¬ r.startedAt + EXPIRY < purge) ∧ r.requestKey ≠ (identity k startedAt).requestKey ∨
              r = identity k startedAt := by
          simp only [apply, if_neg hkey, replace, List.mem_append, List.mem_singleton, mem_delete,
            decide_eq_false_iff_not]
        rw [hrows]
        simp only [Hook.row, if_neg hkey, Hook.Spares, Hook.key, Hook.expires, Option.map_some, ne_eq,
          Option.some.injEq, reduceCtorEq, not_false_eq_true, true_and]
        constructor
        · rintro (⟨⟨hr, hold⟩, hne⟩ | rfl)
          · exact .inr ⟨hr, Ne.symm hne, hold⟩
          · exact .inl rfl
        · rintro (rfl | ⟨hr, hne, hold⟩)
          · exact .inr rfl
          · exact .inl ⟨⟨hr, hold⟩, Ne.symm hne⟩
  | finish k =>
    cases k with
    | none => simp [apply, Hook.row, Hook.Spares, Hook.key, Hook.expires]
    | some k =>
      by_cases hkey : (identity k 0).requestKey = []
      · simp [apply, Hook.row, Hook.Spares, Hook.key, Hook.expires, hkey]
      · simp [apply, Hook.row, Hook.Spares, Hook.key, Hook.expires, hkey, mem_delete, eq_comm]

theorem mem_rows_iff (hooks : List Hook) : r ∈ (rowsAfter hooks).rows ↔ Open hooks r := by
  unfold rowsAfter
  induction hooks using List.reverseRecOn with
  | nil => simp [Table.empty, Open]
  | append_singleton hooks h ih =>
    rw [List.foldl_append, List.foldl_cons, List.foldl_nil, mem_apply_iff, ih]
    constructor
    · rintro (hrow | ⟨⟨before, g, after, rfl, hrow, hspares⟩, hh⟩)
      · exact ⟨hooks, h, [], rfl, hrow, fun _ hg' => absurd hg' List.not_mem_nil⟩
      · refine ⟨before, g, after ++ [h], by simp, hrow, ?_⟩
        intro g' hg'
        rcases List.mem_append.1 hg' with hg' | hg'
        · exact hspares g' hg'
        · exact List.mem_singleton.1 hg' ▸ hh
    · rintro ⟨before, g, after, heq, hrow, hspares⟩
      rcases List.eq_nil_or_concat after with rfl | ⟨after, h', rfl⟩
      · obtain ⟨-, heq⟩ := List.append_inj' heq rfl
        cases heq
        exact .inl hrow
      · rw [List.concat_eq_append] at heq hspares
        rw [← List.cons_append, ← List.append_assoc] at heq
        obtain ⟨rfl, hlast⟩ := List.append_inj' heq rfl
        obtain rfl : h = h' := List.singleton_inj.1 hlast
        refine .inr ⟨⟨before, g, after, rfl, hrow, fun g' hg' => hspares g' (List.mem_append_left _ hg')⟩, ?_⟩
        exact hspares h (List.mem_append_right _ (List.mem_singleton_self h))

/-! ## What is shown -/

section Shown

variable {known : Name → Bool} {now : Time} {u : Name} {a : Time}

/-- The ages of the rows of an account. -/
def ages (known : Name → Bool) (now : Time) (u : Name) (rows : List Row) : Set Time :=
  {x | ∃ r ∈ rows, account known r = some u ∧ age now r = x}

/-- What is kept for an account is the greatest age of the rows so far. -/
theorem get?_inflightByCallback (rows : List Row) :
    match Ordered.get? u (inflightByCallback known now rows) with
    | none => ages known now u rows = ∅
    | some a => IsGreatest (ages known now u rows) a := by
  unfold inflightByCallback
  induction rows using List.reverseRecOn with
  | nil => simp [Ordered.get?, ages]
  | append_singleton rows r ih =>
    rw [List.foldl_append, List.foldl_cons, List.foldl_nil]
    have hages : ages known now u (rows ++ [r]) =
        ages known now u rows ∪ {x | account known r = some u ∧ age now r = x} := by
      ext x
      simp [ages, or_and_right, exists_or]
    rw [hages]
    cases hr : account known r with
    | none => simpa using ih
    | some v =>
      dsimp only
      rw [Ordered.get?_modify]
      by_cases hv : u = v
      · have hone : {x | some v = some u ∧ age now r = x} = {age now r} := by
          ext x
          simp [hv, eq_comm]
        rw [if_pos hv, hone, ← hv]
        cases hget : Ordered.get? u _ with
        | none =>
          rw [hget] at ih
          rw [ih, Set.empty_union, Option.getD_none, Nat.max_zero]
          exact isGreatest_singleton
        | some a =>
          rw [hget] at ih
          rw [Option.getD_some, max_comm]
          exact ih.union isGreatest_singleton
      · have hnone : {x | some v = some u ∧ age now r = x} = ∅ := by
          ext x
          simp [Ne.symm hv]
        rw [if_neg hv, hnone, Set.union_empty]
        exact ih

/-- An account is shown as generating, with an age, exactly if the age is that of the
oldest request of it that is open. -/
theorem shown_age_iff (known : Name → Bool) (now : Time) (hooks : List Hook) (u : Name) (a : Time) :
    Ordered.get? u (inflightByCallback known now (rowsAfter hooks).rows) = some a ↔
      IsGreatest {x | ∃ r, Open hooks r ∧ account known r = some u ∧ age now r = x} a := by
  have hopen : ages known now u (rowsAfter hooks).rows =
      {x | ∃ r, Open hooks r ∧ account known r = some u ∧ age now r = x} := by
    unfold ages
    simp only [mem_rows_iff]
  rw [← hopen]
  have hget := @get?_inflightByCallback known now u (rowsAfter hooks).rows
  constructor
  · intro h
    rwa [h] at hget
  · intro h
    cases hkept : Ordered.get? u (inflightByCallback known now (rowsAfter hooks).rows) with
    | none =>
      rw [hkept] at hget
      exact absurd h.1 (hget ▸ Set.notMem_empty a)
    | some b =>
      rw [hkept] at hget
      exact congrArg some (hget.unique h)

end Shown

end Portal.Inflight
