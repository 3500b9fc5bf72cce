import Mathlib.Data.List.Basic

/-! # Documents over two representations

A JSON value over any type of strings and of numbers: two programs that exchange
documents need not agree on either. `map` rewrites a document from one
representation to the other; a number that has none becomes null, as in
`JSON.stringify`. `size` is the length of the compact text, from the lengths of
strings and numbers.

* `field_map`: a field is found under the rewritten key where the rewriting
  does not confuse it with another.
* `all_obj`, `all_arr`: a test on every string, read one level at a time.
-/

/-- A JSON value. -/
inductive Doc (S N : Type) where
  | null
  | bool (b : Bool)
  | num (n : N)
  | str (s : S)
  | arr (xs : List (Doc S N))
  | obj (fields : List (S × Doc S N))

namespace Doc

variable {S T N M : Type}

def isNull : Doc S N → Bool
  | null => true
  | _ => false

def isStr : Doc S N → Bool
  | str _ => true
  | _ => false

/-- The value under a key. -/
def field [DecidableEq S] (key : S) : List (S × Doc S N) → Option (Doc S N)
  | [] => none
  | (k, x) :: fields => if k = key then some x else field key fields

mutual

/-- The length of the compact text. -/
def size (text : S → Nat) (numeral : N → Nat) : Doc S N → Nat
  | null => 4
  | bool b => if b then 4 else 5
  | num n => numeral n
  | str s => text s
  | arr xs => 2 + (xs.length - 1) + sizeItems text numeral xs
  | obj fields => 2 + (fields.length - 1) + sizeFields text numeral fields

def sizeItems (text : S → Nat) (numeral : N → Nat) : List (Doc S N) → Nat
  | [] => 0
  | x :: xs => size text numeral x + sizeItems text numeral xs

def sizeFields (text : S → Nat) (numeral : N → Nat) : List (S × Doc S N) → Nat
  | [] => 0
  | (k, x) :: fields => text k + 1 + size text numeral x + sizeFields text numeral fields

end

mutual

/-- The document in the other representation. -/
def map (f : S → T) (g : N → Option M) : Doc S N → Doc T M
  | null => null
  | bool b => bool b
  | num n =>
      match g n with
      | none => null
      | some m => num m
  | str s => str (f s)
  | arr xs => arr (mapItems f g xs)
  | obj fields => obj (mapFields f g fields)

def mapItems (f : S → T) (g : N → Option M) : List (Doc S N) → List (Doc T M)
  | [] => []
  | x :: xs => map f g x :: mapItems f g xs

def mapFields (f : S → T) (g : N → Option M) : List (S × Doc S N) → List (T × Doc T M)
  | [] => []
  | (k, x) :: fields => (f k, map f g x) :: mapFields f g fields

end

mutual

/-- A test on every string, the keys included. -/
def all (p : S → Bool) : Doc S N → Bool
  | null | bool _ | num _ => true
  | str s => p s
  | arr xs => allItems p xs
  | obj fields => allFields p fields

def allItems (p : S → Bool) : List (Doc S N) → Bool
  | [] => true
  | x :: xs => all p x && allItems p xs

def allFields (p : S → Bool) : List (S × Doc S N) → Bool
  | [] => true
  | (k, x) :: fields => p k && all p x && allFields p fields

end

variable {f : S → T} {g : N → Option M} {p : S → Bool}

theorem mapItems_eq (xs : List (Doc S N)) : mapItems f g xs = xs.map (map f g) := by
  induction xs with
  | nil => simp [mapItems]
  | cons x xs ih => simp [mapItems, ih]

theorem mapFields_eq (fields : List (S × Doc S N)) :
    mapFields f g fields = fields.map fun e => (f e.1, map f g e.2) := by
  induction fields with
  | nil => simp [mapFields]
  | cons e fields ih => simp [mapFields, ih]

@[simp] theorem map_str (s : S) : (str s : Doc S N).map f g = str (f s) := by simp [map]

@[simp] theorem map_arr (xs : List (Doc S N)) : (arr xs).map f g = arr (xs.map (map f g)) := by
  rw [map, mapItems_eq]

@[simp] theorem map_obj (fields : List (S × Doc S N)) :
    (obj fields).map f g = obj (fields.map fun e => (f e.1, map f g e.2)) := by
  rw [map, mapFields_eq]

@[simp] theorem all_str (s : S) : (str s : Doc S N).all p = p s := by simp [all]

@[simp] theorem all_arr (xs : List (Doc S N)) : (arr xs).all p = xs.all (all p) := by
  rw [all]
  induction xs with
  | nil => simp [allItems]
  | cons x xs ih => simp [allItems, ih]

@[simp] theorem all_obj (fields : List (S × Doc S N)) :
    (obj fields).all p = fields.all fun e => p e.1 && e.2.all p := by
  rw [all]
  induction fields with
  | nil => simp [allFields]
  | cons e fields ih => simp [allFields, ih]

@[simp] theorem isStr_map (d : Doc S N) : (d.map f g).isStr = d.isStr := by
  cases d with
  | num n =>
    rw [map]
    cases g n <;> rfl
  | _ => simp [map, isStr]

theorem field_map [DecidableEq S] [DecidableEq T] {key : S} {fields : List (S × Doc S N)}
    (h : ∀ e ∈ fields, f e.1 = f key → e.1 = key) :
    field (f key) (fields.map fun e => (f e.1, map f g e.2)) =
      (field key fields).map (map f g) := by
  induction fields with
  | nil => rfl
  | cons e fields ih =>
    obtain ⟨k, x⟩ := e
    have hrest := ih fun e he => h e (List.mem_cons_of_mem _ he)
    by_cases hk : k = key
    · simp [field, hk]
    · have hfk : f k ≠ f key := fun heq => hk (h (k, x) List.mem_cons_self heq)
      simpa [field, hk, hfk] using hrest

end Doc
