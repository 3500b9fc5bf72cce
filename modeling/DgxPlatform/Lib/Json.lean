import Mathlib.Logic.Basic

/-! # JSON values

A JSON value with the readers a handler uses: the value under a key, the text,
the list. Objects keep their fields in order. `optional` is a field that a
writer leaves out when it has no value (an `undefined` of JavaScript).
-/

inductive Json where
  | null
  | bool (b : Bool)
  | num (n : Int)
  | str (s : List Char)
  | arr (xs : List Json)
  | obj (fields : List (String × Json))

namespace Json

/-- The value under a key. -/
def get? (key : String) : Json → Option Json
  | obj fields => fields.lookup key
  | _ => none

def str? : Json → Option (List Char)
  | str s => some s
  | _ => none

def arr? : Json → Option (List Json)
  | arr xs => some xs
  | _ => none

def bool? : Json → Option Bool
  | bool b => some b
  | _ => none

/-- A field that is left out when it has no value. -/
def optional (key : String) (value : Option Json) : List (String × Json) :=
  value.toList.map fun v => (key, v)

@[simp] theorem get?_obj (key : String) (fields : List (String × Json)) :
    (obj fields).get? key = fields.lookup key := rfl

@[simp] theorem str?_str (s : List Char) : (str s).str? = some s := rfl

@[simp] theorem arr?_arr (xs : List Json) : (arr xs).arr? = some xs := rfl

@[simp] theorem bool?_bool (b : Bool) : (bool b).bool? = some b := rfl

@[simp] theorem lookup_optional_self (key : String) (value : Option Json) :
    (optional key value).lookup key = value := by
  cases value <;> simp [optional]

theorem lookup_optional_ne {key key' : String} (h : key' ≠ key) (value : Option Json) :
    (optional key value).lookup key' = none := by
  cases value <;> simp [optional, h]

end Json
