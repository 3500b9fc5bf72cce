import DgxPlatform.Lib.Json
import Mathlib.Tactic.Common

/-! # JSON as the portal writes it

`py_dumps_ascii` writes a value as Python's `json.dumps` does: `, ` and `: `
between the items, control characters escaped, and every character that is not
ASCII as one or two `\u` escapes. Numbers are integers here.

What a server-sent event needs of it is that an object is written on one line
and between braces (`JsonText`).
-/

namespace Portal.PyDumps

/-- `{u:04x}`. -/
def hex4 (u : Nat) : List Char :=
  [Nat.digitChar (u / 4096 % 16), Nat.digitChar (u / 256 % 16), Nat.digitChar (u / 16 % 16),
    Nat.digitChar (u % 16)]

def unicodeEscape (u : Nat) : List Char := '\\' :: 'u' :: hex4 u

/-- One character of a string. -/
def escape (c : Char) : List Char :=
  if c = '"' then ['\\', '"']
  else if c = '\\' then ['\\', '\\']
  else if c = '\n' then ['\\', 'n']
  else if c = '\r' then ['\\', 'r']
  else if c = '\t' then ['\\', 't']
  else if c.toNat = 0x08 then ['\\', 'b']
  else if c.toNat = 0x0C then ['\\', 'f']
  else if c.toNat < 0x20 then unicodeEscape c.toNat
  else [c]

def writePyStr (s : List Char) : List Char := '"' :: s.flatMap escape ++ ['"']

def writeInt : Int → List Char
  | .ofNat n => Nat.toDigits 10 n
  | .negSucc n => '-' :: Nat.toDigits 10 (n + 1)

mutual

def writePy : Json → List Char
  | .null => "null".toList
  | .bool b => if b then "true".toList else "false".toList
  | .num n => writeInt n
  | .str s => writePyStr s
  | .arr xs => '[' :: writeItems xs ++ [']']
  | .obj fields => '\x7b' :: writeFields fields ++ ['\x7d']

def writeItems : List Json → List Char
  | [] => []
  | [x] => writePy x
  | x :: y :: xs => writePy x ++ ", ".toList ++ writeItems (y :: xs)

def writeFields : List (String × Json) → List Char
  | [] => []
  | [(k, x)] => writePyStr k.toList ++ ": ".toList ++ writePy x
  | (k, x) :: f :: fields =>
      writePyStr k.toList ++ ": ".toList ++ writePy x ++ ", ".toList ++ writeFields (f :: fields)

end

/-- A character as UTF-16 escapes, if it is not ASCII. -/
def asciiEscape (c : Char) : List Char :=
  if c.toNat < 0x80 then [c]
  else if c.toNat < 0x10000 then unicodeEscape c.toNat
  else unicodeEscape (0xD800 + (c.toNat - 0x10000) / 0x400) ++
    unicodeEscape (0xDC00 + (c.toNat - 0x10000) % 0x400)

def pyDumpsAscii (v : Json) : List Char := (writePy v).flatMap asciiEscape

/-- The text of a JSON object on one line. -/
structure JsonText where
  inner : List Char
  single : '\n' ∉ inner

def JsonText.text (p : JsonText) : List Char := '\x7b' :: p.inner ++ ['\x7d']

/-! ## One line -/

theorem newline_not_mem_hex4 (u : Nat) : '\n' ∉ hex4 u := by
  have hdigit : ∀ d < 16, Nat.digitChar d ≠ '\n' := by decide
  have hne : ∀ k, '\n' ≠ Nat.digitChar (k % 16) := fun k =>
    (hdigit _ (Nat.mod_lt k (by omega))).symm
  simp only [hex4, List.mem_cons, hne, List.not_mem_nil, or_self, not_false_eq_true]

theorem newline_not_mem_escape (c : Char) : '\n' ∉ escape c := by
  unfold escape
  split_ifs with h1 h2 h3
  all_goals first
    | decide
    | simpa [unicodeEscape] using newline_not_mem_hex4 c.toNat
    | simpa [eq_comm] using h3

theorem newline_not_mem_writePyStr (s : List Char) : '\n' ∉ writePyStr s := by
  simp [writePyStr, newline_not_mem_escape]

theorem newline_not_mem_digits (n : Nat) : '\n' ∉ Nat.toDigits 10 n := fun h =>
  absurd (Nat.isDigit_of_mem_toDigits (by omega) (by omega) h) (by decide)

theorem newline_not_mem_writeInt (n : Int) : '\n' ∉ writeInt n := by
  cases n with
  | ofNat n => exact newline_not_mem_digits n
  | negSucc n => simp [writeInt, newline_not_mem_digits]

mutual

theorem newline_not_mem_writePy : ∀ v : Json, '\n' ∉ writePy v
  | .null => by decide
  | .bool b => by cases b <;> decide
  | .num n => newline_not_mem_writeInt n
  | .str s => newline_not_mem_writePyStr s
  | .arr xs => by
      have hitems := newline_not_mem_writeItems xs
      simp [writePy, hitems]
  | .obj fields => by
      have hfields := newline_not_mem_writeFields fields
      simp [writePy, hfields]

theorem newline_not_mem_writeItems : ∀ xs : List Json, '\n' ∉ writeItems xs
  | [] => by simp [writeItems]
  | [x] => by
      have hx := newline_not_mem_writePy x
      simpa [writeItems] using hx
  | x :: y :: xs => by
      have hx := newline_not_mem_writePy x
      have hrest := newline_not_mem_writeItems (y :: xs)
      simp [writeItems, hx, hrest]

theorem newline_not_mem_writeFields : ∀ fields : List (String × Json), '\n' ∉ writeFields fields
  | [] => by simp [writeFields]
  | [(k, x)] => by
      have hx := newline_not_mem_writePy x
      simp [writeFields, newline_not_mem_writePyStr, hx]
  | (k, x) :: f :: fields => by
      have hx := newline_not_mem_writePy x
      have hrest := newline_not_mem_writeFields (f :: fields)
      simp [writeFields, newline_not_mem_writePyStr, hx, hrest]

end

theorem newline_not_mem_asciiEscape {c : Char} (h : c ≠ '\n') : '\n' ∉ asciiEscape c := by
  unfold asciiEscape unicodeEscape
  split_ifs <;> simp [newline_not_mem_hex4, h.symm]

/-- What `py_dumps_ascii` writes for an object. -/
def objectText (fields : List (String × Json)) : JsonText where
  inner := (writeFields fields).flatMap asciiEscape
  single := by
    rw [List.mem_flatMap]
    rintro ⟨c, hc, hmem⟩
    exact newline_not_mem_asciiEscape (fun h => newline_not_mem_writeFields fields (h ▸ hc)) hmem

theorem pyDumpsAscii_obj (fields : List (String × Json)) :
    pyDumpsAscii (.obj fields) = (objectText fields).text := by
  have hopen : asciiEscape '\x7b' = ['\x7b'] := by decide
  have hclose : asciiEscape '\x7d' = ['\x7d'] := by decide
  simp [pyDumpsAscii, writePy, objectText, JsonText.text, hopen, hclose]

end Portal.PyDumps
