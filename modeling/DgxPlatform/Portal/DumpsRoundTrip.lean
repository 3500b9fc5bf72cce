import DgxPlatform.Lib.JsonText
import DgxPlatform.Portal.Conversations

/-! # The JSON writers against a parser

Conversations are stored as `py_dumps` writes them, the export of the memory as
`py_dumps_indent` does. Both write a text of the JSON grammar for their value, so a parser
of that grammar gives the value back, keys in order.
-/

namespace Portal.Conversations

open JsonText

/-! ## The indented writer -/

def pad (depth : Nat) : List Char := List.replicate (2 * depth) ' '

mutual

def writeIndent (depth : Nat) : Json → List Char
  | .arr xs =>
      if xs.isEmpty then "[]".toList
      else "[\n".toList ++ indentItems depth xs ++ ['\n'] ++ pad depth ++ [']']
  | .obj fields =>
      if fields.isEmpty then "\x7b\x7d".toList
      else "\x7b\n".toList ++ indentFields depth fields ++ ['\n'] ++ pad depth ++ ['\x7d']
  | scalar => pyDumps scalar

def indentItems (depth : Nat) : List Json → List Char
  | [] => []
  | [x] => pad (depth + 1) ++ writeIndent (depth + 1) x
  | x :: xs => pad (depth + 1) ++ writeIndent (depth + 1) x ++ ",\n".toList ++ indentItems depth xs

def indentFields (depth : Nat) : List (String × Json) → List Char
  | [] => []
  | [(k, x)] =>
      pad (depth + 1) ++ pyDumps (.str k.toList) ++ ": ".toList ++ writeIndent (depth + 1) x
  | (k, x) :: fields =>
      pad (depth + 1) ++ pyDumps (.str k.toList) ++ ": ".toList ++ writeIndent (depth + 1) x ++
        ",\n".toList ++ indentFields depth fields

end

/-- `py_dumps_indent`. -/
def pyDumpsIndent (v : Json) : List Char := writeIndent 0 v

/-! ## Both write texts of the grammar -/

theorem hexValue_hexDigit : ∀ n < 16, hexValue (hexDigit n) = some n := by decide

theorem readHex4_control {n : Nat} (h : n < 0x20) :
    readHex4 ['0', '0', hexDigit (n / 16), hexDigit (n % 16)] = some (n, []) := by
  have hzero : hexValue '0' = some 0 := by decide
  have hhigh := hexValue_hexDigit (n / 16) (by omega)
  have hlow := hexValue_hexDigit (n % 16) (by omega)
  simp only [readHex4, hzero, hhigh, hlow, Option.bind_eq_bind, Option.bind_some]
  rw [show ((0 * 16 + 0) * 16 + n / 16) * 16 + n % 16 = n by omega]

theorem writtenChar_escaped (c : Char) : WrittenChar c (escaped c) := by
  have hnat : ∀ n, c.toNat = n → c = Char.ofNat n := by
    rintro n rfl
    exact (Char.ofNat_toNat c).symm
  unfold escaped
  split_ifs with hquote hslash hn hr ht hb hf hcontrol
  · rw [hquote]
    exact .escaped (by decide)
  · rw [hslash]
    exact .escaped (by decide)
  · rw [hn]
    exact .escaped (by decide)
  · rw [hr]
    exact .escaped (by decide)
  · rw [ht]
    exact .escaped (by decide)
  · rw [hnat _ hb]
    exact .escaped (by decide)
  · rw [hnat _ hf]
    exact .escaped (by decide)
  · exact .unicode rfl (readHex4_control hcontrol)
  · exact .plain hquote hslash (Nat.not_lt.1 hcontrol)

theorem writtenChars_escaped (s : List Char) : WrittenChars s (s.flatMap escaped) := by
  induction s with
  | nil => exact .nil
  | cons c s ih => exact .cons (writtenChar_escaped c) ih

theorem writeStr_eq (s : List Char) : writeStr s = quoted (s.flatMap escaped) := by
  simp [writeStr, quoted]

theorem value_writeStr (s : List Char) : Value (.str s) (writeStr s) := by
  rw [writeStr_eq]
  exact .str (writtenChars_escaped s)

theorem blank_space : Blank [' '] := List.forall_mem_singleton.2 rfl

theorem blank_pad (depth : Nat) : Blank (pad depth) := by
  intro c hc
  rw [List.eq_of_mem_replicate hc]
  rfl

theorem blank_newline : Blank ['\n'] := List.forall_mem_singleton.2 rfl

mutual

theorem value_write (v : Json) (h : UniqueKeys v) : Value v (write ", ".toList ": ".toList v) := by
  cases v with
  | null => exact .null
  | bool b =>
    cases b with
    | false => exact .ff
    | true => exact .tt
  | num n => exact .num n
  | str s => exact value_writeStr s
  | arr xs =>
    cases hxs : xs with
    | nil => exact .nil blank_nil
    | cons y ys =>
      rw [← hxs]
      exact .arr (items_write xs (by rw [hxs]; exact List.cons_ne_nil y ys) h)
  | obj fields =>
    cases hfields : fields with
    | nil => exact .empty blank_nil
    | cons g gs =>
      rw [← hfields]
      exact .obj (fields_write fields (by rw [hfields]; exact List.cons_ne_nil g gs) h.2) h.1

theorem items_write (xs : List Json) (hne : xs ≠ []) (h : UniqueItems xs) :
    Items xs (writeItems ", ".toList ": ".toList xs) := by
  match xs with
  | [] => exact absurd rfl hne
  | [x] =>
    have hitem := Items.last (value_write x h.1) blank_nil blank_nil
    rwa [List.append_nil, List.nil_append] at hitem
  | x :: y :: ys =>
    have hrest := (items_write (y :: ys) (List.cons_ne_nil y ys) h.2).blank_left blank_space
    have hitem := Items.cons (value_write x h.1) blank_nil blank_nil hrest
    rw [writeItems, List.append_assoc]
    · exact hitem
    · exact List.cons_ne_nil y ys

theorem fields_write (fields : List (String × Json)) (hne : fields ≠ []) (h : UniqueFields fields) :
    Fields fields (writeFields ", ".toList ": ".toList fields) := by
  match fields with
  | [] => exact absurd rfl hne
  | [(k, x)] =>
    have hfield := Fields.last (writtenChars_escaped k.toList) (value_write x h.1) blank_nil blank_nil
      blank_space blank_nil
    rw [List.append_nil] at hfield
    rw [writeFields, writeStr_eq, List.append_assoc]
    exact hfield
  | (k, x) :: g :: gs =>
    have hrest := (fields_write (g :: gs) (List.cons_ne_nil g gs) h.2).blank_left blank_space
    have hfield := Fields.cons (writtenChars_escaped k.toList) (value_write x h.1) blank_nil blank_nil
      blank_space blank_nil hrest
    rw [writeFields, writeStr_eq, List.append_assoc, List.append_assoc, List.append_assoc]
    · exact hfield
    · exact List.cons_ne_nil g gs

end

mutual

theorem value_writeIndent (v : Json) (h : UniqueKeys v) (depth : Nat) :
    Value v (writeIndent depth v) := by
  cases v with
  | null => exact .null
  | bool b => exact value_write (.bool b) h
  | num n => exact .num n
  | str s => exact value_writeStr s
  | arr xs =>
    cases hxs : xs with
    | nil => exact .nil blank_nil
    | cons y ys =>
      rw [← hxs]
      have hitems := items_indent xs (by rw [hxs]; exact List.cons_ne_nil y ys) h depth
      have hlist := ((hitems.blank_left blank_newline).blank_right blank_newline).blank_right
        (blank_pad depth)
      rw [writeIndent, if_neg (by rw [hxs]; exact Bool.false_ne_true)]
      exact .arr hlist
  | obj fields =>
    cases hfields : fields with
    | nil => exact .empty blank_nil
    | cons g gs =>
      rw [← hfields]
      have hitems := fields_indent fields (by rw [hfields]; exact List.cons_ne_nil g gs) h.2 depth
      have hlist := ((hitems.blank_left blank_newline).blank_right blank_newline).blank_right
        (blank_pad depth)
      rw [writeIndent, if_neg (by rw [hfields]; exact Bool.false_ne_true)]
      exact .obj hlist h.1

theorem items_indent (xs : List Json) (hne : xs ≠ []) (h : UniqueItems xs) (depth : Nat) :
    Items xs (indentItems depth xs) := by
  match xs with
  | [] => exact absurd rfl hne
  | [x] =>
    have hitem := Items.last (value_writeIndent x h.1 (depth + 1)) (blank_pad (depth + 1)) blank_nil
    rwa [List.append_nil] at hitem
  | x :: y :: ys =>
    have hrest := (items_indent (y :: ys) (List.cons_ne_nil y ys) h.2 depth).blank_left blank_newline
    have hitem := Items.cons (value_writeIndent x h.1 (depth + 1)) (blank_pad (depth + 1)) blank_nil
      hrest
    rw [indentItems, List.append_assoc, List.append_assoc]
    · exact hitem
    · exact List.cons_ne_nil y ys

theorem fields_indent (fields : List (String × Json)) (hne : fields ≠ []) (h : UniqueFields fields)
    (depth : Nat) : Fields fields (indentFields depth fields) := by
  match fields with
  | [] => exact absurd rfl hne
  | [(k, x)] =>
    have hfield := Fields.last (writtenChars_escaped k.toList) (value_writeIndent x h.1 (depth + 1))
      (blank_pad (depth + 1)) blank_nil blank_space blank_nil
    rw [List.append_nil, ← writeStr_eq] at hfield
    rw [indentFields, List.append_assoc, List.append_assoc]
    exact hfield
  | (k, x) :: g :: gs =>
    have hrest := (fields_indent (g :: gs) (List.cons_ne_nil g gs) h.2 depth).blank_left blank_newline
    have hfield := Fields.cons (writtenChars_escaped k.toList) (value_writeIndent x h.1 (depth + 1))
      (blank_pad (depth + 1)) blank_nil blank_space blank_nil hrest
    rw [← writeStr_eq] at hfield
    rw [indentFields, List.append_assoc, List.append_assoc, List.append_assoc, List.append_assoc]
    · exact hfield
    · exact List.cons_ne_nil g gs

end

/-! ## The round trip -/

theorem parse_value {v : Json} {t : List Char} (h : Value v t) : parse t = some v := by
  have hparse := parse_of_value h blank_nil blank_nil
  rwa [List.nil_append, List.append_nil] at hparse

/-- A parser gives back what either writer wrote; no object of a JSON value has a key
twice. -/
theorem parse_dumps (v : Json) (h : UniqueKeys v) :
    parse (pyDumps v) = some v ∧ parse (pyDumpsIndent v) = some v :=
  ⟨parse_value (value_write v h), parse_value (value_writeIndent v h 0)⟩

/-- Texts and keys with escapes, an empty list and an empty object. -/
def sampleValue : Json :=
  .obj [("k\n\"", .arr [.num (-12), .num 0, .null, .bool true, .arr [], .obj []]),
    ("é", .obj [("a\\", .str ['\x01', '\t', 'é'])])]

theorem parse_dumps_sampleValue :
    parse (pyDumps sampleValue) = some sampleValue ∧
      parse (pyDumpsIndent sampleValue) = some sampleValue := by
  refine parse_dumps sampleValue ?_
  simp [sampleValue, UniqueKeys, UniqueItems, UniqueFields]

end Portal.Conversations
