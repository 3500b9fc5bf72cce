import DgxPlatform.Lib.Json
import Mathlib.Data.List.TakeWhile
import Mathlib.Data.Char

/-! # JSON as a text

A parser of JSON texts and the grammar of the texts that stand for a value (`Value`), with
any white space between the tokens and the escapes of a string spelled in any way. Numbers
are integers: a number with a fraction or an exponent is refused. A key that comes twice in
an object keeps its place and takes the later value.

* `parse_of_value`: the parser reads a text of the grammar as the value it stands for.
-/

namespace JsonText

/-! ## The parser -/

def isSpace (c : Char) : Bool := c = ' ' || c = '\t' || c = '\n' || c = '\r'

def skipSpace (t : List Char) : List Char := t.dropWhile isSpace

def hexValue (c : Char) : Option Nat :=
  if c.isDigit then some (c.toNat - 48)
  else if 97 ≤ c.toNat ∧ c.toNat ≤ 102 then some (c.toNat - 87)
  else if 65 ≤ c.toNat ∧ c.toNat ≤ 70 then some (c.toNat - 55)
  else none

/-- Four hexadecimal digits. -/
def readHex4 : List Char → Option (Nat × List Char)
  | a :: b :: c :: d :: rest => do
      let a ← hexValue a
      let b ← hexValue b
      let c ← hexValue c
      let d ← hexValue d
      some (((a * 16 + b) * 16 + c) * 16 + d, rest)
  | _ => none

/-- What stands behind `\u`; a character outside the basic plane is two escapes. -/
def readUnicode (t : List Char) : Option (Char × List Char) := do
  let (u, rest) ← readHex4 t
  if 0xD800 ≤ u ∧ u < 0xDC00 then
    match rest with
    | '\\' :: 'u' :: low => do
        let (v, rest) ← readHex4 low
        if 0xDC00 ≤ v ∧ v < 0xE000 then
          some (Char.ofNat (0x10000 + (u - 0xD800) * 0x400 + (v - 0xDC00)), rest)
        else none
    | _ => none
  else if 0xDC00 ≤ u ∧ u < 0xE000 then none
  else some (Char.ofNat u, rest)

/-- The escapes of one letter. -/
def unescape (c : Char) : Option Char :=
  if c = '"' ∨ c = '\\' ∨ c = '/' then some c
  else if c = 'n' then some '\n'
  else if c = 'r' then some '\r'
  else if c = 't' then some '\t'
  else if c = 'b' then some (Char.ofNat 8)
  else if c = 'f' then some (Char.ofNat 12)
  else none

/-- One character of a string, escaped or not. -/
def readChar : List Char → Option (Char × List Char)
  | [] => none
  | c :: rest =>
      if c = '\\' then
        match rest with
        | [] => none
        | e :: rest => if e = 'u' then readUnicode rest else (unescape e).map fun c => (c, rest)
      else if c = '"' ∨ c.toNat < 0x20 then none
      else some (c, rest)

/-- The characters of a string up to its closing quote. -/
def readString : Nat → List Char → Option (List Char × List Char)
  | 0, _ => none
  | n + 1, t =>
      if t.head? = some '"' then some ([], t.tail)
      else do
        let (c, rest) ← readChar t
        let (s, rest) ← readString n rest
        some (c :: s, rest)

def readNat (t : List Char) : Option (Nat × List Char) :=
  let digits := t.takeWhile Char.isDigit
  let rest := t.dropWhile Char.isDigit
  if digits = [] ∨ digits.head? = some '0' ∧ digits ≠ ['0'] then none
  else if rest.head? = some '.' ∨ rest.head? = some 'e' ∨ rest.head? = some 'E' then none
  else some (Nat.ofDigitChars 10 digits 0, rest)

def readInt : List Char → Option (Int × List Char)
  | [] => none
  | c :: t =>
      if c = '-' then (readNat t).map fun p => (-(p.1 : Int), p.2)
      else (readNat (c :: t)).map fun p => ((p.1 : Int), p.2)

/-- A key keeps its place and takes the later value. -/
def setField (fields : List (String × Json)) (key : String) (v : Json) : List (String × Json) :=
  if key ∈ fields.map Prod.fst then fields.map fun f => if f.1 = key then (key, v) else f
  else fields ++ [(key, v)]

def setFields (fields : List (String × Json)) : List (String × Json) :=
  fields.foldl (fun fields f => setField fields f.1 f.2) []

/-- A word that stands for a value. -/
def readWord (word : String) (v : Json) (t : List Char) : Option (Json × List Char) :=
  if word.toList <+: t then some (v, t.drop word.toList.length) else none

mutual

def readValue : Nat → List Char → Option (Json × List Char)
  | 0, _ => none
  | n + 1, t =>
      match skipSpace t with
      | [] => none
      | c :: rest =>
          if c = '"' then (readString (rest.length + 1) rest).map fun p => (.str p.1, p.2)
          else if c = '[' then
            if (skipSpace rest).head? = some ']' then some (.arr [], (skipSpace rest).tail)
            else (readItems n rest).map fun p => (.arr p.1, p.2)
          else if c = '\x7b' then
            if (skipSpace rest).head? = some '\x7d' then some (.obj [], (skipSpace rest).tail)
            else (readFields n rest).map fun p => (.obj (setFields p.1), p.2)
          else if c = 'n' then readWord "null" .null (c :: rest)
          else if c = 't' then readWord "true" (.bool true) (c :: rest)
          else if c = 'f' then readWord "false" (.bool false) (c :: rest)
          else (readInt (c :: rest)).map fun p => (.num p.1, p.2)

/-- The items of a list that is not empty, up to its closing bracket. -/
def readItems : Nat → List Char → Option (List Json × List Char)
  | 0, _ => none
  | n + 1, t => do
      let (x, rest) ← readValue n t
      match skipSpace rest with
      | [] => none
      | c :: rest =>
          if c = ',' then (readItems n rest).map fun p => (x :: p.1, p.2)
          else if c = ']' then some ([x], rest)
          else none

/-- The fields of an object that is not empty, up to its closing brace. -/
def readFields : Nat → List Char → Option (List (String × Json) × List Char)
  | 0, _ => none
  | n + 1, t =>
      match skipSpace t with
      | [] => none
      | c :: rest =>
          if c = '"' then do
            let (key, rest) ← readString (rest.length + 1) rest
            let rest := skipSpace rest
            if rest.head? = some ':' then do
              let (x, rest) ← readValue n rest.tail
              match skipSpace rest with
              | [] => none
              | c :: rest =>
                  if c = ',' then (readFields n rest).map fun p => ((String.ofList key, x) :: p.1, p.2)
                  else if c = '\x7d' then some ([(String.ofList key, x)], rest)
                  else none
            else none
          else none

end

/-- The value of a whole text. -/
def parse (t : List Char) : Option Json := do
  let (v, rest) ← readValue (2 * t.length + 1) t
  if skipSpace rest = [] then some v else none

/-! ## The grammar -/

def Blank (ws : List Char) : Prop := ∀ c ∈ ws, isSpace c = true

/-- The ways to write a character in a string. -/
inductive WrittenChar : Char → List Char → Prop
  | plain {c : Char} (hquote : c ≠ '"') (hslash : c ≠ '\\') (hcontrol : 0x20 ≤ c.toNat) :
      WrittenChar c [c]
  | escaped {c e : Char} (h : unescape e = some c) : WrittenChar c ['\\', e]
  | unicode {c : Char} {h4 : List Char} (hlen : h4.length = 4)
      (h : readHex4 h4 = some (c.toNat, [])) : WrittenChar c ('\\' :: 'u' :: h4)

/-- The ways to write the characters of a string. -/
inductive WrittenChars : List Char → List Char → Prop
  | nil : WrittenChars [] []
  | cons {c : Char} {e s t : List Char} (hc : WrittenChar c e) (hs : WrittenChars s t) :
      WrittenChars (c :: s) (e ++ t)

def quoted (t : List Char) : List Char := '"' :: (t ++ ['"'])

mutual

/-- The texts of a value, without white space around them. -/
inductive Value : Json → List Char → Prop
  | null : Value .null "null".toList
  | tt : Value (.bool true) "true".toList
  | ff : Value (.bool false) "false".toList
  | num (n : Int) : Value (.num n) (toString n).toList
  | str {s t : List Char} (h : WrittenChars s t) : Value (.str s) (quoted t)
  | nil {ws : List Char} (h : Blank ws) : Value (.arr []) ('[' :: (ws ++ [']']))
  | arr {xs : List Json} {t : List Char} (h : Items xs t) : Value (.arr xs) ('[' :: (t ++ [']']))
  | empty {ws : List Char} (h : Blank ws) : Value (.obj []) ('\x7b' :: (ws ++ ['\x7d']))
  | obj {fields : List (String × Json)} {t : List Char} (h : Fields fields t)
      (hkeys : (fields.map Prod.fst).Nodup) : Value (.obj fields) ('\x7b' :: (t ++ ['\x7d']))

/-- The texts of the items of a list that is not empty. -/
inductive Items : List Json → List Char → Prop
  | last {x : Json} {t ws ws' : List Char} (h : Value x t) (hws : Blank ws) (hws' : Blank ws') :
      Items [x] (ws ++ (t ++ ws'))
  | cons {x : Json} {xs : List Json} {t t' ws ws' : List Char} (h : Value x t) (hws : Blank ws)
      (hws' : Blank ws') (hxs : Items xs t') : Items (x :: xs) (ws ++ (t ++ (ws' ++ ',' :: t')))

/-- The texts of the fields of an object that is not empty. -/
inductive Fields : List (String × Json) → List Char → Prop
  | last {key : String} {x : Json} {k t ws ws' ws2 ws3 : List Char}
      (hk : WrittenChars key.toList k) (h : Value x t)
      (hws : Blank ws) (hws' : Blank ws') (hws2 : Blank ws2) (hws3 : Blank ws3) :
      Fields [(key, x)] (ws ++ (quoted k ++ (ws' ++ ':' :: (ws2 ++ (t ++ ws3)))))
  | cons {key : String} {x : Json} {fields : List (String × Json)} {k t t' ws ws' ws2 ws3 : List Char}
      (hk : WrittenChars key.toList k) (h : Value x t)
      (hws : Blank ws) (hws' : Blank ws') (hws2 : Blank ws2) (hws3 : Blank ws3)
      (hfields : Fields fields t') :
      Fields ((key, x) :: fields)
        (ws ++ (quoted k ++ (ws' ++ ':' :: (ws2 ++ (t ++ (ws3 ++ ',' :: t'))))))

end

theorem Blank.append {ws ws' : List Char} (h : Blank ws) (h' : Blank ws') : Blank (ws ++ ws') := by
  intro c hc
  rcases List.mem_append.1 hc with hl | hr
  · exact h c hl
  · exact h' c hr

theorem blank_nil : Blank [] := List.forall_mem_nil _

theorem Items.blank_left {xs : List Json} {t ws : List Char} (h : Items xs t) (hws : Blank ws) :
    Items xs (ws ++ t) := by
  cases h with
  | last h hws1 hws' =>
    rw [← List.append_assoc]
    exact .last h (hws.append hws1) hws'
  | cons h hws1 hws' hxs =>
    rw [← List.append_assoc]
    exact .cons h (hws.append hws1) hws' hxs

theorem Items.blank_right {xs : List Json} {t ws : List Char} (h : Items xs t) (hws : Blank ws) :
    Items xs (t ++ ws) := by
  cases h with
  | last h hws1 hws' =>
    simp only [List.append_assoc]
    exact .last h hws1 (hws'.append hws)
  | cons h hws1 hws' hxs =>
    simp only [List.append_assoc, List.cons_append]
    exact .cons h hws1 hws' (hxs.blank_right hws)

theorem Fields.blank_left {fields : List (String × Json)} {t ws : List Char} (h : Fields fields t)
    (hws : Blank ws) : Fields fields (ws ++ t) := by
  cases h with
  | last hk h hws1 hws' hws2 hws3 =>
    rw [← List.append_assoc]
    exact .last hk h (hws.append hws1) hws' hws2 hws3
  | cons hk h hws1 hws' hws2 hws3 hfields =>
    rw [← List.append_assoc]
    exact .cons hk h (hws.append hws1) hws' hws2 hws3 hfields

theorem Fields.blank_right {fields : List (String × Json)} {t ws : List Char} (h : Fields fields t)
    (hws : Blank ws) : Fields fields (t ++ ws) := by
  cases h with
  | last hk h hws1 hws' hws2 hws3 =>
    simp only [List.append_assoc, List.cons_append]
    exact .last hk h hws1 hws' hws2 (hws3.append hws)
  | cons hk h hws1 hws' hws2 hws3 hfields =>
    simp only [List.append_assoc, List.cons_append]
    exact .cons hk h hws1 hws' hws2 hws3 (hfields.blank_right hws)

/-! ## Values with unique keys -/

mutual

/-- No object of the value has a key twice. -/
def UniqueKeys : Json → Prop
  | .arr xs => UniqueItems xs
  | .obj fields => (fields.map Prod.fst).Nodup ∧ UniqueFields fields
  | _ => True

def UniqueItems : List Json → Prop
  | [] => True
  | x :: xs => UniqueKeys x ∧ UniqueItems xs

def UniqueFields : List (String × Json) → Prop
  | [] => True
  | (_, x) :: fields => UniqueKeys x ∧ UniqueFields fields

end

/-! ## Strings -/

theorem readHex4_append {h4 : List Char} {u : Nat} (hlen : h4.length = 4)
    (h : readHex4 h4 = some (u, [])) (rest : List Char) : readHex4 (h4 ++ rest) = some (u, rest) := by
  match h4, hlen with
  | [a, b, c, d], _ =>
    simp only [readHex4, List.cons_append, List.nil_append] at h ⊢
    cases ha : hexValue a <;> cases hb : hexValue b <;> cases hc : hexValue c <;>
      cases hd : hexValue d <;> simp [ha, hb, hc, hd] at h ⊢
    exact h

theorem toNat_not_surrogate (c : Char) : ¬ (0xD800 ≤ c.toNat ∧ c.toNat < 0xE000) := by
  have h := c.valid
  rcases h with hlt | ⟨hgt, -⟩
  · have : c.toNat < 0xD800 := hlt
    omega
  · have : 0xDFFF < c.toNat := hgt
    omega

theorem readChar_written {c : Char} {e : List Char} (h : WrittenChar c e) (rest : List Char) :
    readChar (e ++ rest) = some (c, rest) := by
  cases h with
  | plain hquote hslash hcontrol =>
    show (if c = '\\' then _ else if c = '"' ∨ c.toNat < 0x20 then none else some (c, rest)) = _
    rw [if_neg hslash, if_neg]
    rintro (hq | hc)
    · exact hquote hq
    · omega
  | escaped h =>
    rename_i e
    have hu : e ≠ 'u' := by
      rintro rfl
      have hnone : unescape 'u' = none := by decide
      rw [hnone] at h
      cases h
    simp only [List.cons_append, List.nil_append, readChar, if_true]
    rw [if_neg hu, h]
    rfl
  | unicode hlen h =>
    rename_i h4
    have hc := toNat_not_surrogate c
    simp only [List.cons_append, readChar, if_true]
    rw [readUnicode, readHex4_append hlen h]
    simp only [Option.bind_eq_bind, Option.bind_some]
    rw [if_neg (by omega), if_neg (by omega), Char.ofNat_toNat]

theorem head?_written {c : Char} {e : List Char} (h : WrittenChar c e) (rest : List Char) :
    (e ++ rest).head? ≠ some '"' := by
  cases h with
  | plain hquote _ _ =>
    intro hhead
    exact hquote (Option.some.inj hhead)
  | escaped _ => exact fun hhead => absurd (Option.some.inj hhead) (by decide)
  | unicode _ _ => exact fun hhead => absurd (Option.some.inj hhead) (by decide)

theorem length_written_pos {c : Char} {e : List Char} (h : WrittenChar c e) : 0 < e.length := by
  cases h with
  | plain _ _ _ => exact Nat.zero_lt_one
  | escaped _ => exact Nat.zero_lt_two
  | unicode _ _ => exact Nat.succ_pos _

theorem readString_written {s t : List Char} (h : WrittenChars s t) (rest : List Char) (n : Nat)
    (hn : s.length < n) : readString n (t ++ '"' :: rest) = some (s, rest) := by
  induction h generalizing n with
  | nil =>
    obtain ⟨n, rfl⟩ : ∃ m, n = m + 1 := ⟨n - 1, by omega⟩
    rfl
  | cons hc _ ih =>
    rw [List.length_cons] at hn
    obtain ⟨n, rfl⟩ : ∃ m, n = m + 1 := ⟨n - 1, by omega⟩
    rw [List.append_assoc, readString, if_neg (head?_written hc _), readChar_written hc]
    simp only [Option.bind_eq_bind, Option.bind_some]
    rw [ih n (by omega)]
    rfl

theorem length_le_of_written {s t : List Char} (h : WrittenChars s t) : s.length ≤ t.length := by
  induction h with
  | nil => exact Nat.le_refl 0
  | cons hc _ ih =>
    have hpos := length_written_pos hc
    rw [List.length_cons, List.length_append]
    omega

/-! ## Numbers -/

/-- What may stand behind a number: nothing that would go on with it. -/
def Delimited (rest : List Char) : Prop :=
  ∀ c ∈ rest.head?, c.isDigit = false ∧ c ≠ '.' ∧ c ≠ 'e' ∧ c ≠ 'E'

theorem exists_toDigits_eq (n : Nat) : ∃ c t, Nat.toDigits 10 n = c :: t ∧ c.isDigit = true := by
  cases h : Nat.toDigits 10 n with
  | nil => exact absurd h Nat.toDigits_ne_nil
  | cons c t =>
    have hc : c ∈ Nat.toDigits 10 n := by
      rw [h]
      exact List.mem_cons_self
    exact ⟨c, t, rfl, Nat.isDigit_of_mem_toDigits (by decide) (by decide) hc⟩

theorem head?_toDigits (n : Nat) (h : (Nat.toDigits 10 n).head? = some '0') : n = 0 := by
  induction n using Nat.strongRecOn with
  | _ n ih =>
    rcases Nat.lt_or_ge n 10 with hlt | hge
    · rw [Nat.toDigits_of_lt_base hlt] at h
      have hdigit : Nat.digitChar n = '0' := Option.some.inj h
      exact (by decide : ∀ n < 10, Nat.digitChar n = '0' → n = 0) n hlt hdigit
    · obtain ⟨c, t, ht, -⟩ := exists_toDigits_eq (n / 10)
      rw [Nat.toDigits_of_base_le (by decide) hge, ht] at h
      have := ih (n / 10) (by omega) (by rw [ht]; exact h)
      omega

theorem readNat_toDigits (n : Nat) {rest : List Char} (h : Delimited rest) :
    readNat (Nat.toDigits 10 n ++ rest) = some (n, rest) := by
  have hdigits : ∀ c ∈ Nat.toDigits 10 n, c.isDigit = true := fun c hc =>
    Nat.isDigit_of_mem_toDigits (by decide) (by decide) hc
  have hrest : rest.takeWhile Char.isDigit = [] ∧ rest.dropWhile Char.isDigit = rest := by
    cases rest with
    | nil => exact ⟨rfl, rfl⟩
    | cons c rest =>
      have hc : ¬ c.isDigit = true := by simp [(h c rfl).1]
      exact ⟨List.takeWhile_cons_of_neg hc, List.dropWhile_cons_of_neg hc⟩
  have htake : (Nat.toDigits 10 n ++ rest).takeWhile Char.isDigit = Nat.toDigits 10 n := by
    rw [List.takeWhile_append_of_pos hdigits, hrest.1, List.append_nil]
  have hdrop : (Nat.toDigits 10 n ++ rest).dropWhile Char.isDigit = rest := by
    rw [List.dropWhile_append_of_pos hdigits, hrest.2]
  have hzero : ¬ (Nat.toDigits 10 n = [] ∨
      (Nat.toDigits 10 n).head? = some '0' ∧ Nat.toDigits 10 n ≠ ['0']) := by
    rintro (hnil | ⟨hhead, hne⟩)
    · exact Nat.toDigits_ne_nil hnil
    · rw [head?_toDigits n hhead] at hne
      exact hne rfl
  have hpoint : ¬ (rest.head? = some '.' ∨ rest.head? = some 'e' ∨ rest.head? = some 'E') := by
    rintro (hc | hc | hc)
    · exact (h _ hc).2.1 rfl
    · exact (h _ hc).2.2.1 rfl
    · exact (h _ hc).2.2.2 rfl
  rw [readNat, htake, hdrop, if_neg hzero, if_neg hpoint, Nat.ofDigitChars_ten_toDigits]

theorem toList_toString_natCast (n : Nat) : (toString (n : Int)).toList = Nat.toDigits 10 n := by
  show n.repr.toList = _
  exact Nat.toList_repr

theorem toList_toString_negSucc (n : Nat) :
    (toString (Int.negSucc n)).toList = '-' :: Nat.toDigits 10 (n + 1) := by
  show ("-" ++ (n + 1).repr).toList = _
  rw [String.toList_append, Nat.toList_repr]
  rfl

theorem readInt_toString (n : Int) {rest : List Char} (h : Delimited rest) :
    readInt ((toString n).toList ++ rest) = some (n, rest) := by
  cases n with
  | ofNat n =>
    obtain ⟨c, t, ht, hc⟩ := exists_toDigits_eq n
    have hsign : c ≠ '-' := by
      rintro rfl
      exact absurd hc (by decide)
    have hread := readNat_toDigits n h
    rw [ht, List.cons_append] at hread
    show readInt ((toString (n : Int)).toList ++ rest) = _
    rw [toList_toString_natCast, ht, List.cons_append, readInt, if_neg hsign, hread]
    rfl
  | negSucc n =>
    rw [toList_toString_negSucc, List.cons_append, readInt, if_pos rfl, readNat_toDigits (n + 1) h]
    rfl

/-! ## White space -/

theorem skipSpace_append {ws : List Char} (h : Blank ws) (t : List Char) :
    skipSpace (ws ++ t) = skipSpace t := List.dropWhile_append_of_pos h

theorem skipSpace_cons {c : Char} (h : isSpace c = false) (t : List Char) :
    skipSpace (c :: t) = c :: t := List.dropWhile_cons_of_neg (by simp [h])

theorem readValue_blank {ws : List Char} (h : Blank ws) (n : Nat) (t : List Char) :
    readValue n (ws ++ t) = readValue n t := by
  cases n with
  | zero => rfl
  | succ n => simp only [readValue, skipSpace_append h]

theorem exists_head {v : Json} {t : List Char} (h : Value v t) :
    ∃ c t', t = c :: t' ∧ isSpace c = false ∧ c ≠ ']' := by
  cases h with
  | num n =>
    cases n with
    | ofNat n =>
      obtain ⟨c, t, ht, hc⟩ := exists_toDigits_eq n
      refine ⟨c, t, (toList_toString_natCast n).trans ht, ?_, ?_⟩
      · rw [Bool.eq_false_iff]
        intro hspace
        simp only [isSpace, Bool.or_eq_true, decide_eq_true_eq] at hspace
        rcases hspace with ((rfl | rfl) | rfl) | rfl <;> exact absurd hc (by decide)
      · rintro rfl
        exact absurd hc (by decide)
    | negSucc n =>
      rw [toList_toString_negSucc]
      exact ⟨'-', _, rfl, by decide, by decide⟩
  | null => exact ⟨'n', "ull".toList, by decide, by decide, by decide⟩
  | tt => exact ⟨'t', "rue".toList, by decide, by decide, by decide⟩
  | ff => exact ⟨'f', "alse".toList, by decide, by decide, by decide⟩
  | str _ => exact ⟨'"', _, rfl, by decide, by decide⟩
  | nil _ => exact ⟨'[', _, rfl, by decide, by decide⟩
  | arr _ => exact ⟨'[', _, rfl, by decide, by decide⟩
  | empty _ => exact ⟨'\x7b', _, rfl, by decide, by decide⟩
  | obj _ _ => exact ⟨'\x7b', _, rfl, by decide, by decide⟩

theorem head?_items {xs : List Json} {t : List Char} (h : Items xs t) (rest : List Char) :
    (skipSpace (t ++ rest)).head? ≠ some ']' := by
  cases h with
  | last h hws _ =>
    obtain ⟨c, t', rfl, hspace, hne⟩ := exists_head h
    rw [List.append_assoc, skipSpace_append hws, List.append_assoc, List.cons_append,
      skipSpace_cons hspace]
    intro hhead
    exact hne (Option.some.inj hhead)
  | cons h hws _ _ =>
    obtain ⟨c, t', rfl, hspace, hne⟩ := exists_head h
    rw [List.append_assoc, skipSpace_append hws, List.append_assoc, List.cons_append,
      skipSpace_cons hspace]
    intro hhead
    exact hne (Option.some.inj hhead)

theorem head?_fields {fields : List (String × Json)} {t : List Char} (h : Fields fields t)
    (rest : List Char) : (skipSpace (t ++ rest)).head? ≠ some '\x7d' := by
  cases h with
  | last _ _ hws _ _ _ =>
    rw [List.append_assoc, skipSpace_append hws, quoted, List.append_assoc, List.cons_append,
      skipSpace_cons (by decide)]
    exact fun hhead => absurd (Option.some.inj hhead) (by decide)
  | cons _ _ hws _ _ _ _ =>
    rw [List.append_assoc, skipSpace_append hws, quoted, List.append_assoc, List.cons_append,
      skipSpace_cons (by decide)]
    exact fun hhead => absurd (Option.some.inj hhead) (by decide)

theorem delimited_of_head {rest : List Char} {c : Char} (h : rest.head? = some c)
    (hc : c = ',' ∨ c = ']' ∨ c = '\x7d' ∨ isSpace c = true) : Delimited rest := by
  intro d hd
  rw [h] at hd
  obtain rfl : c = d := Option.some.inj hd
  rcases hc with rfl | rfl | rfl | hspace
  · decide
  · decide
  · decide
  · simp only [isSpace, Bool.or_eq_true, decide_eq_true_eq] at hspace
    rcases hspace with ((rfl | rfl) | rfl) | rfl <;> decide

theorem delimited_append {ws : List Char} (h : Blank ws) {c : Char} {rest : List Char}
    (hc : c = ',' ∨ c = ']' ∨ c = '\x7d') : Delimited (ws ++ c :: rest) := by
  cases ws with
  | nil => exact delimited_of_head rfl (hc.imp_right fun h => h.imp_right .inl)
  | cons d ws => exact delimited_of_head rfl (.inr (.inr (.inr (h d List.mem_cons_self))))

theorem setFields_of_nodup {fields : List (String × Json)} (h : (fields.map Prod.fst).Nodup) :
    setFields fields = fields := by
  have hfold : ∀ l kept : List (String × Json), ((kept ++ l).map Prod.fst).Nodup →
      l.foldl (fun fields f => setField fields f.1 f.2) kept = kept ++ l := by
    intro l
    induction l with
    | nil => exact fun kept _ => (List.append_nil kept).symm
    | cons f l ih =>
      intro kept hnodup
      have hnew : f.1 ∉ kept.map Prod.fst := by
        intro hmem
        rw [List.map_append, List.nodup_append] at hnodup
        exact hnodup.2.2 f.1 hmem f.1 List.mem_cons_self rfl
      rw [List.foldl_cons, setField, if_neg hnew, ih, List.append_assoc, List.singleton_append]
      rwa [List.append_assoc, List.singleton_append]
  exact hfold fields [] h

/-! ## The parser reads the grammar -/

theorem readWord_append (word : String) (v : Json) (rest : List Char) :
    readWord word v (word.toList ++ rest) = some (v, rest) := by
  rw [readWord, if_pos (List.prefix_append _ _), List.drop_left]

theorem readValue_num (n : Nat) (i : Int) {rest : List Char} (h : Delimited rest) :
    readValue (n + 1) ((toString i).toList ++ rest) = some (.num i, rest) := by
  obtain ⟨c, t, ht, hspace, -⟩ := exists_head (Value.num i)
  have hread := readInt_toString i h
  have hfirst : c = '-' ∨ c.isDigit = true := by
    cases i with
    | ofNat m =>
      obtain ⟨d, t', ht', hd⟩ := exists_toDigits_eq m
      have heq : c :: t = d :: t' := ht.symm.trans ((toList_toString_natCast m).trans ht')
      rw [(List.cons.inj heq).1]
      exact .inr hd
    | negSucc m =>
      rw [toList_toString_negSucc] at ht
      exact .inl (List.cons.inj ht).1.symm
  have hne : ∀ d : Char, d ≠ '-' → d.isDigit = false → c ≠ d := by
    rintro d hminus hdigit rfl
    rcases hfirst with rfl | hc
    · exact hminus rfl
    · exact Bool.false_ne_true (hdigit.symm.trans hc)
  rw [ht, List.cons_append] at hread ⊢
  rw [readValue, skipSpace_cons hspace]
  dsimp only
  rw [if_neg (hne _ (by decide) (by decide)), if_neg (hne _ (by decide) (by decide)),
    if_neg (hne _ (by decide) (by decide)), if_neg (hne _ (by decide) (by decide)),
    if_neg (hne _ (by decide) (by decide)), if_neg (hne _ (by decide) (by decide)), hread]
  rfl

theorem readValue_str (n : Nat) {s t : List Char} (h : WrittenChars s t) (rest : List Char) :
    readValue (n + 1) (quoted t ++ rest) = some (.str s, rest) := by
  have hread := readString_written h rest ((t ++ '"' :: rest).length + 1) (by
    have := length_le_of_written h
    rw [List.length_append]
    omega)
  rw [quoted, List.cons_append, List.append_assoc, List.singleton_append, readValue,
    skipSpace_cons (by decide)]
  dsimp only
  rw [if_pos rfl, hread]
  rfl

theorem readValue_word {word : String} {v : Json} (n : Nat) (c : Char) (t : List Char)
    (hword : word.toList = c :: t)
    (hread : ∀ rest, readValue (n + 1) (c :: rest) = readWord word v (c :: rest)) (rest : List Char) :
    readValue (n + 1) (word.toList ++ rest) = some (v, rest) := by
  rw [← readWord_append word v rest, hword, List.cons_append, hread]

theorem readValue_arr {n : Nat} {xs : List Json} {t rest : List Char} (h : Items xs t)
    (hread : readItems n (t ++ ']' :: rest) = some (xs, rest)) :
    readValue (n + 1) ('[' :: (t ++ [']']) ++ rest) = some (.arr xs, rest) := by
  have hhead := head?_items h (']' :: rest)
  rw [List.cons_append, List.append_assoc, List.singleton_append, readValue, skipSpace_cons (by decide)]
  dsimp only
  rw [if_neg (by decide), if_pos rfl, if_neg hhead, hread]
  rfl

theorem readValue_obj {n : Nat} {fields : List (String × Json)} {t rest : List Char}
    (h : Fields fields t) (hkeys : (fields.map Prod.fst).Nodup)
    (hread : readFields n (t ++ '\x7d' :: rest) = some (fields, rest)) :
    readValue (n + 1) ('\x7b' :: (t ++ ['\x7d']) ++ rest) = some (.obj fields, rest) := by
  have hhead := head?_fields h ('\x7d' :: rest)
  rw [List.cons_append, List.append_assoc, List.singleton_append, readValue, skipSpace_cons (by decide)]
  dsimp only
  rw [if_neg (by decide), if_neg (by decide), if_pos rfl, if_neg hhead, hread, Option.map_some,
    setFields_of_nodup hkeys]

theorem readFields_field {n : Nat} {key : String} {x : Json} {k t ws ws' ws2 ws3 : List Char} {c : Char}
    {rest : List Char} (hk : WrittenChars key.toList k) (hws : Blank ws) (hws' : Blank ws')
    (hws2 : Blank ws2) (hws3 : Blank ws3) (hc : isSpace c = false)
    (hread : readValue n (t ++ (ws3 ++ c :: rest)) = some (x, ws3 ++ c :: rest)) :
    readFields (n + 1) (ws ++ (quoted k ++ (ws' ++ ':' :: (ws2 ++ (t ++ (ws3 ++ c :: rest)))))) =
      if c = ',' then (readFields n rest).map fun p => ((key, x) :: p.1, p.2)
      else if c = '\x7d' then some ([(key, x)], rest)
      else none := by
  set tail := ws' ++ ':' :: (ws2 ++ (t ++ (ws3 ++ c :: rest))) with htail
  have hstring : readString ((k ++ '"' :: tail).length + 1) (k ++ '"' :: tail) =
      some (key.toList, tail) := by
    refine readString_written hk tail _ ?_
    have := length_le_of_written hk
    rw [List.length_append]
    omega
  have hcolon : skipSpace tail = ':' :: (ws2 ++ (t ++ (ws3 ++ c :: rest))) := by
    rw [htail, skipSpace_append hws', skipSpace_cons (by decide)]
  have hvalue : readValue n (ws2 ++ (t ++ (ws3 ++ c :: rest))) = some (x, ws3 ++ c :: rest) := by
    rw [readValue_blank hws2, hread]
  rw [quoted, List.cons_append, List.append_assoc, List.singleton_append, readFields,
    skipSpace_append hws, skipSpace_cons (by decide)]
  dsimp only
  rw [if_pos rfl, hstring]
  simp only [Option.bind_eq_bind, Option.bind_some, hcolon, List.head?_cons, List.tail_cons, if_true,
    hvalue, skipSpace_append hws3, skipSpace_cons hc, String.ofList_toList]

theorem readItems_item {n : Nat} {x : Json} {t ws ws' : List Char} {c : Char} {rest : List Char}
    (hws : Blank ws) (hws' : Blank ws') (hc : isSpace c = false)
    (hread : readValue n (t ++ (ws' ++ c :: rest)) = some (x, ws' ++ c :: rest)) :
    readItems (n + 1) (ws ++ (t ++ (ws' ++ c :: rest))) =
      if c = ',' then (readItems n rest).map fun p => (x :: p.1, p.2)
      else if c = ']' then some ([x], rest)
      else none := by
  rw [readItems, readValue_blank hws, hread]
  simp only [Option.bind_eq_bind, Option.bind_some, skipSpace_append hws', skipSpace_cons hc]

mutual

/-- With fuel for the length of the text, the value that the text stands for is read. -/
theorem readValue_of_value {v : Json} {t : List Char} (h : Value v t) (n : Nat) (rest : List Char)
    (hn : 2 * t.length ≤ n) (hrest : Delimited rest) : readValue n (t ++ rest) = some (v, rest) := by
  obtain ⟨c, t', ht, hspace, -⟩ := exists_head h
  obtain ⟨n, rfl⟩ : ∃ m, n = m + 1 := ⟨n - 1, by rw [ht, List.length_cons] at hn; omega⟩
  cases h with
  | null => exact readValue_word n 'n' "ull".toList (by decide) (fun _ => rfl) rest
  | tt => exact readValue_word n 't' "rue".toList (by decide) (fun _ => rfl) rest
  | ff => exact readValue_word n 'f' "alse".toList (by decide) (fun _ => rfl) rest
  | num i => exact readValue_num n i hrest
  | str h => exact readValue_str n h rest
  | nil hws =>
    rw [List.cons_append, List.append_assoc, List.singleton_append, readValue,
      skipSpace_cons (by decide)]
    simp only [skipSpace_append hws, skipSpace_cons (show isSpace ']' = false by decide)]
    rfl
  | arr h =>
    simp only [List.length_cons, List.length_append, List.length_nil] at hn
    exact readValue_arr h (readItems_of_items h n rest (by omega))
  | empty hws =>
    rw [List.cons_append, List.append_assoc, List.singleton_append, readValue,
      skipSpace_cons (by decide)]
    simp only [skipSpace_append hws, skipSpace_cons (show isSpace '\x7d' = false by decide)]
    rfl
  | obj h hkeys =>
    simp only [List.length_cons, List.length_append, List.length_nil] at hn
    exact readValue_obj h hkeys (readFields_of_fields h n rest (by omega))

theorem readItems_of_items {xs : List Json} {t : List Char} (h : Items xs t) (n : Nat)
    (rest : List Char) (hn : 2 * t.length + 1 ≤ n) :
    readItems n (t ++ ']' :: rest) = some (xs, rest) := by
  obtain ⟨n, rfl⟩ : ∃ m, n = m + 1 := ⟨n - 1, by omega⟩
  cases h with
  | @last x t ws ws' h hws hws' =>
    simp only [List.length_append] at hn
    have hread := readValue_of_value h n (ws' ++ ']' :: rest) (by omega)
      (delimited_append hws' (.inr (.inl rfl)))
    rw [List.append_assoc, List.append_assoc, readItems_item hws hws' (by decide) hread,
      if_neg (by decide), if_pos rfl]
  | @cons x xs t t' ws ws' h hws hws' hxs =>
    simp only [List.length_append, List.length_cons] at hn
    have hread := readValue_of_value h n (ws' ++ ',' :: (t' ++ ']' :: rest)) (by omega)
      (delimited_append hws' (.inl rfl))
    rw [List.append_assoc, List.append_assoc, List.append_assoc, List.cons_append,
      readItems_item hws hws' (by decide) hread, if_pos rfl, readItems_of_items hxs n rest (by omega)]
    rfl

theorem readFields_of_fields {fields : List (String × Json)} {t : List Char} (h : Fields fields t)
    (n : Nat) (rest : List Char) (hn : 2 * t.length + 1 ≤ n) :
    readFields n (t ++ '\x7d' :: rest) = some (fields, rest) := by
  obtain ⟨n, rfl⟩ : ∃ m, n = m + 1 := ⟨n - 1, by omega⟩
  cases h with
  | @last key x k t ws ws' ws2 ws3 hk h hws hws' hws2 hws3 =>
    simp only [List.length_append, List.length_cons] at hn
    have hread := readValue_of_value h n (ws3 ++ '\x7d' :: rest) (by omega)
      (delimited_append hws3 (.inr (.inr rfl)))
    simp only [List.append_assoc, List.cons_append]
    rw [readFields_field hk hws hws' hws2 hws3 (by decide) hread, if_neg (by decide), if_pos rfl]
  | @cons key x fields k t t' ws ws' ws2 ws3 hk h hws hws' hws2 hws3 hfields =>
    simp only [List.length_append, List.length_cons] at hn
    have hread := readValue_of_value h n (ws3 ++ ',' :: (t' ++ '\x7d' :: rest)) (by omega)
      (delimited_append hws3 (.inl rfl))
    simp only [List.append_assoc, List.cons_append]
    rw [readFields_field hk hws hws' hws2 hws3 (by decide) hread, if_pos rfl,
      readFields_of_fields hfields n rest (by omega)]
    rfl

end

/-- A text of a value, with white space around it, is parsed as the value. -/
theorem parse_of_value {v : Json} {t ws ws' : List Char} (h : Value v t) (hws : Blank ws)
    (hws' : Blank ws') : parse (ws ++ (t ++ ws')) = some v := by
  have hrest : Delimited ws' := by
    intro c hc
    exact delimited_of_head hc (.inr (.inr (.inr (hws' c (List.mem_of_head? hc))))) c hc
  have hread : readValue (2 * (ws ++ (t ++ ws')).length + 1) (ws ++ (t ++ ws')) = some (v, ws') := by
    rw [readValue_blank hws]
    refine readValue_of_value h _ ws' ?_ hrest
    simp only [List.length_append]
    omega
  have hend : skipSpace ws' = [] := by
    have := skipSpace_append hws' []
    rwa [List.append_nil] at this
  rw [parse, hread]
  simp only [Option.bind_eq_bind, Option.bind_some, hend, if_true]

end JsonText
