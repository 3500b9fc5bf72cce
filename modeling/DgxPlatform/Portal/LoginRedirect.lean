import DgxPlatform.Lib.FormEncoding

/-! # The redirect to the login page

A page that is asked for without a session redirects to `/login`, with the path of the page
as the `next` parameter. `login_redirect` decodes the path by hand, byte by byte, and writes
the bytes anew.
-/

namespace Portal.LoginRedirect

open Percent (IsEscape Readable decodeBytes escape hexValue isHex)

/-! ## Decoding -/

/-- `char::to_digit(16)`. -/
def toDigit16 (c : Char) : Option Nat :=
  if '0' ≤ c ∧ c ≤ '9' then some (c.toNat - 48)
  else if 'a' ≤ c ∧ c ≤ 'f' then some (c.toNat - 87)
  else if 'A' ≤ c ∧ c ≤ 'F' then some (c.toNat - 55)
  else none

def hex (c : UInt8) : Option Nat := toDigit16 (Char.ofNat c.toNat)

/-- The `while` loop from a position on. -/
def decodeFrom (raw : List UInt8) (i : Nat) : List UInt8 :=
  if hi : i < raw.length then
    if htwo : raw[i] = 37 ∧ i + 2 < raw.length then
      have hone : i + 1 < raw.length := Nat.lt_of_succ_lt htwo.2
      have := htwo.2
      match hex raw[i + 1], hex raw[i + 2] with
      | some h, some l => UInt8.ofNat (h * 16 + l) :: decodeFrom raw (i + 3)
      | _, _ => raw[i] :: decodeFrom raw (i + 1)
    else raw[i] :: decodeFrom raw (i + 1)
  else []
termination_by raw.length - i

theorem hex_eq (c : UInt8) :
    hex c = if isHex (Char.ofNat c.toNat) = true then some (hexValue (Char.ofNat c.toNat)) else none := by
  have hall : ∀ n < 256, toDigit16 (Char.ofNat n) =
      if isHex (Char.ofNat n) = true then some (hexValue (Char.ofNat n)) else none := by
    decide +kernel
  exact hall c.toNat c.toNat_lt

theorem decodeBytes_percent (a b : UInt8) (t : List UInt8) :
    decodeBytes (37 :: a :: b :: t) =
      match hex a, hex b with
      | some h, some l => UInt8.ofNat (h * 16 + l) :: decodeBytes t
      | _, _ => 37 :: decodeBytes (a :: b :: t) := by
  rw [decodeBytes, hex_eq, hex_eq]
  cases ha : isHex (Char.ofNat a.toNat) <;> cases hb : isHex (Char.ofNat b.toNat) <;> simp [Nat.mul_comm]

theorem decodeFrom_eq (raw : List UInt8) (i : Nat) : decodeFrom raw i = decodeBytes (raw.drop i) := by
  induction hn : raw.length - i using Nat.strong_induction_on generalizing i with
  | _ n ih =>
    rw [decodeFrom]
    by_cases hi : i < raw.length
    · rw [dif_pos hi, List.drop_eq_getElem_cons hi]
      have hone := ih _ (by omega) (i + 1) rfl
      by_cases htwo : raw[i] = 37 ∧ i + 2 < raw.length
      · -- the two bytes behind the sign are there
        have hthree := ih _ (by omega) (i + 3) rfl
        have hdrop : raw.drop (i + 1) = raw[i + 1] :: raw[i + 2] :: raw.drop (i + 3) := by
          rw [List.drop_eq_getElem_cons (by omega), List.drop_eq_getElem_cons (by omega)]
        rw [dif_pos htwo, hone, hthree, hdrop, htwo.1, decodeBytes_percent]
      · rw [dif_neg htwo, hone]
        by_cases hpercent : raw[i] = 37
        · -- the sign is one of the last two bytes
          have hshort : (raw.drop (i + 1)).length < 2 := by
            rw [List.length_drop]
            have hend : ¬ i + 2 < raw.length := fun h => htwo ⟨hpercent, h⟩
            omega
          rw [Percent.decodeBytes_short hshort]
        · rw [Percent.decodeBytes_cons hpercent]
    · rw [dif_neg hi, List.drop_eq_nil_of_le (Nat.le_of_not_lt hi)]
      rfl

/-! ## Writing -/

/-- The bytes that stay as they are: letters, digits and some marks. -/
def isNextByte (b : UInt8) : Bool :=
  (48 ≤ b && b ≤ 57) || (65 ≤ b && b ≤ 90) || (97 ≤ b && b ≤ 122) ||
    (Utf8.encode "-._~!$'()*,/:;?@".toList).contains b

/-- `next`. -/
def nextText (decoded : List UInt8) : List Char := decoded.flatMap (FormEncoding.formByte isNextByte)

def target (raw : List UInt8) : List Char := "/login?next=".toList ++ nextText (decodeFrom raw 0)

/-- The marks of markup as entities. -/
def escapeHtml (t : List Char) : List Char :=
  t.flatMap fun c =>
    if c = '&' then "&amp;".toList
    else if c = '<' then "&lt;".toList
    else if c = '>' then "&gt;".toList
    else if c = '"' then "&#34;".toList
    else if c = '\x27' then "&#39;".toList
    else [c]

structure Response where
  status : Nat
  headers : List (List Char × List Char)
  body : List Char

/-- What a header value may have: visible characters, spaces and tabs. -/
def isHeaderChar (c : Char) : Bool := (32 ≤ c.toNat && c.toNat != 127) || c == '\t'

/-- `login_redirect`; a value that no header can have makes the answer an error. -/
def loginRedirect (raw : List UInt8) : Response :=
  let escaped := escapeHtml (target raw)
  let body := "<!doctype html>\n<html lang=en>\n<title>Redirecting...</title>\n<h1>Redirecting...</h1>\n".toList ++
    "<p>You should be redirected automatically to the target URL: <a href=\"".toList ++
    escaped ++ "\">".toList ++ escaped ++ "</a>. If not, click the link.\n".toList
  if (target raw).all isHeaderChar then
    { status := 302
      headers := [("location".toList, target raw), ("content-type".toList, "text/html; charset=utf-8".toList)]
      body := body }
  else { status := 500, headers := [], body := "failed to parse header value".toList }

theorem readable_next : Readable isNextByte := by
  have hall : ∀ n < 256, isNextByte (UInt8.ofNat n) = true → n < 128 ∧ n ≠ 37 := by decide +kernel
  intro b hb
  have hb' := hall b.toNat b.toNat_lt (by rw [UInt8.ofNat_toNat]; exact hb)
  refine ⟨hb'.1, ?_⟩
  rintro rfl
  exact hb'.2 rfl

/-- The characters that are written: visible ones, and no mark that ends a value. -/
theorem nextText_plain {c : Char} {bs : List UInt8} (h : c ∈ nextText bs) :
    (33 ≤ c.toNat ∧ c.toNat < 127) ∧ c ≠ '&' ∧ c ≠ '#' := by
  have hkept : ∀ n < 256, isNextByte (UInt8.ofNat n) = true →
      (33 ≤ (Char.ofNat n).toNat ∧ (Char.ofNat n).toNat < 127) ∧ Char.ofNat n ≠ '&' ∧ Char.ofNat n ≠ '#' := by
    decide +kernel
  have hdigits : ∀ x ∈ "0123456789ABCDEF".toList, (33 ≤ x.toNat ∧ x.toNat < 127) ∧ x ≠ '&' ∧ x ≠ '#' :=
    Text.forall_of_all (by decide)
  rcases FormEncoding.mem_formByte h with ⟨b, hb, rfl⟩ | rfl | rfl | hhex
  · exact hkept b.toNat b.toNat_lt (by rw [UInt8.ofNat_toNat]; exact hb)
  · decide
  · decide
  · exact hdigits c hhex

theorem target_plain {c : Char} {raw : List UInt8} (h : c ∈ target raw) :
    (33 ≤ c.toNat ∧ c.toNat < 127) ∧ c ≠ '&' ∧ c ≠ '#' := by
  have hfront : ∀ x ∈ "/login?next=".toList, (33 ≤ x.toNat ∧ x.toNat < 127) ∧ x ≠ '&' ∧ x ≠ '#' :=
    Text.forall_of_all (by decide)
  rcases List.mem_append.1 h with hmem | hmem
  · exact hfront c hmem
  · exact nextText_plain hmem

/-! ## The address -/

/-- The query of an address, without its fragment. -/
def query (address : List Char) : Option (List Char) :=
  let page := ((Text.splitOnce ['#'] address).map Prod.fst).getD address
  (Text.splitOnce ['?'] page).map Prod.snd

theorem query_target (raw : List UInt8) :
    query (target raw) = some ("next".toList ++ '=' :: nextText (decodeFrom raw 0)) := by
  have hnone : Text.splitOnce ['#'] (target raw) = none := by
    rw [Text.splitOnce_eq_none, List.singleton_infix_iff]
    intro hmem
    exact (target_plain hmem).2.2 rfl
  have hsplit : Text.splitOnce ['?'] (target raw) =
      some ("/login".toList, "next".toList ++ '=' :: nextText (decodeFrom raw 0)) :=
    Text.splitOnce_singleton (c := '?') (a := "/login".toList) (by decide) _
  rw [query, hnone, Option.map_none, Option.getD_none, hsplit]
  rfl

/-- The redirect is sent, its address has one parameter, the page that was asked for, and only
characters that no part of the way reads as something else. -/
theorem loginRedirect_next (raw : List UInt8) :
    (loginRedirect raw).status = 302 ∧
      ("location".toList, target raw) ∈ (loginRedirect raw).headers ∧
      (query (target raw)).map FormEncoding.readQuery = some [(Utf8.encode "next".toList, decodeBytes raw)] ∧
      (∀ c ∈ target raw, (33 ≤ c.toNat ∧ c.toNat < 127) ∧ c ≠ '&' ∧ c ≠ '#') ∧
      ∀ a r, target raw = a ++ '%' :: r → ∃ b r', isNextByte b = false ∧ '%' :: r = escape b ++ r' := by
  have hlegal : (target raw).all isHeaderChar = true := by
    rw [List.all_eq_true]
    intro c hc
    have hrange := (target_plain hc).1
    unfold isHeaderChar
    have hlow : 32 ≤ c.toNat := by omega
    have hne : c.toNat ≠ 127 := by omega
    simp [hlow, hne]
  have hsent : loginRedirect raw = { loginRedirect raw with
      status := 302
      headers := [("location".toList, target raw), ("content-type".toList, "text/html; charset=utf-8".toList)] } := by
    unfold loginRedirect
    rw [if_pos hlegal]
  refine ⟨?_, ?_, ?_, fun c hc => target_plain hc, ?_⟩
  · rw [hsent]
  · rw [hsent]
    exact List.mem_cons_self
  · have hamp : '&' ∉ nextText (decodeFrom raw 0) := fun hmem => (nextText_plain hmem).2.1 rfl
    rw [query_target, Option.map_some, FormEncoding.readQuery_pair (by decide) hamp, nextText,
      FormEncoding.readText_formByte (by decide) readable_next, decodeFrom_eq, List.drop_zero]
    rfl
  · intro a r h
    unfold target at h
    rcases List.append_eq_append_iff.1 h with ⟨m, rfl, hm⟩ | ⟨m, hfront, hm⟩
    · exact FormEncoding.percent_formByte readable_next hm
    · -- the sign is not in the front
      cases m with
      | nil => exact FormEncoding.percent_formByte readable_next (a := []) hm.symm
      | cons x m =>
          rw [List.cons_append, List.cons.injEq] at hm
          have hmem : '%' ∈ "/login?next=".toList := by
            rw [hfront, hm.1]
            exact List.mem_append_right a List.mem_cons_self
          exact absurd hmem (by decide)

end Portal.LoginRedirect
