import Mathlib.Algebra.Order.Group.Nat
import Mathlib.Tactic.Common

/-! # Decoding UTF-8 byte by byte

A decoder that never fails: a malformed sequence becomes a replacement
character, and the byte that broke it is read anew. It keeps a state between two
bytes, so a text may be fed in pieces (`feed_append`), cut anywhere.

* `lossy` decodes a whole byte string.
* `encode` is the other direction; what it writes is read back in one go or in
  pieces (`feed_encode`).
* A byte below 128 stands for itself and for nothing else (`step_ascii`,
  `not_mem_lossy`).
* A text stands in the bytes of another only where it stands in its characters
  (`encode_isPrefix_drop_iff`).
-/

namespace Utf8

/-- Between two characters, or inside one: how many bytes it needs after the next
one, what the next one may be, and the bits read so far. -/
inductive State where
  | start
  | inside (more lower upper code : Nat)
deriving DecidableEq, Repr

def replacement : Char := Char.ofNat 0xFFFD

/-- The first byte of a character. -/
def first (n : Nat) : List Char × State :=
  if n ≤ 0x7F then ([Char.ofNat n], .start)
  else if 0xC2 ≤ n ∧ n ≤ 0xDF then ([], .inside 0 0x80 0xBF (n - 0xC0))
  else if n = 0xE0 then ([], .inside 1 0xA0 0xBF 0)
  else if n = 0xED then ([], .inside 1 0x80 0x9F 0xD)
  else if 0xE1 ≤ n ∧ n ≤ 0xEF then ([], .inside 1 0x80 0xBF (n - 0xE0))
  else if n = 0xF0 then ([], .inside 2 0x90 0xBF 0)
  else if 0xF1 ≤ n ∧ n ≤ 0xF3 then ([], .inside 2 0x80 0xBF (n - 0xF0))
  else if n = 0xF4 then ([], .inside 2 0x80 0x8F 4)
  else ([replacement], .start)

/-- The next byte. -/
def step : State → Nat → List Char × State
  | .start, n => first n
  | .inside more lower upper code, n =>
      if lower ≤ n ∧ n ≤ upper then
        match more with
        | 0 => ([Char.ofNat (code * 64 + (n - 0x80))], .start)
        | more + 1 => ([], .inside more 0x80 0xBF (code * 64 + (n - 0x80)))
      else (replacement :: (first n).1, (first n).2)

/-- A piece of the byte string: the characters that are complete, and the state. -/
def feed : State → List UInt8 → List Char × State
  | s, [] => ([], s)
  | s, b :: bytes =>
      let r := step s b.toNat
      (r.1 ++ (feed r.2 bytes).1, (feed r.2 bytes).2)

/-- The end of the byte string: a character cut short is replaced. -/
def flush : State → List Char
  | .start => []
  | .inside .. => [replacement]

/-- A whole byte string. -/
def lossy (bytes : List UInt8) : List Char :=
  (feed .start bytes).1 ++ flush (feed .start bytes).2

def encode (t : List Char) : List UInt8 := t.flatMap String.utf8EncodeChar

variable {s : State} {n : Nat}

@[simp] theorem feed_nil (s : State) : feed s [] = ([], s) := rfl

theorem feed_append (s : State) (a b : List UInt8) :
    feed s (a ++ b) =
      ((feed s a).1 ++ (feed (feed s a).2 b).1, (feed (feed s a).2 b).2) := by
  induction a generalizing s with
  | nil => simp
  | cons x a ih => simp [feed, ih]

@[simp] theorem encode_nil : encode [] = [] := rfl

@[simp] theorem encode_append (a b : List Char) : encode (a ++ b) = encode a ++ encode b :=
  List.flatMap_append

/-! ## What is encoded is read back -/

theorem toNat_ofNat (h : n < 256) : (UInt8.ofNat n).toNat = n := by
  rw [UInt8.toNat_ofNat']
  omega

theorem step_inside_last {lower upper code : Nat} (h : lower ≤ n ∧ n ≤ upper) :
    step (.inside 0 lower upper code) n = ([Char.ofNat (code * 64 + (n - 0x80))], .start) := by
  simp [step, h]

theorem step_inside_more {more lower upper code : Nat} (h : lower ≤ n ∧ n ≤ upper) :
    step (.inside (more + 1) lower upper code) n =
      ([], .inside more 0x80 0xBF (code * 64 + (n - 0x80))) := by
  simp [step, h]

theorem first_ascii (h : n ≤ 0x7F) : step .start n = ([Char.ofNat n], .start) := by
  simp [step, first, h]

theorem first_two (h : 0xC2 ≤ n) (h' : n ≤ 0xDF) :
    step .start n = ([], .inside 0 0x80 0xBF (n - 0xC0)) := by
  rw [step, first, if_neg (by omega), if_pos ⟨h, h'⟩]

theorem first_three (h : 0xE0 ≤ n) (h' : n ≤ 0xEF) :
    step .start n = ([], .inside 1 (if n = 0xE0 then 0xA0 else 0x80)
      (if n = 0xED then 0x9F else 0xBF) (n - 0xE0)) := by
  rw [step, first, if_neg (by omega), if_neg (by omega)]
  split_ifs <;> first | omega | simp [*]

theorem first_four (h : 0xF0 ≤ n) (h' : n ≤ 0xF4) :
    step .start n = ([], .inside 2 (if n = 0xF0 then 0x90 else 0x80)
      (if n = 0xF4 then 0x8F else 0xBF) (n - 0xF0)) := by
  rw [step, first, if_neg (by omega), if_neg (by omega), if_neg (by omega), if_neg (by omega),
    if_neg (by omega)]
  split_ifs <;> first | omega | simp [*]

theorem feed_ofNat {bytes : List UInt8} {out : List Char} {s' : State} (hn : n < 256)
    (h : step s n = (out, s')) :
    feed s (UInt8.ofNat n :: bytes) = (out ++ (feed s' bytes).1, (feed s' bytes).2) := by
  simp [feed, toNat_ofNat hn, h]

theorem feed_encodeChar (c : Char) : feed .start (String.utf8EncodeChar c) = ([c], .start) := by
  have hvalid : c.toNat < 0xD800 ∨ (0xDFFF < c.toNat ∧ c.toNat < 0x110000) := c.valid
  have hc : Char.ofNat c.toNat = c := Char.ofNat_toNat c
  have hval : c.val.toNat = c.toNat := rfl
  simp only [String.utf8EncodeChar, hval]
  generalize c.toNat = v at hvalid hc
  split_ifs with h1 h2 h3
  · rw [feed_ofNat (by omega) (first_ascii h1), hc]
    rfl
  · rw [feed_ofNat (by omega) (first_two (by omega) (by omega)),
      feed_ofNat (by omega) (step_inside_last (by omega))]
    have hcode : (v / 64 % 32 + 192 - 192) * 64 + (v % 64 + 128 - 128) = v := by omega
    rw [hcode, hc]
    rfl
  · -- after E0 not a form too long, after ED not a surrogate
    have hsecond : (if v / 4096 % 16 + 224 = 0xE0 then 0xA0 else 0x80) ≤ v / 64 % 64 + 128 ∧
        v / 64 % 64 + 128 ≤ (if v / 4096 % 16 + 224 = 0xED then 0x9F else 0xBF) := by
      split_ifs <;> omega
    rw [feed_ofNat (by omega) (first_three (by omega) (by omega)),
      feed_ofNat (by omega) (step_inside_more hsecond),
      feed_ofNat (by omega) (step_inside_last (by omega))]
    have hcode : ((v / 4096 % 16 + 224 - 224) * 64 + (v / 64 % 64 + 128 - 128)) * 64
        + (v % 64 + 128 - 128) = v := by omega
    rw [hcode, hc]
    rfl
  · have hsecond : (if v / 262144 % 8 + 240 = 0xF0 then 0x90 else 0x80) ≤ v / 4096 % 64 + 128 ∧
        v / 4096 % 64 + 128 ≤ (if v / 262144 % 8 + 240 = 0xF4 then 0x8F else 0xBF) := by
      split_ifs <;> omega
    rw [feed_ofNat (by omega) (first_four (by omega) (by omega)),
      feed_ofNat (by omega) (step_inside_more hsecond),
      feed_ofNat (by omega) (step_inside_more (by omega)),
      feed_ofNat (by omega) (step_inside_last (by omega))]
    have hcode : (((v / 262144 % 8 + 240 - 240) * 64 + (v / 4096 % 64 + 128 - 128)) * 64
        + (v / 64 % 64 + 128 - 128)) * 64 + (v % 64 + 128 - 128) = v := by omega
    rw [hcode, hc]
    rfl

theorem feed_encode (t : List Char) : feed .start (encode t) = (t, .start) := by
  induction t with
  | nil => rfl
  | cons c t ih =>
    have hsplit : encode (c :: t) = String.utf8EncodeChar c ++ encode t := rfl
    rw [hsplit, feed_append, feed_encodeChar, ih]
    rfl

theorem lossy_encode (t : List Char) : lossy (encode t) = t := by
  simp [lossy, feed_encode, flush]

/-! ## Bytes below 128 -/

/-- The bounds on the next byte leave out what is below 128, and the character that
will be complete is not below 128 either. -/
def State.Wide : State → Prop
  | .start => True
  | .inside more lower _ code =>
      0x80 ≤ lower ∧ 0x80 ≤ (code * 64 + (lower - 0x80)) * 64 ^ more

theorem first_wide (n : Nat) : (first n).2.Wide := by
  unfold first
  split_ifs <;> simp only [State.Wide] <;> omega

theorem step_wide (h : s.Wide) (n : Nat) : (step s n).2.Wide := by
  cases s with
  | start => exact first_wide n
  | inside more lower upper code =>
    simp only [step]
    split
    · next hin =>
        cases more with
        | zero => exact trivial
        | succ more =>
          have hmin : 0x80 ≤ (code * 64 + (lower - 0x80)) * 64 ^ (more + 1) := h.2
          refine ⟨Nat.le_refl _, Nat.le_trans hmin ?_⟩
          rw [Nat.pow_succ', ← Nat.mul_assoc]
          refine Nat.mul_le_mul_right _ ?_
          omega
    · exact first_wide n

/-- A byte below 128 ends what came before it and stands for itself. -/
theorem step_ascii (h : s.Wide) (hn : n ≤ 0x7F) :
    step s n = (flush s ++ [Char.ofNat n], .start) := by
  cases s with
  | start => exact first_ascii hn
  | inside more lower upper code =>
    have hlow : 0x80 ≤ lower := h.1
    have hfirst : first n = ([Char.ofNat n], .start) := first_ascii hn
    simp only [step, hfirst]
    rw [if_neg (by omega)]
    rfl

theorem toNat_charOfNat {k : Nat} (h : 0 < (Char.ofNat k).toNat) : (Char.ofNat k).toNat = k := by
  by_cases hk : k.isValidChar
  · rw [Char.ofNat, dif_pos hk]
    rfl
  · rw [Char.ofNat, dif_neg hk] at h
    cases h

theorem eq_of_mem_first {c : Char} (h : c ∈ (first n).1) (hpos : 0 < c.toNat)
    (hc : c.toNat ≤ 0x7F) : n = c.toNat := by
  by_cases hn : n ≤ 0x7F
  · rw [first, if_pos hn, List.mem_singleton] at h
    subst h
    exact (toNat_charOfNat hpos).symm
  · -- above 127 there is no character yet, or the replacement
    have hout : (first n).1 = [] ∨ (first n).1 = [replacement] := by
      unfold first
      split_ifs <;> simp
    rcases hout with hout | hout <;> rw [hout] at h
    · cases h
    · rw [List.mem_singleton.1 h] at hc
      exact absurd hc (by decide)

theorem eq_of_mem_step {c : Char} (hs : s.Wide) (h : c ∈ (step s n).1) (hpos : 0 < c.toNat)
    (hc : c.toNat ≤ 0x7F) : n = c.toNat := by
  cases s with
  | start => exact eq_of_mem_first h hpos hc
  | inside more lower upper code =>
    simp only [step] at h
    split at h
    · next hin =>
        cases more with
        | zero =>
          have hmin : 0x80 ≤ (code * 64 + (lower - 0x80)) * 64 ^ 0 := hs.2
          have heq : c = Char.ofNat (code * 64 + (n - 0x80)) := List.mem_singleton.1 h
          rw [heq] at hc hpos
          rw [toNat_charOfNat hpos] at hc
          omega
        | succ more => cases h
    · rcases List.mem_cons.1 h with h | h
      · rw [h] at hc
        exact absurd hc (by decide)
      · exact eq_of_mem_first h hpos hc

theorem mem_of_mem_feed {c : Char} {bytes : List UInt8} (hs : s.Wide)
    (h : c ∈ (feed s bytes).1) (hpos : 0 < c.toNat) (hc : c.toNat ≤ 0x7F) :
    UInt8.ofNat c.toNat ∈ bytes := by
  induction bytes generalizing s with
  | nil => cases h
  | cons b bytes ih =>
    rcases List.mem_append.1 h with h | h
    · rw [← eq_of_mem_step hs h hpos hc, UInt8.ofNat_toNat]
      exact List.mem_cons_self
    · exact List.mem_cons_of_mem _ (ih (step_wide hs b.toNat) h)

theorem not_mem_lossy {c : Char} {bytes : List UInt8} (hpos : 0 < c.toNat) (hc : c.toNat ≤ 0x7F)
    (h : UInt8.ofNat c.toNat ∉ bytes) : c ∉ lossy bytes := by
  intro hmem
  rcases List.mem_append.1 hmem with hmem | hmem
  · exact h (mem_of_mem_feed (s := .start) trivial hmem hpos hc)
  · cases hs : (feed .start bytes).2 with
    | start => simp [hs, flush] at hmem
    | inside =>
      rw [hs, flush, List.mem_singleton] at hmem
      rw [hmem] at hc
      exact absurd hc (by decide)

theorem feed_wide {s : State} (hs : s.Wide) (bytes : List UInt8) : (feed s bytes).2.Wide := by
  induction bytes generalizing s with
  | nil => exact hs
  | cons b bytes ih => exact ih (step_wide hs b.toNat)

/-- A byte below 128 after a text is one character more, however the text ends. -/
theorem lossy_append_ascii {b : UInt8} (bytes : List UInt8) (hb : b.toNat ≤ 0x7F) :
    lossy (bytes ++ [b]) = lossy bytes ++ [Char.ofNat b.toNat] := by
  have hlast := step_ascii (feed_wide (s := .start) trivial bytes) hb
  simp [lossy, feed_append, feed, hlast, flush]

/-- A byte below 128 is one character of the text, wherever it stands. -/
theorem mem_feed_of_mem {b : UInt8} {bytes : List UInt8} (hs : s.Wide) (hmem : b ∈ bytes)
    (hb : b.toNat ≤ 0x7F) : Char.ofNat b.toNat ∈ (feed s bytes).1 := by
  induction bytes generalizing s with
  | nil => cases hmem
  | cons x bytes ih =>
    rcases List.mem_cons.1 hmem with rfl | hmem
    · simp [feed, step_ascii hs hb]
    · exact List.mem_append.2 (Or.inr (ih (step_wide hs x.toNat) hmem))

theorem not_mem_encode {b : UInt8} {t : List Char} (hb : b.toNat ≤ 0x7F)
    (h : Char.ofNat b.toNat ∉ t) : b ∉ encode t := by
  intro hmem
  have hchar := mem_feed_of_mem (s := .start) trivial hmem hb
  rw [feed_encode] at hchar
  exact h hchar

/-! ## Where a text stands in the bytes of another -/

/-- A byte that goes on with a character. -/
def Continues (b : UInt8) : Prop := 0x80 ≤ b.toNat ∧ b.toNat ≤ 0xBF

theorem encodeChar_eq_cons (c : Char) :
    ∃ b rest, String.utf8EncodeChar c = b :: rest ∧ ¬ Continues b ∧ ∀ x ∈ rest, Continues x := by
  have hvalid : c.toNat < 0xD800 ∨ (0xDFFF < c.toNat ∧ c.toNat < 0x110000) := c.valid
  have hval : c.val.toNat = c.toNat := rfl
  simp only [String.utf8EncodeChar, hval]
  generalize c.toNat = v at hvalid
  have hnil : ∀ x ∈ ([] : List UInt8), Continues x := fun _ h => absurd h List.not_mem_nil
  have hcons : ∀ n (rest : List UInt8), (∀ x ∈ rest, Continues x) →
      ∀ x ∈ UInt8.ofNat (n % 64 + 128) :: rest, Continues x := by
    intro n rest hrest
    refine List.forall_mem_cons.2 ⟨?_, hrest⟩
    rw [Continues, toNat_ofNat (by omega)]
    omega
  split_ifs with h1 h2 h3
  · refine ⟨_, _, rfl, ?_, hnil⟩
    rw [Continues, toNat_ofNat (by omega)]
    omega
  · refine ⟨_, _, rfl, ?_, hcons _ _ hnil⟩
    rw [Continues, toNat_ofNat (by omega)]
    omega
  · refine ⟨_, _, rfl, ?_, hcons _ _ (hcons _ _ hnil)⟩
    rw [Continues, toNat_ofNat (by omega)]
    omega
  · refine ⟨_, _, rfl, ?_, hcons _ _ (hcons _ _ (hcons _ _ hnil))⟩
    rw [Continues, toNat_ofNat (by omega)]
    omega

theorem encode_cons (c : Char) (t : List Char) : encode (c :: t) = String.utf8EncodeChar c ++ encode t := rfl

theorem encode_isPrefix_iff {a t : List Char} : encode a <+: encode t ↔ a <+: t := by
  constructor
  · rintro ⟨bytes, hbytes⟩
    have hfeed : feed .start (encode a ++ bytes) = (t, .start) := by rw [hbytes, feed_encode]
    rw [feed_append, feed_encode] at hfeed
    exact ⟨_, congrArg Prod.fst hfeed⟩
  · rintro ⟨rest, rfl⟩
    rw [encode_append]
    exact List.prefix_append _ _

theorem encode_isPrefix_drop_iff {a t : List Char} (hne : a ≠ []) {k : Nat} :
    encode a <+: (encode t).drop k ↔ ∃ i, k = (encode (t.take i)).length ∧ a <+: t.drop i := by
  obtain ⟨x, a', rfl⟩ := List.exists_cons_of_ne_nil hne
  obtain ⟨b, rest, hb, hfirst, -⟩ := encodeChar_eq_cons x
  constructor
  · intro h
    induction t generalizing k with
    | nil =>
      rw [encode_nil, List.drop_nil, List.prefix_nil, encode_cons, hb] at h
      cases h
    | cons c t ih =>
      obtain ⟨b', rest', hb', -, hrest'⟩ := encodeChar_eq_cons c
      rcases Nat.lt_or_ge k (String.utf8EncodeChar c).length with hlt | hge
      · cases k with
        | zero => exact ⟨0, rfl, encode_isPrefix_iff.1 h⟩
        | succ k =>
          -- inside a character no other one begins
          exfalso
          rw [hb', List.length_cons] at hlt
          have hdrop : (encode (c :: t)).drop (k + 1) = rest'.drop k ++ encode t := by
            rw [encode_cons, hb', List.cons_append, List.drop_succ_cons,
              List.drop_append_of_le_length (by omega)]
          rw [hdrop, List.drop_eq_getElem_cons (by omega), encode_cons, hb, List.cons_append,
            List.cons_append] at h
          obtain ⟨heq, -⟩ := List.cons_prefix_cons.1 h
          exact hfirst (heq ▸ hrest' _ (List.getElem_mem _))
      · have hdrop : (encode (c :: t)).drop k =
            (encode t).drop (k - (String.utf8EncodeChar c).length) := by
          rw [encode_cons, List.drop_append, List.drop_of_length_le hge, List.nil_append]
        rw [hdrop] at h
        obtain ⟨i, hi, hpre⟩ := ih h
        refine ⟨i + 1, ?_, hpre⟩
        rw [List.take_succ_cons, encode_cons, List.length_append]
        omega
  · rintro ⟨i, rfl, hpre⟩
    have hsplit : encode t = encode (t.take i) ++ encode (t.drop i) := by
      rw [← encode_append, List.take_append_drop]
    rw [hsplit, List.drop_left]
    exact encode_isPrefix_iff.2 hpre

end Utf8
