import DgxPlatform.Lib.Text
import Mathlib.Data.List.Basic
import Mathlib.Tactic.Common

/-! # The words of a command line

`shell_words` splits the value of one environment variable into arguments. It carries the
quote it is in, and a flag that something of a word has been seen, so that `''` is a word.

* `shellWords_line`: quoted words, a space between each two, are read back.
-/

namespace Runner.ShellWords

open Text (isWhitespace)

def IsMark (c : Char) : Prop := c = '\x27' ∨ c = '"'

instance (c : Char) : Decidable (IsMark c) := inferInstanceAs (Decidable (_ ∨ _))

structure Split where
  out : List (List Char)
  cur : List Char
  quote : Option Char
  any : Bool

/-- In front of a word. -/
def between (out : List (List Char)) : Split := { out := out, cur := [], quote := none, any := false }

/-- One character. -/
def Split.step (s : Split) (c : Char) : Split :=
  match s.quote with
  | some q =>
      if c = q then { s with quote := none }
      else { s with cur := s.cur ++ [c], any := true }
  | none =>
      if IsMark c then { s with quote := some c, any := true }
      else if isWhitespace c then
        if s.any || !s.cur.isEmpty then { s with out := s.out ++ [s.cur], cur := [], any := false } else s
      else { s with cur := s.cur ++ [c], any := true }

/-- What is returned at the end. -/
def Split.finish (s : Split) : List (List Char) :=
  if s.any || !s.cur.isEmpty then s.out ++ [s.cur] else s.out

def shellWords (raw : List Char) : List (List Char) := (raw.foldl Split.step (between [])).finish

/-! ## Quoted words -/

/-- A word with a quote character that it does not contain. -/
structure Quoted where
  token : List Char
  mark : Char
  isMark : IsMark mark
  notMem : mark ∉ token

def Quoted.text (w : Quoted) : List Char := w.mark :: w.token ++ [w.mark]

/-- The words as they are written on one line. -/
def line (ws : List Quoted) : List Char := [' '].intercalate (ws.map Quoted.text)

theorem exists_quoted_iff {tokens : List (List Char)} :
    (∃ ws : List Quoted, ws.map Quoted.token = tokens) ↔ ∀ t ∈ tokens, ¬ ('\x27' ∈ t ∧ '"' ∈ t) := by
  constructor
  · rintro ⟨ws, rfl⟩ t ht hboth
    rcases List.mem_map.1 ht with ⟨w, -, rfl⟩
    rcases w.isMark with hm | hm
    · exact w.notMem (hm ▸ hboth.1)
    · exact w.notMem (hm ▸ hboth.2)
  · intro h
    induction tokens with
    | nil => exact ⟨[], rfl⟩
    | cons t tokens ih =>
      rw [List.forall_mem_cons] at h
      rcases ih h.2 with ⟨ws, rfl⟩
      by_cases hsingle : '\x27' ∈ t
      · have hdouble : '"' ∉ t := fun hmem => h.1 ⟨hsingle, hmem⟩
        exact ⟨⟨t, '"', Or.inr rfl, hdouble⟩ :: ws, rfl⟩
      · exact ⟨⟨t, '\x27', Or.inl rfl, hsingle⟩ :: ws, rfl⟩

theorem foldl_inside {q : Char} {t : List Char} (h : q ∉ t) {s : Split} (hs : s.quote = some q) (hany : s.any = true) :
    t.foldl Split.step s = { s with cur := s.cur ++ t } := by
  induction t generalizing s with
  | nil =>
    rw [List.foldl_nil, List.append_nil]
  | cons c t ih =>
    rw [List.mem_cons, not_or] at h
    have hstep : s.step c = { s with cur := s.cur ++ [c] } := by
      rw [Split.step, hs]
      dsimp only
      rw [if_neg (Ne.symm h.1), ← hs, ← hany]
    have hrest := ih h.2 (s := { s with cur := s.cur ++ [c] }) hs hany
    rw [List.foldl_cons, hstep, hrest]
    simp only [List.append_assoc, List.singleton_append]

theorem foldl_quoted (w : Quoted) (out : List (List Char)) :
    w.text.foldl Split.step (between out) =
      { out := out, cur := w.token, quote := none, any := true } := by
  have hopen : Split.step (between out) w.mark =
      { out := out, cur := [], quote := some w.mark, any := true } := by
    simp only [Split.step, between]
    rw [if_pos w.isMark]
  rw [Quoted.text, List.cons_append, List.foldl_cons, hopen, List.foldl_append, foldl_inside w.notMem rfl rfl]
  simp [Split.step]

theorem shellWords_from (ws : List Quoted) (out : List (List Char)) :
    ((line ws).foldl Split.step (between out)).finish = out ++ ws.map Quoted.token := by
  induction ws generalizing out with
  | nil =>
    rw [List.map_nil, List.append_nil]
    rfl
  | cons w ws ih =>
    cases ws with
    | nil =>
      have hline : line [w] = w.text := by simp [line, List.intercalate]
      rw [hline, foldl_quoted]
      rfl
    | cons w' ws =>
      have hline : line (w :: w' :: ws) = w.text ++ ' ' :: line (w' :: ws) := by
        simp [line, List.intercalate]
      have hspace : Split.step { out := out, cur := w.token, quote := none, any := true } ' ' =
          between (out ++ [w.token]) := by
        rfl
      rw [hline, List.foldl_append, foldl_quoted, List.foldl_cons, hspace, ih, List.append_assoc]
      rfl

theorem shellWords_line (ws : List Quoted) : shellWords (line ws) = ws.map Quoted.token :=
  shellWords_from ws []

/-! ## Where the characters come from -/

/-- The quote that is open behind a text. -/
def openQuote (t : List Char) : Option Char :=
  t.foldl (fun quote c =>
    match quote with
    | some q => if c = q then none else some q
    | none => if IsMark c then some c else none) none

/-- The quote a character stands in. -/
def quoteAt (raw : List Char) (i : Fin raw.length) : Option Char := openQuote (raw.take i)

/-- The characters that become part of a word: in a quote all but its end, outside those that
are neither a mark nor white space. -/
def Kept (raw : List Char) (i : Fin raw.length) : Prop :=
  match quoteAt raw i with
  | some q => raw.get i ≠ q
  | none => ¬ IsMark (raw.get i) ∧ isWhitespace (raw.get i) = false

/-- The scanner in front of a position: the words and the current word are made of characters
at these places. -/
structure Inv (raw : List Char) (n : Nat) (s : Split) (places : List (List (Fin raw.length)))
    (word : List (Fin raw.length)) : Prop where
  out : s.out = places.map fun is => is.map raw.get
  cur : s.cur = word.map raw.get
  quote : s.quote = openQuote (raw.take n)
  any : s.any = false → s.cur = []
  increasing : (places.flatten ++ word).Pairwise (· < ·)
  mem : ∀ i : Fin raw.length, i ∈ places.flatten ++ word ↔ i.val < n ∧ Kept raw i

section Step

variable {raw : List Char} {n : Nat} {s : Split} {places : List (List (Fin raw.length))} {cur : List (Fin raw.length)}

theorem openQuote_succ (hn : n < raw.length) :
    openQuote (raw.take (n + 1)) =
      match openQuote (raw.take n) with
      | some q => if raw[n] = q then none else some q
      | none => if IsMark raw[n] then some raw[n] else none := by
  rw [List.take_succ_eq_append_getElem hn, openQuote, List.foldl_append]
  rfl

theorem mem_drop (hinv : Inv raw n s places cur) (hn : n < raw.length) (hdrop : ¬ Kept raw ⟨n, hn⟩) (i : Fin raw.length) :
    i ∈ places.flatten ++ cur ↔ i.val < n + 1 ∧ Kept raw i := by
  rw [hinv.mem]
  constructor
  · rintro ⟨hi, hkept⟩
    exact ⟨Nat.lt_succ_of_lt hi, hkept⟩
  · rintro ⟨hi, hkept⟩
    refine ⟨?_, hkept⟩
    rcases Nat.lt_succ_iff_lt_or_eq.1 hi with hlt | heq
    · exact hlt
    · have hsame : i = ⟨n, hn⟩ := Fin.ext heq
      rw [hsame] at hkept
      exact absurd hkept hdrop

theorem inv_keep (hinv : Inv raw n s places cur) (hn : n < raw.length) (hkept : Kept raw ⟨n, hn⟩)
    (hquote : openQuote (raw.take (n + 1)) = s.quote) :
    Inv raw (n + 1) { s with cur := s.cur ++ [raw[n]], any := true } places (cur ++ [⟨n, hn⟩]) where
  out := hinv.out
  cur := by
    rw [List.map_append, hinv.cur]
    rfl
  quote := hquote.symm
  any := fun h => absurd h (by simp)
  increasing := by
    rw [← List.append_assoc, List.pairwise_append]
    refine ⟨hinv.increasing, List.pairwise_singleton _ _, ?_⟩
    intro i hi j hj
    rw [List.mem_singleton.1 hj]
    exact ((hinv.mem i).1 hi).1
  mem := by
    intro i
    rw [← List.append_assoc, List.mem_append, hinv.mem, List.mem_singleton, Nat.lt_succ_iff_lt_or_eq]
    constructor
    · rintro (⟨hi, hk⟩ | rfl)
      · exact ⟨Or.inl hi, hk⟩
      · exact ⟨Or.inr rfl, hkept⟩
    · rintro ⟨hi | hi, hk⟩
      · exact Or.inl ⟨hi, hk⟩
      · exact Or.inr (Fin.ext hi)

theorem inv_step (hinv : Inv raw n s places cur) (hn : n < raw.length) :
    ∃ places' cur', Inv raw (n + 1) (s.step raw[n]) places' cur' := by
  have hnext := openQuote_succ hn
  rw [← hinv.quote] at hnext
  have hat : quoteAt raw ⟨n, hn⟩ = s.quote := hinv.quote.symm
  cases hq : s.quote with
  | some q =>
    rw [hq] at hnext hat
    dsimp only at hnext
    by_cases hc : raw[n] = q
    · -- the end of the quote
      have hdrop : ¬ Kept raw ⟨n, hn⟩ := by
        unfold Kept
        rw [hat]
        exact fun hne => hne hc
      refine ⟨places, cur, ?_⟩
      have hstep : s.step raw[n] = { s with quote := none } := by
        rw [Split.step, hq]
        exact if_pos hc
      rw [hstep]
      rw [if_pos hc] at hnext
      exact ⟨hinv.out, hinv.cur, hnext.symm, hinv.any, hinv.increasing, mem_drop hinv hn hdrop⟩
    · have hkept : Kept raw ⟨n, hn⟩ := by
        unfold Kept
        rw [hat]
        exact hc
      refine ⟨places, cur ++ [⟨n, hn⟩], ?_⟩
      have hstep : s.step raw[n] = { s with cur := s.cur ++ [raw[n]], any := true } := by
        rw [Split.step, hq]
        exact if_neg hc
      rw [if_neg hc, ← hq] at hnext
      rw [hstep]
      exact inv_keep hinv hn hkept hnext
  | none =>
    rw [hq] at hnext hat
    dsimp only at hnext
    by_cases hmark : IsMark raw[n]
    · -- a quote begins
      have hdrop : ¬ Kept raw ⟨n, hn⟩ := by
        unfold Kept
        rw [hat]
        exact fun h => h.1 hmark
      refine ⟨places, cur, ?_⟩
      have hstep : s.step raw[n] = { s with quote := some raw[n], any := true } := by
        rw [Split.step, hq]
        exact if_pos hmark
      rw [hstep]
      rw [if_pos hmark] at hnext
      exact ⟨hinv.out, hinv.cur, hnext.symm, fun h => absurd h (by simp), hinv.increasing, mem_drop hinv hn hdrop⟩
    · rw [if_neg hmark, ← hq] at hnext
      by_cases hspace : isWhitespace raw[n] = true
      · have hdrop : ¬ Kept raw ⟨n, hn⟩ := by
          unfold Kept
          rw [hat]
          intro h
          rw [List.get_eq_getElem, hspace] at h
          exact absurd h.2 (by decide)
        by_cases hany : (s.any || !s.cur.isEmpty) = true
        · -- a word ends
          refine ⟨places ++ [cur], [], ?_⟩
          have hstep : s.step raw[n] = { s with out := s.out ++ [s.cur], cur := [], any := false } := by
            rw [Split.step, hq]
            dsimp only
            rw [if_neg hmark, if_pos hspace, if_pos hany]
          have hflat : (places ++ [cur]).flatten ++ [] = places.flatten ++ cur := by simp
          rw [hstep]
          refine ⟨?_, rfl, hnext.symm, fun _ => rfl, ?_, ?_⟩
          · rw [List.map_append, ← hinv.out, hinv.cur]
            rfl
          · rw [hflat]
            exact hinv.increasing
          · rw [hflat]
            exact mem_drop hinv hn hdrop
        · refine ⟨places, cur, ?_⟩
          have hstep : s.step raw[n] = s := by
            rw [Split.step, hq]
            dsimp only
            rw [if_neg hmark, if_pos hspace, if_neg hany]
          rw [hstep]
          exact ⟨hinv.out, hinv.cur, hnext.symm, hinv.any, hinv.increasing, mem_drop hinv hn hdrop⟩
      · have hkept : Kept raw ⟨n, hn⟩ := by
          unfold Kept
          rw [hat]
          exact ⟨hmark, by simpa using hspace⟩
        refine ⟨places, cur ++ [⟨n, hn⟩], ?_⟩
        have hstep : s.step raw[n] = { s with cur := s.cur ++ [raw[n]], any := true } := by
          rw [Split.step, hq]
          dsimp only
          rw [if_neg hmark, if_neg hspace]
        rw [hstep]
        exact inv_keep hinv hn hkept hnext

end Step

theorem inv_run (raw : List Char) (n : Nat) (hn : n ≤ raw.length) :
    ∃ places cur, Inv raw n ((raw.take n).foldl Split.step (between [])) places cur := by
  induction n with
  | zero =>
    refine ⟨[], [], rfl, rfl, rfl, fun _ => rfl, List.Pairwise.nil, ?_⟩
    intro i
    simp
  | succ n ih =>
    rcases ih (Nat.le_of_succ_le hn) with ⟨places, cur, hinv⟩
    rw [List.take_succ_eq_append_getElem hn, List.foldl_append]
    exact inv_step hinv hn

/-- The words are made of the kept characters, each one once and in order. -/
theorem exists_places (raw : List Char) :
    ∃ places : List (List (Fin raw.length)), (shellWords raw = places.map fun is => is.map raw.get) ∧
      places.flatten.Pairwise (· < ·) ∧ ∀ i, i ∈ places.flatten ↔ Kept raw i := by
  rcases inv_run raw raw.length (Nat.le_refl _) with ⟨places, cur, hinv⟩
  rw [List.take_length] at hinv
  have hmem : ∀ i, i ∈ places.flatten ++ cur ↔ Kept raw i := fun i => (hinv.mem i).trans (and_iff_right i.isLt)
  unfold shellWords Split.finish
  by_cases hany : ((raw.foldl Split.step (between [])).any || !(raw.foldl Split.step (between [])).cur.isEmpty) = true
  · have hflat : (places ++ [cur]).flatten = places.flatten ++ cur := by simp
    refine ⟨places ++ [cur], ?_, ?_, ?_⟩
    · rw [if_pos hany, List.map_append, ← hinv.out, hinv.cur]
      rfl
    · rw [hflat]
      exact hinv.increasing
    · rw [hflat]
      exact hmem
  · -- no word is open, nothing is left over
    have hcur : cur = [] := by
      rw [Bool.or_eq_true, not_or] at hany
      have hnil := hinv.any (by simpa using hany.1)
      rw [hinv.cur] at hnil
      exact List.map_eq_nil_iff.1 hnil
    rw [hcur, List.append_nil] at hmem
    refine ⟨places, ?_, ?_, hmem⟩
    · rw [if_neg hany, hinv.out]
    · have hinc := hinv.increasing
      rw [hcur, List.append_nil] at hinc
      exact hinc

/-- Splitting undoes quoting, for all words that do not contain both marks, and of no input does
white space outside quotes get into a word. -/
theorem shellWords_quoting :
    (∀ tokens, (∃ ws : List Quoted, ws.map Quoted.token = tokens) ↔ ∀ t ∈ tokens, ¬ ('\x27' ∈ t ∧ '"' ∈ t)) ∧
      (∀ ws : List Quoted, shellWords (line ws) = ws.map Quoted.token) ∧
      ∀ raw : List Char, ∃ places : List (List (Fin raw.length)),
        (shellWords raw = places.map fun is => is.map raw.get) ∧ places.flatten.Pairwise (· < ·) ∧
          ∀ i ∈ places.flatten, ¬ (isWhitespace (raw.get i) = true ∧ quoteAt raw i = none) := by
  refine ⟨fun tokens => exists_quoted_iff, shellWords_line, ?_⟩
  intro raw
  rcases exists_places raw with ⟨places, hwords, hinc, hmem⟩
  refine ⟨places, hwords, hinc, ?_⟩
  rintro i hi ⟨hspace, hnone⟩
  have hkept := (hmem i).1 hi
  unfold Kept at hkept
  rw [hnone] at hkept
  rw [hkept.2] at hspace
  exact absurd hspace (by decide)

example : shellWords "--flash-attn on '' \"a b\"".toList =
    ["--flash-attn".toList, "on".toList, [], "a b".toList] := by decide

end Runner.ShellWords
