import DgxPlatform.Portal.AskFences
import DgxPlatform.Portal.AskText

/-! # A questionnaire that is cut

`parseAsk` on each beginning of a message with a questionnaire: what it finds in the block and in
the whole text are the same objects, the questionnaire and its questions, and each question counts
once.
-/

namespace Portal.Ask

open Framing (cut)
open JsonMachine
open JsonText (WrittenChar)
open Repair (readJson)
open Text

/-! ## Where nothing matches -/

/-- Nowhere in the text, which goes on with `r`, does a pattern match. -/
def Quiet (pattern : List Char → Bool) (a r : List Char) : Prop :=
  ∀ b, b <:+ a → b ≠ [] → pattern (b ++ r) = false

variable {pattern : List Char → Bool} {a b r : List Char}

theorem Quiet.nil : Quiet pattern [] r := fun _ hb hne => absurd (List.suffix_nil.1 hb) hne

variable {c : Char}

theorem Quiet.cons (hc : pattern (c :: (a ++ r)) = false) (h : Quiet pattern a r) :
    Quiet pattern (c :: a) r := by
  intro b hb hne
  rcases List.suffix_cons_iff.1 hb with rfl | hb
  · exact hc
  · exact h b hb hne

theorem Quiet.head (h : Quiet pattern (c :: a) r) : pattern (c :: (a ++ r)) = false :=
  h (c :: a) List.suffix_rfl (List.cons_ne_nil c a)

theorem Quiet.tail (h : Quiet pattern (c :: a) r) : Quiet pattern a r :=
  fun b hb hne => h b (hb.trans (List.suffix_cons c a)) hne

theorem Quiet.append (ha : Quiet pattern a (b ++ r)) (hb : Quiet pattern b r) : Quiet pattern (a ++ b) r := by
  induction a with
  | nil => exact hb
  | cons c a ih =>
    refine .cons ?_ (ih ha.tail)
    show pattern (c :: ((a ++ b) ++ r)) = false
    rw [List.append_assoc]
    exact ha.head

/-- A pattern that begins with a character. -/
def Starts (pattern : List Char → Bool) (c : Char) : Prop := ∀ t, pattern t = true → t.head? = some c

theorem quiet_of_not_mem (hstart : Starts pattern c) (h : c ∉ a) : Quiet pattern a r := by
  intro b hb hne
  obtain ⟨d, b, rfl⟩ := List.exists_cons_of_ne_nil hne
  rw [Bool.eq_false_iff]
  intro hmatch
  have hd : d = c := Option.some.inj (hstart _ hmatch)
  exact h (hb.subset (by rw [hd]; exact List.mem_cons_self))

/-- A pattern that matches still matches when the text goes on. -/
def Goes (pattern : List Char → Bool) : Prop := ∀ t u, pattern t = true → pattern (t ++ u) = true

theorem Quiet.begun (hgoes : Goes pattern) (h : Quiet pattern a r) (hb : b <+: a) : Quiet pattern b [] := by
  intro c hc hne
  obtain ⟨d, rfl⟩ := hb
  obtain ⟨e, rfl⟩ := hc
  rw [Bool.eq_false_iff]
  intro hmatch
  rw [List.append_nil] at hmatch
  have hlong := h (c ++ d) ⟨e, (List.append_assoc _ _ _).symm⟩ (by simp [hne])
  rw [List.append_assoc, hgoes c _ hmatch] at hlong
  cases hlong

/-! ## The start of a question object, and a fence -/

/-- A fence stands here. -/
def fenceAt (t : List Char) : Bool := decide (fence <+: t)

theorem starts_fenceAt : Starts fenceAt '\x60' := by
  intro t ht
  obtain ⟨u, rfl⟩ := of_decide_eq_true ht
  rfl

theorem goes_fenceAt : Goes fenceAt := by
  intro t u ht
  exact decide_eq_true ((of_decide_eq_true ht).trans (List.prefix_append t u))

variable {fold : Char → Char}

theorem expect_eq_some {word t u : List Char} (h : expect fold word t = some u) :
    (t.take word.length).map fold = word ∧ u = t.drop word.length := by
  unfold expect at h
  split_ifs at h with hword
  exact ⟨hword, (Option.some.inj h).symm⟩

/-- How the text behind the brace of a candidate begins. -/
def Quoted (t : List Char) : Prop :=
  ∃ c d u, skip t = c :: d :: u ∧ c.toLower = '"' ∧ d.toLower = 'q'

theorem quoted_of_expect {word z : List Char} (h : ((skip z).take word.length).map Char.toLower = word)
    (hword : ∃ rest, word = '"' :: 'q' :: rest) : Quoted z := by
  obtain ⟨rest, rfl⟩ := hword
  rw [List.length_cons, List.length_cons] at h
  rcases hz : skip z with _ | ⟨c, _ | ⟨d, u⟩⟩
  · rw [hz] at h
    cases h
  · have hlen := congrArg List.length h
    rw [hz] at hlen
    simp only [List.length_map, List.length_take, List.length_cons, List.length_nil] at hlen
    omega
  · rw [hz, List.take_succ_cons, List.take_succ_cons, List.map_cons, List.map_cons] at h
    exact ⟨c, d, u, hz, (List.cons.inj h).1, (List.cons.inj (List.cons.inj h).2).1⟩

theorem candidateAt_spec {t : List Char} (h : candidateAt t = true) : ∃ z, t = '\x7b' :: z ∧ Quoted z := by
  obtain ⟨u, hu⟩ := Option.isSome_iff_exists.1 h
  obtain ⟨v, hv, -⟩ := Option.bind_eq_some_iff.1 hu
  obtain ⟨z, hz, hword⟩ := Option.bind_eq_some_iff.1 hv
  obtain ⟨hbrace, rfl⟩ := expect_eq_some hz
  cases t with
  | nil => cases hbrace
  | cons c t =>
    have hc : c = '\x7b' := (List.cons.inj hbrace).1
    refine ⟨t, by rw [hc], ?_⟩
    rcases (Option.orElse_eq_some _ _ _).1 hword with hword | ⟨-, hword⟩
    · exact quoted_of_expect (expect_eq_some hword).1 ⟨"uestion\"".toList, rfl⟩
    · exact quoted_of_expect (expect_eq_some hword).1 ⟨"uestions\"".toList, rfl⟩

theorem starts_candidateAt : Starts candidateAt '\x7b' := by
  intro t ht
  obtain ⟨z, rfl, -⟩ := candidateAt_spec ht
  rfl

theorem expect_append {word t v : List Char} (h : expect fold word t = some v) (u : List Char) :
    expect fold word (t ++ u) = some (v ++ u) := by
  obtain ⟨hword, rfl⟩ := expect_eq_some h
  have hlen : word.length ≤ t.length := by
    have hlen := congrArg List.length hword
    rw [List.length_map, List.length_take] at hlen
    omega
  rw [expect, List.take_append_of_le_length hlen, if_pos hword, List.drop_append_of_le_length hlen]

theorem expect_skip {word t v : List Char} (hne : word ≠ [])
    (h : expect fold word (skip t) = some v) (u : List Char) :
    expect fold word (skip (t ++ u)) = some (v ++ u) := by
  have hskip : skip t ≠ [] := by
    intro hnil
    rw [hnil] at h
    have hword := (expect_eq_some h).1
    rw [List.take_nil] at hword
    exact hne hword.symm
  have hsplit : skip (t ++ u) = skip t ++ u := by
    unfold skip at hskip ⊢
    rw [List.dropWhile_append, if_neg (by simpa using hskip)]
  rw [hsplit, expect_append h]

theorem expect_questionWord {t v : List Char} (h : expect Char.toLower questionsWord t = some v) :
    expect Char.toLower questionWord t = none := by
  refine if_neg fun hword => ?_
  have htake := congrArg (List.take 10) (expect_eq_some h).1
  rw [← List.map_take, List.take_take] at htake
  have hsame := hword.symm.trans htake
  revert hsame
  decide

theorem goes_candidateAt : Goes candidateAt := by
  intro t u h
  obtain ⟨w, hw⟩ := Option.isSome_iff_exists.1 h
  obtain ⟨v, hv, hcolon⟩ := Option.bind_eq_some_iff.1 hw
  obtain ⟨z, hz, hword⟩ := Option.bind_eq_some_iff.1 hv
  have hlong : (expect Char.toLower questionWord (skip (z ++ u)) <|>
      expect Char.toLower questionsWord (skip (z ++ u))) = some (v ++ u) := by
    rcases (Option.orElse_eq_some _ _ _).1 hword with hword | ⟨-, hword⟩
    · rw [expect_skip (by decide) hword u]
      rfl
    · have hlong := expect_skip (by decide) hword u
      rw [expect_questionWord hlong, hlong]
      rfl
  unfold candidateAt
  rw [expect_append hz u, Option.bind_some, hlong, Option.bind_some, expect_skip (by decide) hcolon u]
  rfl

/-! ## Strings -/

theorem eq_quote_of_toLower (h : c.toLower = '"') : c = '"' := by
  by_contra hne
  unfold Char.toLower at h
  split_ifs at h with hupper
  · have hcode : ∀ n < 91, 65 ≤ n → (Char.ofNat n).toLower ≠ '"' := by decide
    have hlow : 65 ≤ c.toNat := hupper.1
    have hhigh : c.toNat ≤ 90 := hupper.2
    have hlower := hcode c.toNat (by omega) hlow
    rw [Char.ofNat_toNat] at hlower
    unfold Char.toLower at hlower
    rw [dif_pos hupper] at hlower
    exact hlower h
  · exact hne h

theorem written_of_mem {c d : Char} {e : List Char} (h : WrittenChar c e) (hd : d ∈ e)
    (hplain : d ≠ '\\' ∧ d ≠ 'u' ∧ JsonText.unescape d = none ∧ JsonText.hexValue d = none) : e = [d] ∧ c = d := by
  obtain ⟨hslash, hu, hescape, hhex⟩ := hplain
  cases h with
  | plain _ _ _ =>
    obtain rfl := List.mem_singleton.1 hd
    exact ⟨rfl, rfl⟩
  | @escaped e he =>
    rcases List.mem_cons.1 hd with rfl | hd
    · exact absurd rfl hslash
    · rw [← List.mem_singleton.1 hd, hescape] at he
      cases he
  | @unicode h4 hlen hread =>
    obtain ⟨w, x, y, z, v1, v2, v3, v4, rfl, h1, h2, h3, h4, -⟩ := exists_hexValues hlen hread
    simp only [List.mem_cons, List.not_mem_nil, or_false] at hd
    rcases hd with rfl | rfl | rfl | rfl | rfl | rfl
    · exact absurd rfl hslash
    · exact absurd rfl hu
    · rw [hhex] at h1
      cases h1
    · rw [hhex] at h2
      cases h2
    · rw [hhex] at h3
      cases h3
    · rw [hhex] at h4
      cases h4

section Strings

variable {spell : Char → List Char} (hspell : ∀ c, WrittenChar c (spell c))

include hspell

theorem not_quoted_body {s r : List Char} (hr : ∀ c ∈ r.head?, c.toLower ≠ 'q') :
    ¬ Quoted (s.flatMap spell ++ '"' :: r) := by
  induction s with
  | nil =>
    rintro ⟨c, d, u, hskip, -, hd⟩
    have hnone : skip ('"' :: r) = '"' :: r := List.dropWhile_cons_of_neg (by decide)
    rw [List.flatMap_nil, List.nil_append, hnone] at hskip
    rw [(List.cons.inj hskip).2] at hr
    exact hr d rfl hd
  | cons c s ih =>
    rw [List.flatMap_cons, List.append_assoc]
    have hc := hspell c
    generalize s.flatMap spell ++ '"' :: r = t at ih ⊢
    generalize spell c = e at hc
    -- an escape begins with a backslash
    have hslash : ∀ w, ¬ Quoted ('\\' :: w) := by
      rintro w ⟨c, d, u, hskip, hquote, -⟩
      have hnone : skip ('\\' :: w) = '\\' :: w := List.dropWhile_cons_of_neg (by decide)
      rw [hnone] at hskip
      rw [← (List.cons.inj hskip).1] at hquote
      exact absurd hquote (by decide)
    cases hc with
    | plain hquote _ _ =>
      rintro ⟨c', d, u, hskip, hc', hd⟩
      cases hspace : isJsSpace c with
      | true =>
        have hdrop : skip (c :: t) = skip t := List.dropWhile_cons_of_pos hspace
        exact ih ⟨c', d, u, hdrop.symm.trans hskip, hc', hd⟩
      | false =>
        have hdrop : skip (c :: t) = c :: t := List.dropWhile_cons_of_neg (by rw [hspace]; exact Bool.false_ne_true)
        have heq := hdrop.symm.trans hskip
        rw [← (List.cons.inj heq).1] at hc'
        exact hquote (eq_quote_of_toLower hc')
    | escaped _ => exact hslash _
    | unicode _ _ => exact hslash _

theorem quiet_body (s : List Char) {r : List Char} (hr : ∀ c ∈ r.head?, c.toLower ≠ 'q') :
    Quiet candidateAt (s.flatMap spell ++ ['"']) r := by
  induction s with
  | nil => exact quiet_of_not_mem starts_candidateAt (show '\x7b' ∉ ['"'] by decide)
  | cons c s ih =>
    rw [List.flatMap_cons, List.append_assoc]
    refine Quiet.append ?_ ih
    by_cases hmem : '\x7b' ∈ spell c
    · rw [(written_of_mem (hspell c) hmem (by decide)).1]
      refine .cons (Bool.eq_false_iff.2 fun hmatch => ?_) .nil
      obtain ⟨z, hz, hquoted⟩ := candidateAt_spec hmatch
      rw [List.nil_append, List.append_assoc, List.singleton_append] at hz
      rw [← (List.cons.inj hz).2] at hquoted
      exact not_quoted_body hspell hr hquoted
    · exact quiet_of_not_mem starts_candidateAt hmem

theorem fence_body {n : Nat} {s r : List Char} (h : List.replicate n '\x60' <+: s.flatMap spell ++ '"' :: r) :
    List.replicate n '\x60' <+: s := by
  induction n generalizing s with
  | zero => exact List.nil_prefix
  | succ n ih =>
    rw [List.replicate_succ] at h ⊢
    obtain ⟨t, ht⟩ := h
    cases s with
    | nil => exact absurd (List.cons.inj ht).1 (by decide)
    | cons c s =>
      rw [List.flatMap_cons, List.append_assoc] at ht
      have hmem : '\x60' ∈ spell c := by
        cases hc : spell c with
        | nil => exact absurd (JsonText.length_written_pos (hspell c)) (by rw [hc]; decide)
        | cons d e =>
          rw [hc] at ht
          rw [(List.cons.inj ht).1]
          exact List.mem_cons_self
      obtain ⟨hc, rfl⟩ := written_of_mem (hspell c) hmem (by decide)
      rw [hc] at ht
      exact List.cons_prefix_cons.2 ⟨rfl, ih ⟨t, (List.cons.inj ht).2⟩⟩

/-- Nor does a fence stand there, if there is none in what is written. -/
theorem quiet_body_fence {s : List Char} (hs : ¬ fence <:+: s) (r : List Char) :
    Quiet fenceAt (s.flatMap spell ++ ['"']) r := by
  induction s with
  | nil => exact quiet_of_not_mem starts_fenceAt (show '\x60' ∉ ['"'] by decide)
  | cons c s ih =>
    rw [List.flatMap_cons, List.append_assoc]
    refine Quiet.append ?_ (ih fun h => hs (h.trans (List.suffix_cons c s).isInfix))
    by_cases hmem : '\x60' ∈ spell c
    · obtain ⟨hc, rfl⟩ := written_of_mem (hspell c) hmem (by decide)
      rw [hc]
      refine .cons (decide_eq_false fun hmatch => ?_) .nil
      have hall : List.replicate 3 '\x60' <+: ('\x60' :: s).flatMap spell ++ '"' :: r := by
        rw [List.flatMap_cons, hc]
        rw [List.append_assoc, List.singleton_append] at hmatch
        exact hmatch
      exact hs (fence_body hspell hall).isInfix
    · exact quiet_of_not_mem starts_fenceAt hmem

end Strings

/-! ## The texts of the candidates -/

/-- The object that begins a text, or all of the text. -/
def objectOf (t : List Char) : List Char :=
  match objectEnd 0 false false 0 t with
  | some n => t.take n
  | none => t

/-- The texts of the candidates. -/
def candidateTexts : List Char → List (List Char)
  | [] => []
  | c :: t => if candidateAt (c :: t) then objectOf (c :: t) :: candidateTexts t else candidateTexts t

theorem objectEnd_shift (i : Nat) (depth : Int) (inString escaped : Bool) (j : Nat) (t : List Char) :
    objectEnd depth inString escaped (i + j) t = (objectEnd depth inString escaped j t).map (i + ·) := by
  induction t generalizing depth inString escaped j with
  | nil => cases inString <;> rfl
  | cons ch t ih =>
    have hnext := fun depth inString escaped => ih depth inString escaped (j + 1)
    cases inString with
    | true =>
      rw [objectEnd, objectEnd]
      split_ifs
      · exact hnext _ _ _
      · exact hnext _ _ _
      · exact hnext _ _ _
    | false =>
      rw [objectEnd, objectEnd]
      split_ifs
      · exact hnext _ _ _
      · exact hnext _ _ _
      · rfl
      · exact hnext _ _ _
      · exact hnext _ _ _

theorem candidateTexts_eq (src : List Char) :
    (questionCandidates src).map (fun c => (src.take c.2).drop c.1) = candidateTexts src := by
  suffices hsuffix : ∀ t a, src = a ++ t →
      ((List.range' a.length t.length).filterMap fun i =>
        if candidateAt (src.drop i) then
          some (i, (objectEnd 0 false false i (src.drop i)).getD src.length)
        else none).map (fun c => (src.take c.2).drop c.1) = candidateTexts t by
    rw [questionCandidates, List.range_eq_range']
    exact hsuffix src [] rfl
  intro t
  induction t with
  | nil => exact fun a _ => rfl
  | cons c t ih =>
    intro a hsrc
    have htail := ih (a ++ [c]) (by rw [hsrc, List.append_assoc, List.singleton_append])
    have hdrop : src.drop a.length = c :: t := by rw [hsrc, List.drop_left]
    rw [List.length_append, List.length_singleton] at htail
    rw [List.length_cons, List.range'_succ, List.filterMap_cons, hdrop, candidateTexts]
    split_ifs with hcandidate
    · rw [List.map_cons, htail]
      refine congrArg (· :: candidateTexts t) ?_
      have hshift := objectEnd_shift a.length 0 false false 0 (c :: t)
      rw [Nat.add_zero] at hshift
      rw [hshift, objectOf]
      cases objectEnd 0 false false 0 (c :: t) with
      | none => rw [Option.map_none, Option.getD_none, List.take_length, hdrop]
      | some n => rw [Option.map_some, Option.getD_some, List.drop_take, hdrop, Nat.add_sub_cancel_left]
    · exact htail

theorem candidateTexts_append (h : Quiet candidateAt a r) : candidateTexts (a ++ r) = candidateTexts r := by
  induction a with
  | nil => rfl
  | cons c a ih =>
    rw [List.cons_append, candidateTexts, h.head, if_neg Bool.false_ne_true]
    exact ih h.tail

theorem candidateTexts_of_not_mem (h : '\x7b' ∉ a) : candidateTexts a = [] := by
  have hquiet := candidateTexts_append (quiet_of_not_mem (r := []) starts_candidateAt h)
  rwa [List.append_nil] at hquiet

/-- The objects that are open. -/
def braces (s : State) : Nat := s.closers.count '\x7d'

theorem objectEnd_outside {s s1 : State} {ch : Char} {escaped : Bool} {i : Nat} {t : List Char} (hlive : Live s1)
    (hout : ((ch = '\x7b' ∨ ch = '[') → s1.closers = Repair.closerOf ch :: s.closers) ∧
      ((ch = '\x7d' ∨ ch = ']') → s.closers = ch :: s1.closers) ∧
      (¬ (ch = '\x7b' ∨ ch = '[') → ¬ (ch = '\x7d' ∨ ch = ']') → s1.closers = s.closers)) :
    objectEnd (braces s) false escaped i (ch :: t) = objectEnd (braces s1) (decide (ch = '"')) false (i + 1) t := by
  obtain ⟨hopens, hcloses, hplain⟩ := hout
  have hpos : braces s1 ≠ 0 := fun hzero => List.count_eq_zero.1 hzero hlive
  rw [objectEnd]
  by_cases hquote : ch = '"'
  · have hsame : braces s1 = braces s := by
      rw [braces, hplain (by rw [hquote]; decide) (by rw [hquote]; decide), braces]
    rw [if_pos hquote, decide_eq_true hquote, hsame]
  rw [if_neg hquote, decide_eq_false hquote]
  by_cases hbrace : ch = '\x7b'
  · have hmore : braces s1 = braces s + 1 := by
      rw [braces, hopens (.inl hbrace), hbrace]
      exact List.count_cons_self
    rw [if_pos hbrace, hmore]
    rfl
  rw [if_neg hbrace]
  by_cases hclose : ch = '\x7d'
  · have hless : braces s = braces s1 + 1 := by
      rw [braces, hcloses (.inl hclose), hclose]
      exact List.count_cons_self
    have hdepth : (braces s : Int) - 1 = braces s1 := by omega
    rw [if_pos hclose, hdepth, if_neg (by omega)]
  rw [if_neg hclose]
  have hsame : braces s1 = braces s := by
    unfold braces
    by_cases hopen : ch = '['
    · rw [hopens (.inr hopen), hopen]
      exact List.count_cons_of_ne (by decide)
    · by_cases hend : ch = ']'
      · rw [hcloses (.inr hend), hend]
        exact (List.count_cons_of_ne (by decide)).symm
      · rw [hplain (fun h => h.elim hbrace hopen) (fun h => h.elim hclose hend)]
  rw [hsame]

theorem objectEnd_through {s s' : State} {t : List Char} (h : Through Live s t s') (i : Nat) (r : List Char) :
    objectEnd (braces s) s.quote.inString s.quote.escaped i (t ++ r) =
      objectEnd (braces s') s'.quote.inString s'.quote.escaped (i + t.length) r := by
  induction t generalizing s i with
  | nil => rw [Option.some.inj h.run_eq, List.nil_append, List.length_nil, Nat.add_zero]
  | cons ch t ih =>
    obtain ⟨s1, hs1, hlive1⟩ := h.all [ch] (List.cons_prefix_cons.2 ⟨rfl, List.nil_prefix⟩)
    obtain ⟨s1, hstep, hnil⟩ := Option.bind_eq_some_iff.1 hs1
    obtain rfl := Option.some.inj hnil
    have htail : Through Live s1 t s' := by
      refine ⟨?_, fun a ha => ?_⟩
      · have hrun := h.run_eq
        rw [run_cons, hstep] at hrun
        exact hrun
      · obtain ⟨r, hr, hlive⟩ := h.all (ch :: a) (List.cons_prefix_cons.2 ⟨rfl, ha⟩)
        rw [run_cons, hstep] at hr
        exact ⟨r, hr, hlive⟩
    have hrest := ih htail (i + 1)
    rw [List.length_cons, Nat.add_comm t.length, ← Nat.add_assoc, ← hrest]
    have hquote := (step_spec hstep).1
    obtain ⟨hin, hout⟩ := Repair.closers_step hstep
    rw [List.cons_append]
    cases hstring : s.quote.inString with
    | true =>
      rw [hquote, braces, braces, hin hstring, objectEnd, Quote.next, if_pos hstring]
      split_ifs <;> rfl
    | false =>
      have hnext : s1.quote = ⟨decide (ch = '"'), false⟩ := by
        rw [hquote, Quote.next, if_neg (by rw [hstring]; exact Bool.false_ne_true)]
      rw [hnext, objectEnd_outside hlive1 (hout hstring)]

theorem objectOf_complete {f r : List Char} {s : State} (h : Through Live Repair.opened f s)
    (hs : s.quote.inString = false) (hbraces : braces s = 1) :
    objectOf ('\x7b' :: (f ++ '\x7d' :: r)) = '\x7b' :: (f ++ ['\x7d']) := by
  have hthrough := objectEnd_through h 1 ('\x7d' :: r)
  rw [hs, hbraces] at hthrough
  have hend : objectEnd 0 false false 0 ('\x7b' :: (f ++ '\x7d' :: r)) = some (1 + f.length + 1) := hthrough
  have hlen : 1 + f.length + 1 = ('\x7b' :: (f ++ ['\x7d'])).length := by
    simp only [List.length_cons, List.length_append, List.length_nil]
    omega
  have hsplit : '\x7b' :: (f ++ '\x7d' :: r) = '\x7b' :: (f ++ ['\x7d']) ++ r := by
    rw [List.cons_append, List.append_assoc, List.singleton_append]
  rw [objectOf, hend]
  dsimp only
  rw [hlen, hsplit, List.take_left]

theorem objectOf_cut {f : List Char} {s : State} (h : Through Live Repair.opened f s) :
    objectOf ('\x7b' :: f) = '\x7b' :: f := by
  have hthrough := objectEnd_through h 1 []
  rw [List.append_nil] at hthrough
  have hend : objectEnd 0 false false 0 ('\x7b' :: f) = none := by
    refine Eq.trans hthrough ?_
    cases s.quote.inString <;> rfl
  rw [objectOf, hend]

/-! ## The candidates of a questionnaire -/

theorem quiet_items {B : List Char → Prop} (hstart : Starts pattern c) (hc : c ≠ ',')
    (hcomma : ∀ t, B (',' :: t)) {xs : List (List Char)} (h : ∀ x ∈ xs, ∀ r, B r → Quiet pattern x r)
    (hr : B r) : Quiet pattern (commaSeparated xs) r := by
  have hmore : ∀ ys : List (List Char), (∀ x ∈ ys, ∀ r, B r → Quiet pattern x r) →
      Quiet pattern (ys.flatMap fun y => ',' :: y) r ∧ B ((ys.flatMap fun y => ',' :: y) ++ r) := by
    intro ys hys
    induction ys with
    | nil => exact ⟨.nil, hr⟩
    | cons y ys ih =>
      rw [List.forall_mem_cons] at hys
      obtain ⟨hrest, hbehind⟩ := ih hys.2
      rw [List.flatMap_cons]
      refine ⟨Quiet.append ?_ hrest, hcomma _⟩
      have hhead : Quiet pattern [','] (y ++ ((ys.flatMap fun y => ',' :: y) ++ r)) :=
        quiet_of_not_mem hstart fun hmem => hc (List.mem_singleton.1 hmem)
      exact hhead.append (hys.1 _ hbehind)
  cases xs with
  | nil => exact .nil
  | cons x xs =>
    rw [List.forall_mem_cons] at h
    obtain ⟨hrest, hbehind⟩ := hmore xs h.2
    exact (h.1 _ hbehind).append hrest

/-- The text does not go on with the first letter of a question. -/
def NoQuestion (r : List Char) : Prop := ∀ c ∈ r.head?, c.toLower ≠ 'q'

theorem noQuestion_cons (h : c.toLower ≠ 'q') (t : List Char) : NoQuestion (c :: t) := by
  intro d hd
  rw [← Option.some.inj hd]
  exact h

/-- What `parseAsk` takes from a text that does not make it throw. -/
def readOf (t : List Char) : List AskQ := (questionsOf t).getD []

section Candidates

variable {spell : Char → List Char} (hspell : ∀ c, WrittenChar c (spell c))

include hspell

theorem quiet_literal (o : List Char) (hr : NoQuestion r) : Quiet candidateAt (literal spell o) r := by
  have hquote : Quiet candidateAt ['"'] ((o.flatMap spell ++ ['"']) ++ r) :=
    quiet_of_not_mem starts_candidateAt (by decide)
  exact hquote.append (quiet_body hspell o hr)

theorem quiet_fields (q : AskQ) : Quiet candidateAt (fieldsText spell q ++ ['\x7d']) r := by
  unfold fieldsText
  simp only [List.append_assoc]
  refine Quiet.append (quiet_of_not_mem starts_candidateAt (by decide)) ?_
  refine Quiet.append (quiet_literal hspell q.question (noQuestion_cons (by decide) _)) ?_
  refine Quiet.append (quiet_of_not_mem starts_candidateAt (by decide)) ?_
  refine Quiet.append ?_ (quiet_of_not_mem starts_candidateAt (by decide))
  refine quiet_items starts_candidateAt (by decide) (noQuestion_cons (by decide)) ?_ (noQuestion_cons (by decide) _)
  intro x hx r hr
  obtain ⟨o, -, rfl⟩ := List.mem_map.1 hx
  exact quiet_literal hspell o hr

theorem candidateTexts_object {q : AskQ} (hq : q.options ≠ []) (r : List Char) :
    candidateTexts (objectText spell q ++ r) = objectText spell q :: candidateTexts r := by
  have hcandidate : candidateAt (objectText spell q ++ r) = true := rfl
  have hthrough := (through_fields hspell hq).imp fun _ => Asking.live
  have hsplit : objectText spell q ++ r = '\x7b' :: (fieldsText spell q ++ '\x7d' :: r) := by
    rw [objectText, List.cons_append, List.append_assoc, List.singleton_append]
  have hobject : objectOf (objectText spell q ++ r) = objectText spell q := by
    rw [hsplit]
    exact objectOf_complete hthrough rfl rfl
  have hquiet := candidateTexts_append (quiet_fields hspell q (r := r))
  rw [List.append_assoc, List.singleton_append] at hquiet
  calc candidateTexts (objectText spell q ++ r)
      = objectOf (objectText spell q ++ r) :: candidateTexts (fieldsText spell q ++ '\x7d' :: r) := by
        rw [hsplit] at hcandidate ⊢
        exact if_pos hcandidate
    _ = objectText spell q :: candidateTexts r := by rw [hobject, hquiet]

theorem candidateTexts_upTo {qs : List AskQ} (hqs : ∀ q ∈ qs, q.options ≠ []) (r : List Char) :
    candidateTexts (upTo spell qs ++ r) = qs.map (objectText spell) ++ candidateTexts r := by
  induction qs using List.reverseRecOn generalizing r with
  | nil =>
    have hno : '\x7b' ∉ "\"questions\":[".toList ++ [] := by decide
    exact candidateTexts_append (quiet_of_not_mem starts_candidateAt hno)
  | append_singleton qs q ih =>
    have hbetween : Quiet candidateAt (between qs) (objectText spell q ++ r) := by
      refine quiet_of_not_mem starts_candidateAt ?_
      unfold between
      split_ifs
      · exact List.not_mem_nil
      · decide
    rw [upTo_concat, List.append_assoc, List.append_assoc,
      ih (fun q' hq' => hqs q' (List.mem_append_left _ hq')), candidateTexts_append hbetween,
      candidateTexts_object hspell (hqs q (List.mem_append_right _ (List.mem_singleton_self q))), List.map_append,
      List.append_assoc]
    rfl

theorem candidateTexts_questionnaire {qs : List AskQ} (hqs : ∀ q ∈ qs, q.options ≠ []) (e : List Char) :
    candidateTexts ('\x7b' :: (upTo spell qs ++ e)) =
      objectOf ('\x7b' :: (upTo spell qs ++ e)) :: (qs.map (objectText spell) ++ candidateTexts e) := by
  have hcandidate : candidateAt ('\x7b' :: (upTo spell qs ++ e)) = true := rfl
  rw [← candidateTexts_upTo hspell hqs]
  exact if_pos hcandidate

theorem readOf_objects {qs : List AskQ} (hqs : ∀ q ∈ qs, q.Fits) :
    (∀ t ∈ qs.map (objectText spell), questionsOf t ≠ none) ∧
      (qs.map (objectText spell)).flatMap readOf = qs.map AskQ.trimmed := by
  induction qs with
  | nil => exact ⟨List.forall_mem_nil _, rfl⟩
  | cons q qs ih =>
    rw [List.forall_mem_cons] at hqs
    obtain ⟨hall, hread⟩ := ih hqs.2
    have hq := questionsOf_doc hqs.1 (readJson_objectText hspell hqs.1.options_ne)
    refine ⟨List.forall_mem_cons.2 ⟨by rw [hq]; exact Option.some_ne_none _, hall⟩, ?_⟩
    rw [List.map_cons, List.flatMap_cons, hread, readOf, hq]
    rfl

end Candidates

/-! ## Where a questionnaire is cut -/

/-- A text that begins a questionnaire and what stands behind it, and its questions that are
complete. -/
inductive CutAt (spell : Char → List Char) (qs : List AskQ) : List Char → List AskQ → Prop
  | head {x : List Char} (hx : x <+: '\x7b' :: upTo spell []) : CutAt spell qs x []
  | behind {done rest : List AskQ} (hqs : qs = done ++ rest) (hne : done ≠ []) {e : List Char}
      (he : e = [] ∨ e = [','] ∨ (rest = [] ∧ e = [']'])) : CutAt spell qs ('\x7b' :: (upTo spell done ++ e)) done
  | inside {done rest : List AskQ} {q : AskQ} (hqs : qs = done ++ q :: rest) {u : List Char}
      (hu : u <+: fieldsText spell q) :
      CutAt spell qs ('\x7b' :: (upTo spell done ++ (between done ++ '\x7b' :: u))) done
  | whole {w : List Char} (hw : '\x7b' ∉ w) : CutAt spell qs (envelope spell qs ++ w) qs

/-- What the candidates of a text ask: perhaps everything, and then the questions one by one. -/
structure Stream (spell : Char → List Char) (qs : List AskQ) (x : List Char) (done first rest : List AskQ) : Prop where
  reads : ∀ t ∈ candidateTexts x, questionsOf t ≠ none
  asked : (candidateTexts x).flatMap readOf = first ++ (done.map AskQ.trimmed ++ rest)
  first_eq : (first = [] ∧ rest = []) ∨ first = done.map AskQ.trimmed ++ rest
  length_le : rest.length ≤ 1
  left : rest ≠ [] → ∃ q behind u, qs = done ++ q :: behind ∧ u <+: fieldsText spell q ∧ '\x7b' :: u <:+ x ∧
    questionsOf ('\x7b' :: u) = some rest

section Stream

variable {spell : Char → List Char} (hspell : ∀ c, WrittenChar c (spell c)) {qs : List AskQ}

include hspell

theorem stream_of_texts {x X : List Char} {last : List (List Char)} {done first rest : List AskQ}
    (hdone : ∀ q ∈ done, q.Fits)
    (htexts : candidateTexts x = X :: (done.map (objectText spell) ++ last)) (hX : questionsOf X = some first)
    (hlast : ∀ t ∈ last, questionsOf t ≠ none) (hrest : last.flatMap readOf = rest)
    (hfirst : (first = [] ∧ rest = []) ∨ first = done.map AskQ.trimmed ++ rest) (hle : rest.length ≤ 1)
    (hleft : rest ≠ [] → ∃ q behind u, qs = done ++ q :: behind ∧ u <+: fieldsText spell q ∧ '\x7b' :: u <:+ x ∧
      questionsOf ('\x7b' :: u) = some rest) : Stream spell qs x done first rest := by
  obtain ⟨hall, hread⟩ := readOf_objects hspell hdone
  refine ⟨?_, ?_, hfirst, hle, hleft⟩
  · rw [htexts, List.forall_mem_cons]
    refine ⟨by rw [hX]; exact Option.some_ne_none _, fun t ht => ?_⟩
    exact (List.mem_append.1 ht).elim (hall t) (hlast t)
  · have hfirst' : readOf X = first := by rw [readOf, hX, Option.getD_some]
    rw [htexts, List.flatMap_cons, List.flatMap_append, hread, hrest, hfirst']

theorem stream_between {done : List AskQ} (hdone : ∀ q ∈ done, q.Fits) {x X e : List Char} (he : '\x7b' ∉ e)
    (hx : x = '\x7b' :: (upTo spell done ++ e)) (hobject : objectOf x = X) (hread : readJson X = some (whole done)) :
    Stream spell qs x done (done.map AskQ.trimmed) [] := by
  have htexts := candidateTexts_questionnaire hspell (fun q hq => (hdone q hq).options_ne) e
  rw [← hx, hobject, candidateTexts_of_not_mem he] at htexts
  refine stream_of_texts hspell hdone htexts (questionsOf_whole hdone hread) (List.forall_mem_nil _) rfl ?_
    (Nat.zero_le 1) fun hne => absurd rfl hne
  exact .inr (List.append_nil _).symm

theorem stream_whole (hqs : ∀ q ∈ qs, q.Fits) {w : List Char} (hw : '\x7b' ∉ w) :
    Stream spell qs (envelope spell qs ++ w) qs (qs.map AskQ.trimmed) [] := by
  have hoptions : ∀ q ∈ qs, q.options ≠ [] := fun q hq => (hqs q hq).options_ne
  have hsplit : envelope spell qs ++ w = '\x7b' :: (upTo spell qs ++ ("]\x7d".toList ++ w)) := by
    rw [envelope, List.cons_append, List.append_assoc]
  refine stream_between hspell hqs (X := envelope spell qs) ?_ hsplit ?_ (readJson_envelope hspell hoptions)
  · rw [List.mem_append]
    exact fun h => h.elim (by decide) hw
  · have hthrough := (through_upTo hspell hoptions).append (through_bracket qs)
    have hobject := objectOf_complete (r := w) hthrough rfl rfl
    rw [List.append_assoc] at hobject
    rw [hsplit]
    refine Eq.trans hobject ?_
    rw [envelope, List.append_assoc]
    rfl

/-- The question that is being written: it is a candidate, or not even its key is there. -/
theorem candidateTexts_cut {q : AskQ} (hq : q.options ≠ []) {u : List Char} (hu : u <+: fieldsText spell q)
    {rest : List AskQ} (hread : questionsOf ('\x7b' :: u) = some rest) :
    (∀ t ∈ candidateTexts ('\x7b' :: u), questionsOf t ≠ none) ∧
      (candidateTexts ('\x7b' :: u)).flatMap readOf = rest := by
  have hquiet : candidateTexts u = [] := by
    have hbegun := (quiet_fields hspell q (r := [])).begun goes_candidateAt (hu.trans (List.prefix_append _ _))
    have hnone := candidateTexts_append hbegun
    rwa [List.append_nil] at hnone
  rw [candidateTexts, hquiet]
  split_ifs with hcandidate
  · obtain ⟨s, hs⟩ := (through_fields hspell hq).take hu
    rw [objectOf_cut (hs.imp fun _ => Asking.live)]
    refine ⟨List.forall_mem_singleton.2 (by rw [hread]; exact Option.some_ne_none _), ?_⟩
    rw [List.flatMap_singleton, readOf, hread, Option.getD_some]
  · have hclosed : ∀ x ∈ "\"question\":".toList.inits,
        candidateAt ('\x7b' :: x) = true ∨ questionsOf ('\x7b' :: x) = some [] := by
      decide +kernel
    refine ⟨List.forall_mem_nil _, ?_⟩
    rcases prefix_append_cases hu with hkey | ⟨v, rfl, -⟩
    · have hblank := (hclosed u ((List.mem_inits _ _).2 hkey)).resolve_left hcandidate
      rw [hread] at hblank
      exact (Option.some.inj hblank).symm
    · exact absurd rfl hcandidate

theorem CutAt.stream (hqs : ∀ q ∈ qs, q.Fits) {x : List Char} {done : List AskQ} (h : CutAt spell qs x done) :
    ∃ first rest, Stream spell qs x done first rest := by
  cases h with
  | head hx =>
    have hclosed : ∀ x ∈ "\x7b\"questions\":[".toList.inits,
        (∀ t ∈ candidateTexts x, questionsOf t ≠ none) ∧ (candidateTexts x).flatMap readOf = [] := by
      decide +kernel
    have hmem : x ∈ "\x7b\"questions\":[".toList.inits := (List.mem_inits _ _).2 hx
    obtain ⟨hreads, hasked⟩ := hclosed x hmem
    exact ⟨[], [], hreads, hasked, .inl ⟨rfl, rfl⟩, Nat.zero_le 1, fun hne => absurd rfl hne⟩
  | whole hw => exact ⟨_, [], stream_whole hspell hqs hw⟩
  | behind hsplit hne he =>
    rename_i rest e
    have hdone : ∀ q ∈ done, q.Fits := fun q hq => hqs q (by rw [hsplit]; exact List.mem_append_left _ hq)
    have hoptions : ∀ q ∈ done, q.options ≠ [] := fun q hq => (hdone q hq).options_ne
    refine ⟨_, [], stream_between hspell hdone (X := '\x7b' :: (upTo spell done ++ e)) ?_ rfl ?_ ?_⟩
    · rcases he with rfl | rfl | ⟨-, rfl⟩
      · exact List.not_mem_nil
      · decide
      · decide
    · have hupTo := through_upTo hspell hoptions
      rcases he with rfl | rfl | ⟨-, rfl⟩
      · rw [List.append_nil]
        exact objectOf_cut hupTo
      · exact objectOf_cut (hupTo.append (through_comma hne))
      · exact objectOf_cut (hupTo.append (through_bracket done))
    · rcases he with rfl | rfl | ⟨-, rfl⟩
      · rw [List.append_nil]
        exact readJson_upTo hspell hoptions
      · exact readJson_comma hspell hne hoptions
      · exact readJson_bracket hspell hoptions
  | inside hsplit hu =>
    rename_i behind q u
    have hdone : ∀ q ∈ done, q.Fits := fun q hq => hqs q (by rw [hsplit]; exact List.mem_append_left _ hq)
    have hq : q.Fits := hqs q (by rw [hsplit]; exact List.mem_append_right _ List.mem_cons_self)
    have hoptions : ∀ q ∈ done, q.options ≠ [] := fun q hq => (hdone q hq).options_ne
    obtain ⟨rest, hle, hlone, hbehind⟩ := questionsOf_cut hspell hq hu
    obtain ⟨s, hs⟩ := (through_fields hspell hq.options_ne).take hu
    have hinside := through_inside hspell hoptions hs
    rw [List.append_assoc] at hinside
    have hbetween : Quiet candidateAt (between done) ('\x7b' :: u) := by
      refine quiet_of_not_mem starts_candidateAt ?_
      unfold between
      split_ifs
      · exact List.not_mem_nil
      · decide
    have htexts := candidateTexts_questionnaire hspell hoptions (between done ++ '\x7b' :: u)
    rw [objectOf_cut hinside, candidateTexts_append hbetween] at htexts
    have hlast := candidateTexts_cut hspell hq.options_ne hu hlone
    have hfirst := hbehind done hdone
    dsimp only at hfirst
    rw [List.append_assoc] at hfirst
    have hleft : rest ≠ [] → ∃ q' behind' u', qs = done ++ q' :: behind' ∧ u' <+: fieldsText spell q' ∧
        '\x7b' :: u' <:+ '\x7b' :: (upTo spell done ++ (between done ++ '\x7b' :: u)) ∧
        questionsOf ('\x7b' :: u') = some rest :=
      fun _ => ⟨q, behind, u, hsplit, hu, ⟨'\x7b' :: (upTo spell done ++ between done), by simp⟩, hlone⟩
    rcases hfirst with hfirst | ⟨rfl, hfirst⟩
    · exact ⟨_, rest, stream_of_texts hspell hdone htexts hfirst hlast.1 hlast.2 (.inr rfl) hle hleft⟩
    · exact ⟨[], [], stream_of_texts hspell hdone htexts hfirst hlast.1 hlast.2 (.inl ⟨rfl, rfl⟩) hle hleft⟩

end Stream

end Portal.Ask
