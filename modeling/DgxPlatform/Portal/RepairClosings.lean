import DgxPlatform.Portal.JsonRepair

/-! # What `repairClosings` keeps

`repairClosings` closes what is open in a text and takes away closers that match nothing. It reads
the strings of the text on the way, but the commas that it takes away at last are looked for
everywhere.

* `brackets_repairFrom`, `literals_repairFrom`: the loop leaves the brackets matched, and the strings.
* `brackets_strip`, `literals_strip`: what becomes of them with the commas.
-/

namespace Portal.Repair

open JsonMachine
open Text (isJsSpace)

/-- A closer. -/
def IsCloser (ch : Char) : Prop := ch = '\x7d' ∨ ch = ']'

/-- The closers of what is open behind a text, if all its closers match. -/
def brackets : List Char → Quote → List Char → Option (List Char × Quote)
  | stack, q, [] => some (stack, q)
  | stack, q, ch :: t =>
      if q.inString then brackets stack (q.next ch) t
      else if ch = '\x7b' ∨ ch = '[' then brackets (closerOf ch :: stack) (q.next ch) t
      else if ch = '\x7d' ∨ ch = ']' then
        if stack.head? = some ch then brackets stack.tail (q.next ch) t else none
      else brackets stack (q.next ch) t

/-- No string is open, and every bracket outside the strings is matched by one of its kind. -/
def matched (t : List Char) : Bool := (brackets [] outside t).any fun r => decide (r.1 = []) && !r.2.inString

/-- The texts of the strings, the last of which may be open. -/
def literals : Quote → List Char → List (List Char)
  | q, [] => if q.inString then [[]] else []
  | q, ch :: t =>
      let rest := literals (q.next ch) t
      if q.inString then if (q.next ch).inString then rest.modifyHead (ch :: ·) else [] :: rest
      else rest

/-- What the repair is to do: it closes, keeps the strings, and leaves nothing to be repaired. -/
def Repairs (s r : List Char) : Prop :=
  matched r = true ∧ literals outside r = literals outside s ∧ repairClosings r = r

instance (s r : List Char) : Decidable (Repairs s r) := inferInstanceAs (Decidable (_ ∧ _))

/-- No comma stands in front of a closer. -/
def Bare (t : List Char) : Prop := ∀ u, ',' :: u <:+ t → closes u = false

/-- Outside the strings there are two commas, in front of what closes a bracket or of the end of the
text where one is open: between and behind them is nothing but white space and closers that match
nothing. `k` counts the commas. -/
def doubledFrom : List Char → Quote → Nat → List Char → Bool
  | stack, q, k, [] => !q.inString && decide (stack ≠ []) && decide (2 ≤ k)
  | stack, q, k, ch :: t =>
      if q.inString then doubledFrom stack (q.next ch) 0 t
      else if ch = '\x7b' ∨ ch = '[' then doubledFrom (closerOf ch :: stack) (q.next ch) 0 t
      else if ch = '\x7d' ∨ ch = ']' then
        if ch ∈ stack then decide (2 ≤ k) || doubledFrom (stack.dropWhile (· ≠ ch)).tail (q.next ch) 0 t
        else doubledFrom stack (q.next ch) k t
      else if ch = ',' then doubledFrom stack (q.next ch) (k + 1) t
      else if isJsSpace ch then doubledFrom stack (q.next ch) k t
      else doubledFrom stack (q.next ch) 0 t

/-! ## Quotes -/

variable {q : Quote} {ch : Char} {stack t : List Char}

theorem next_outside (h : (q.next ch).inString = false) : q.next ch = outside := by
  unfold Quote.next at h ⊢
  split_ifs at h ⊢ with hin hesc hslash
  · exact congrArg (fun b => (⟨b, false⟩ : Quote)) h
  · exact congrArg (fun b => (⟨b, false⟩ : Quote)) h

theorem next_of_ne (h : ch ≠ '"') : Quote.next outside ch = outside := by
  refine next_outside ?_
  exact decide_eq_false h

theorem closer_ne_quote (h : IsCloser ch) : ch ≠ '"' := by
  rcases h with rfl | rfl <;> decide

theorem next_closer (h : IsCloser ch) : Quote.next outside ch = outside := next_of_ne (closer_ne_quote h)

theorem not_inString_outside : ¬ outside.inString = true := Bool.false_ne_true

theorem not_opener_of_closer (h : IsCloser ch) : ¬ (ch = '\x7b' ∨ ch = '[') := by
  rcases h with rfl | rfl <;> decide

theorem isCloser_closerOf (ch : Char) : IsCloser (closerOf ch) := by
  unfold closerOf
  split
  · exact .inl rfl
  · exact .inr rfl

/-! ## The loop -/

theorem brackets_append (stack : List Char) (q : Quote) (a b : List Char) :
    brackets stack q (a ++ b) = (brackets stack q a).bind fun r => brackets r.1 r.2 b := by
  induction a generalizing stack q with
  | nil => rfl
  | cons ch a ih =>
    rw [List.cons_append, brackets, brackets]
    split_ifs
    · exact ih _ _
    · exact ih _ _
    · exact ih _ _
    · rfl
    · exact ih _ _

variable {a : List Char}

theorem brackets_closers (ha : ∀ c ∈ a, IsCloser c) (stack w : List Char) :
    brackets (a ++ stack) outside (a ++ w) = brackets stack outside w := by
  induction a with
  | nil => rfl
  | cons c a ih =>
    obtain ⟨hc, ha⟩ := List.forall_mem_cons.1 ha
    rw [List.cons_append, List.cons_append, brackets, if_neg not_inString_outside, if_neg (not_opener_of_closer hc),
      if_pos (show c = '\x7d' ∨ c = ']' from hc), List.head?_cons, if_pos rfl, List.tail_cons, next_closer hc]
    exact ih ha

theorem literals_closers (ha : ∀ c ∈ a, IsCloser c) (w : List Char) :
    literals outside (a ++ w) = literals outside w := by
  induction a with
  | nil => rfl
  | cons c a ih =>
    obtain ⟨hc, ha⟩ := List.forall_mem_cons.1 ha
    rw [List.cons_append, literals, if_neg not_inString_outside, next_closer hc]
    exact ih ha

theorem stack_split (h : ch ∈ stack) :
    stack.takeWhile (· ≠ ch) ++ ch :: (stack.dropWhile (· ≠ ch)).tail = stack := by
  have hsplit := List.takeWhile_append_dropWhile (p := fun c => decide (c ≠ ch)) (l := stack)
  have hne : stack.dropWhile (· ≠ ch) ≠ [] := by
    intro hnil
    have hall := List.dropWhile_eq_nil_iff.1 hnil ch h
    simp at hall
  obtain ⟨c, u, hcu⟩ := List.exists_cons_of_ne_nil hne
  have hc : c = ch := by
    have hnot := List.head_dropWhile_not (fun c => decide (c ≠ ch)) (l := stack) hne
    simp only [hcu, List.head_cons] at hnot
    simpa using hnot
  rw [hcu] at hsplit ⊢
  rw [List.tail_cons, ← hc]
  rw [hc] at hsplit ⊢
  exact hsplit

section Stack

variable (hstack : ∀ c ∈ stack, IsCloser c)
include hstack

theorem closers_push (ch : Char) : ∀ c ∈ closerOf ch :: stack, IsCloser c :=
  List.forall_mem_cons.2 ⟨isCloser_closerOf ch, hstack⟩

theorem closers_pop (ch : Char) : ∀ c ∈ (stack.dropWhile (· ≠ ch)).tail, IsCloser c := by
  intro c hc
  exact hstack c ((List.dropWhile_suffix _).subset (List.mem_of_mem_tail hc))

theorem closers_above (hclose : IsCloser ch) : ∀ c ∈ stack.takeWhile (· ≠ ch) ++ [ch], IsCloser c := by
  intro c hc
  rcases List.mem_append.1 hc with hc | hc
  · exact hstack c ((List.takeWhile_prefix _).subset hc)
  · rwa [List.mem_singleton.1 hc]

end Stack

theorem quotes_repairFrom (stack : List Char) (q : Quote) (t : List Char) :
    (repairFrom stack q t).2.2 = t.foldl Quote.next q := by
  induction t generalizing stack q with
  | nil => rfl
  | cons ch t ih =>
    rw [repairFrom]
    split_ifs <;> exact ih _ _

theorem closers_repairFrom (hstack : ∀ c ∈ stack, IsCloser c) (q : Quote) (t : List Char) :
    ∀ c ∈ (repairFrom stack q t).2.1, IsCloser c := by
  induction t generalizing stack q with
  | nil => exact hstack
  | cons ch t ih =>
    rw [repairFrom]
    split_ifs
    · exact ih hstack _
    · exact ih (closers_push hstack ch) _
    · exact ih (closers_pop hstack ch) _
    · exact ih hstack _
    · exact ih hstack _

/-- The loop leaves the brackets matched, with the closers of what is open. -/
theorem brackets_repairFrom (hstack : ∀ c ∈ stack, IsCloser c) (hq : q.inString = false → q = outside)
    (t : List Char) : brackets stack q (repairFrom stack q t).1 = some (repairFrom stack q t).2 := by
  induction t generalizing stack q with
  | nil => rfl
  | cons ch t ih =>
    rw [repairFrom]
    split_ifs with hin hopen hclose hmem
    · rw [brackets, if_pos hin]
      exact ih hstack next_outside
    · rw [brackets, if_neg hin, if_pos hopen]
      exact ih (closers_push hstack ch) next_outside
    · have hout := hq (Bool.eq_false_iff.2 hin)
      subst hout
      have hsplit := stack_split hmem
      rw [List.append_cons] at hsplit
      have hrest := @ih outside _ (closers_pop hstack ch) fun _ => rfl
      rw [next_closer hclose]
      dsimp only
      rw [List.append_cons, ← hrest]
      nth_rewrite 1 [← hsplit]
      exact brackets_closers (closers_above hstack hclose) _ _
    · have hout := hq (Bool.eq_false_iff.2 hin)
      subst hout
      rw [next_closer hclose]
      exact ih hstack fun _ => rfl
    · rw [brackets, if_neg hin, if_neg hopen, if_neg hclose]
      exact ih hstack next_outside

theorem literals_repairFrom (hstack : ∀ c ∈ stack, IsCloser c) (hq : q.inString = false → q = outside)
    (t : List Char) {w w' : List Char}
    (hw : literals (repairFrom stack q t).2.2 w = literals (repairFrom stack q t).2.2 w') :
    literals q ((repairFrom stack q t).1 ++ w) = literals q (t ++ w') := by
  induction t generalizing stack q with
  | nil => exact hw
  | cons ch t ih =>
    rw [repairFrom] at hw ⊢
    split_ifs at hw ⊢ with hin hopen hclose hmem
    · rw [List.cons_append, List.cons_append, literals, literals, ih hstack next_outside hw]
    · rw [List.cons_append, List.cons_append, literals, literals,
        ih (closers_push hstack ch) next_outside hw]
    · have hout := hq (Bool.eq_false_iff.2 hin)
      subst hout
      rw [next_closer hclose] at hw ⊢
      have hrest := @ih outside _ (closers_pop hstack ch) (fun _ => rfl) hw
      dsimp only at hrest ⊢
      rw [List.append_cons, List.append_assoc, literals_closers (closers_above hstack hclose), hrest, List.cons_append, literals,
        if_neg not_inString_outside, next_closer hclose]
    · have hout := hq (Bool.eq_false_iff.2 hin)
      subst hout
      rw [next_closer hclose] at hw ⊢
      rw [ih hstack (fun _ => rfl) hw, List.cons_append, literals, if_neg not_inString_outside, next_closer hclose]
    · rw [List.cons_append, List.cons_append, literals, literals, ih hstack next_outside hw]

/-- The text before the commas are looked at. -/
def closedText (s : List Char) : List Char :=
  (repairFrom [] outside s).1 ++ endQuote (repairFrom [] outside s).2.2 ++ (repairFrom [] outside s).2.1

theorem repairClosings_closedText (s : List Char) : repairClosings s = stripCommas false (closedText s) := rfl

/-- The text ends inside an escape. -/
def EndsEscaped (s : List Char) : Prop := (s.foldl Quote.next outside).escaped = true

theorem escaped_inString (h : (q.next ch).escaped = true) : (q.next ch).inString = true := by
  unfold Quote.next at h ⊢
  split_ifs at h ⊢
  rfl

theorem foldl_next_escaped (s : List Char) (h : q.escaped = true → q.inString = true)
    (hesc : (s.foldl Quote.next q).escaped = true) : (s.foldl Quote.next q).inString = true := by
  induction s generalizing q with
  | nil => exact h hesc
  | cons ch s ih => exact ih escaped_inString hesc

theorem quote_cases (s : List Char) :
    s.foldl Quote.next outside = outside ∨ s.foldl Quote.next outside = ⟨true, false⟩ ∨ EndsEscaped s := by
  have hin := foldl_next_escaped s (q := outside) fun h => absurd h Bool.false_ne_true
  unfold EndsEscaped
  rcases hq : s.foldl Quote.next outside with ⟨inString, escaped⟩
  rw [hq] at hin
  cases escaped with
  | true => exact .inr (.inr rfl)
  | false =>
    cases inString with
    | true => exact .inr (.inl rfl)
    | false => exact .inl rfl

theorem no_closers : ∀ c ∈ ([] : List Char), IsCloser c := List.forall_mem_nil _

theorem brackets_all (ha : ∀ c ∈ a, IsCloser c) : brackets a outside a = some ([], outside) := by
  have hall := brackets_closers ha [] []
  rwa [List.append_nil] at hall

theorem brackets_closedText {s : List Char} (h : ¬ EndsEscaped s) :
    brackets [] outside (closedText s) = some ([], outside) := by
  have hloop := brackets_repairFrom no_closers (fun _ => rfl) s (q := outside)
  have hquote := quotes_repairFrom [] outside s
  have hclosers := closers_repairFrom no_closers outside s
  unfold closedText
  rw [List.append_assoc, brackets_append, hloop, Option.bind_some, hquote]
  rcases quote_cases s with hq | hq | hq
  · rw [hq]
    exact brackets_all hclosers
  · rw [hq]
    exact brackets_all hclosers
  · exact absurd hq h

theorem literals_closedText {s : List Char} (h : ¬ EndsEscaped s) :
    literals outside (closedText s) = literals outside s := by
  have hclosers := closers_repairFrom no_closers outside s
  have hends : literals (repairFrom [] outside s).2.2
      (endQuote (repairFrom [] outside s).2.2 ++ (repairFrom [] outside s).2.1) =
        literals (repairFrom [] outside s).2.2 [] := by
    have hnone := literals_closers hclosers []
    rw [List.append_nil] at hnone
    rw [quotes_repairFrom]
    rcases quote_cases s with hq | hq | hq
    · rw [hq]
      exact hnone
    · rw [hq]
      exact congrArg (List.cons []) hnone
    · exact absurd hq h
  have hloop := literals_repairFrom no_closers (fun _ => rfl) s hends
  rw [List.append_nil] at hloop
  rw [closedText, List.append_assoc]
  exact hloop

/-- In a string that is open, the quotes behind the text are of no use. -/
theorem brackets_inString (ha : ∀ c ∈ a, IsCloser c) (stack : List Char) :
    brackets stack ⟨true, false⟩ a = some (stack, ⟨true, false⟩) := by
  induction a with
  | nil => rfl
  | cons c a ih =>
    obtain ⟨hc, ha⟩ := List.forall_mem_cons.1 ha
    have hnext : Quote.next ⟨true, false⟩ c = ⟨true, false⟩ := by
      rcases hc with rfl | rfl <;> rfl
    rw [brackets, if_pos rfl, hnext]
    exact ih ha

theorem brackets_escaped {s : List Char} (h : EndsEscaped s) :
    ∃ stack, brackets [] outside (closedText s) = some (stack, ⟨true, false⟩) := by
  have hloop := brackets_repairFrom no_closers (fun _ => rfl) s (q := outside)
  have hquote := quotes_repairFrom [] outside s
  have hclosers := closers_repairFrom no_closers outside s
  have hin := foldl_next_escaped s (q := outside) (fun h => absurd h Bool.false_ne_true) h
  have hq : s.foldl Quote.next outside = ⟨true, true⟩ := congrArg₂ Quote.mk hin h
  refine ⟨(repairFrom [] outside s).2.1, ?_⟩
  unfold closedText
  rw [List.append_assoc, brackets_append, hloop, Option.bind_some, hquote, hq]
  exact brackets_inString hclosers _

/-! ## The commas -/

theorem closes_nil : closes [] = false := rfl

theorem closes_space (h : isJsSpace ch = true) (t : List Char) : closes (ch :: t) = closes t := by
  unfold closes
  rw [List.dropWhile_cons_of_pos h]

theorem closes_plain (h : isJsSpace ch = false) (t : List Char) :
    closes (ch :: t) = decide (ch = '\x7d' ∨ ch = ']') := by
  unfold closes
  rw [List.dropWhile_cons_of_neg (by rw [h]; exact Bool.false_ne_true), List.head?_cons, Option.any_some]
  exact (Bool.decide_or _ _).symm

theorem closer_of_closes (h : closes (ch :: t) = true) (hspace : isJsSpace ch = false) : IsCloser ch := by
  rw [closes_plain hspace] at h
  exact (of_decide_eq_true h : ch = '\x7d' ∨ ch = ']')

theorem not_space_of_closer (h : IsCloser ch) : isJsSpace ch = false := by
  rcases h with rfl | rfl <;> decide

/-- While commas and white space are taken away, the quotes that are kept may be behind by the
escape that the comma has ended; the closer ends it too. -/
structure Follows (inMatch : Bool) (q kept : Quote) (t : List Char) : Prop where
  same : inMatch = false → kept = q
  close : inMatch = true →
    closes t = true ∧ (kept = q ∧ q.escaped = false ∨ q = ⟨true, false⟩ ∧ kept = ⟨true, true⟩)

theorem follows_rfl (q : Quote) (t : List Char) : Follows false q q t :=
  ⟨fun _ => rfl, fun h => absurd h Bool.false_ne_true⟩

theorem next_gap (h : isJsSpace ch = true ∨ ch = ',') (q : Quote) :
    (q.inString = true → q.next ch = ⟨true, false⟩) ∧ (q.inString = false → q.next ch = outside) := by
  have hquote : ch ≠ '"' := by
    rintro rfl
    exact absurd h (by decide)
  have hslash : ch ≠ '\\' := by
    rintro rfl
    exact absurd h (by decide)
  constructor
  · intro hin
    unfold Quote.next
    rw [if_pos hin, if_neg hslash, decide_eq_true hquote]
    exact ite_self _
  · intro hout
    unfold Quote.next
    rw [if_neg (by rw [hout]; exact Bool.false_ne_true), decide_eq_false hquote]
    rfl

variable {inMatch : Bool} {kept : Quote}

theorem follows_gap (hq : q.inString = false → q = outside)
    (hfollows : Follows inMatch q kept (ch :: t)) (hgap : isJsSpace ch = true ∧ inMatch = true ∨ ch = ',')
    (hcloses : closes t = true) : Follows true (q.next ch) kept t := by
  obtain ⟨hin, hout⟩ := next_gap (hgap.imp_left And.left) q
  refine ⟨fun h => absurd h.symm Bool.false_ne_true, fun _ => ⟨hcloses, ?_⟩⟩
  cases inMatch with
  | true =>
    rcases (hfollows.close rfl).2 with ⟨rfl, hesc⟩ | ⟨rfl, rfl⟩
    · cases hstring : kept.inString with
      | true =>
        rw [hin hstring]
        exact .inl ⟨congrArg₂ Quote.mk hstring hesc, rfl⟩
      | false =>
        rw [hout hstring]
        exact .inl ⟨hq hstring, rfl⟩
    · rw [hin rfl]
      exact .inr ⟨rfl, rfl⟩
  | false =>
    have hsame := hfollows.same rfl
    subst hsame
    cases hstring : kept.inString with
    | true =>
      rw [hin hstring]
      cases hesc : kept.escaped with
      | true => exact .inr ⟨rfl, congrArg₂ Quote.mk hstring hesc⟩
      | false => exact .inl ⟨congrArg₂ Quote.mk hstring hesc, rfl⟩
    | false =>
      rw [hout hstring]
      exact .inl ⟨hq hstring, rfl⟩

theorem follows_kept (hfollows : Follows inMatch q kept (ch :: t))
    (hkept : ¬ (inMatch && isJsSpace ch) = true) : kept.inString = q.inString ∧ kept.next ch = q.next ch := by
  cases inMatch with
  | false =>
    rw [hfollows.same rfl]
    exact ⟨rfl, rfl⟩
  | true =>
    obtain ⟨hcloses, hquotes⟩ := hfollows.close rfl
    rw [Bool.true_and, Bool.not_eq_true] at hkept
    rcases hquotes with ⟨rfl, -⟩ | ⟨rfl, rfl⟩
    · exact ⟨rfl, rfl⟩
    · refine ⟨rfl, ?_⟩
      rcases closer_of_closes hcloses hkept with rfl | rfl <;> rfl

theorem isGap_of_match (h : (inMatch && isJsSpace ch) = true) : isJsSpace ch = true ∧ inMatch = true := by
  rw [Bool.and_eq_true] at h
  exact h.symm

theorem brackets_strip (hq : q.inString = false → q = outside)
    (hfollows : Follows inMatch q kept t) (stack : List Char) :
    (brackets stack kept (stripCommas inMatch t)).map (fun r => (r.1, r.2.inString)) =
      (brackets stack q t).map fun r => (r.1, r.2.inString) := by
  induction t generalizing inMatch q kept stack with
  | nil =>
    cases inMatch with
    | true => exact absurd (hfollows.close rfl).1 (by decide)
    | false => rw [hfollows.same rfl]; rfl
  | cons ch t ih =>
    have hgap : ∀ (hgap : isJsSpace ch = true ∧ inMatch = true ∨ ch = ','), closes t = true →
        (brackets stack kept (stripCommas true t)).map (fun r => (r.1, r.2.inString)) =
          (brackets stack q (ch :: t)).map fun r => (r.1, r.2.inString) := by
      intro hgap hcloses
      have hnone : ¬ (ch = '\x7b' ∨ ch = '[') ∧ ¬ (ch = '\x7d' ∨ ch = ']') := by
        constructor <;> rintro (rfl | rfl) <;> exact absurd (hgap.imp_left And.left) (by decide)
      rw [brackets, if_neg hnone.1, if_neg hnone.2, ite_self]
      exact ih next_outside (follows_gap hq hfollows hgap hcloses) stack
    rw [stripCommas]
    split_ifs with hmatch hcomma
    · have hspace := isGap_of_match hmatch
      exact hgap (.inl hspace) ((closes_space hspace.1 t).symm.trans (hfollows.close hspace.2).1)
    · exact hgap (.inr hcomma.1) hcomma.2
    · obtain ⟨hin, hnext⟩ := follows_kept hfollows hmatch
      rw [brackets, brackets, hin, hnext]
      split_ifs
      · exact ih next_outside (follows_rfl _ _) _
      · exact ih next_outside (follows_rfl _ _) _
      · exact ih next_outside (follows_rfl _ _) _
      · rfl
      · exact ih next_outside (follows_rfl _ _) _

theorem literals_ne_nil (h : q.inString = true) (t : List Char) : literals q t ≠ [] := by
  induction t generalizing q with
  | nil =>
    rw [literals, if_pos h]
    exact List.cons_ne_nil _ _
  | cons ch t ih =>
    rw [literals, if_pos h]
    split
    · next hnext =>
        obtain ⟨l, ls, hl⟩ := List.exists_cons_of_ne_nil (ih hnext)
        rw [hl]
        exact List.cons_ne_nil _ _
    · exact List.cons_ne_nil _ _

variable {ls : List (List Char)}

/-- In a string, white space and a closer are looked for in the string. -/
theorem closes_literal {t l : List Char} (h : literals ⟨true, false⟩ t = l :: ls) : closes l = closes t := by
  induction t generalizing l ls with
  | nil =>
    cases h
    rfl
  | cons ch t ih =>
    rw [literals, if_pos rfl] at h
    by_cases hspace : isJsSpace ch = true
    · have hnext : Quote.next ⟨true, false⟩ ch = ⟨true, false⟩ := (next_gap (.inl hspace) _).1 rfl
      rw [hnext, if_pos rfl] at h
      obtain ⟨l', ls', hl⟩ := List.exists_cons_of_ne_nil (literals_ne_nil (q := ⟨true, false⟩) rfl t)
      rw [hl] at h
      cases h
      rw [closes_space hspace, closes_space hspace, ih hl]
    · rw [Bool.not_eq_true] at hspace
      split at h
      · next hnext =>
          obtain ⟨l', ls', hl⟩ := List.exists_cons_of_ne_nil (literals_ne_nil hnext t)
          rw [hl] at h
          cases h
          rw [closes_plain hspace, closes_plain hspace]
      · next hnext =>
          cases h
          -- the string ends here
          have hquote : ch = '"' := by
            by_contra hne
            refine hnext ?_
            unfold Quote.next
            rw [if_pos rfl, if_neg Bool.false_ne_true]
            split
            · rfl
            · exact decide_eq_true hne
          subst hquote
          rfl

/-- The commas that are taken away from the strings: those of a string that is open come first. -/
def stripped (inMatch : Bool) (q : Quote) (ls : List (List Char)) : List (List Char) :=
  if q.inString then (ls.take 1).map (stripCommas inMatch) ++ (ls.drop 1).map (stripCommas false)
  else ls.map (stripCommas false)

theorem stripped_false (q : Quote) (ls : List (List Char)) : stripped false q ls = ls.map (stripCommas false) := by
  unfold stripped
  split
  · rw [← List.map_append, List.take_append_drop]
  · rfl

theorem literals_strip (hq : q.inString = false → q = outside) (hfollows : Follows inMatch q kept t) :
    literals kept (stripCommas inMatch t) = stripped inMatch q (literals q t) := by
  induction t generalizing inMatch q kept with
  | nil =>
    cases inMatch with
    | true => exact absurd (hfollows.close rfl).1 (by decide)
    | false =>
      rw [hfollows.same rfl, stripped_false, stripCommas, literals]
      split <;> rfl
  | cons ch t ih =>
    have hgap : ∀ (hgap : isJsSpace ch = true ∧ inMatch = true ∨ ch = ','), closes t = true →
        literals kept (stripCommas true t) = stripped inMatch q (literals q (ch :: t)) := by
      intro hgap hcloses
      obtain ⟨hin, hout⟩ := next_gap (hgap.imp_left And.left) q
      rw [ih next_outside (follows_gap hq hfollows hgap hcloses), literals]
      cases hstring : q.inString with
      | false =>
        have hnext := hout hstring
        rw [hnext, if_neg Bool.false_ne_true, stripped, stripped, if_neg not_inString_outside, hstring,
          if_neg Bool.false_ne_true]
      | true =>
        have hnext := hin hstring
        obtain ⟨l, ls, hl⟩ := List.exists_cons_of_ne_nil (literals_ne_nil (q := ⟨true, false⟩) rfl t)
        rw [hnext, if_pos rfl, if_pos rfl, hl, stripped, stripped, if_pos rfl, hstring, if_pos rfl]
        have hhead : stripCommas inMatch (ch :: l) = stripCommas true l := by
          rcases hgap with ⟨hspace, rfl⟩ | rfl
          · rw [stripCommas, hspace, Bool.true_and, if_pos rfl]
          · have hspace : ¬ (inMatch && isJsSpace ',') = true := by
              rw [Bool.and_eq_true]
              exact fun h => absurd h.2 (by decide)
            rw [stripCommas, if_neg hspace, if_pos ⟨rfl, (closes_literal hl).trans hcloses⟩]
        exact (congrArg (· :: _) hhead).symm
    rw [stripCommas]
    split_ifs with hmatch hcomma
    · have hspace := isGap_of_match hmatch
      exact hgap (.inl hspace) ((closes_space hspace.1 t).symm.trans (hfollows.close hspace.2).1)
    · exact hgap (.inr hcomma.1) hcomma.2
    · obtain ⟨hin, hnext⟩ := follows_kept hfollows hmatch
      rw [literals, literals, hin, hnext, ih next_outside (follows_rfl _ _), stripped_false]
      cases hstring : q.inString with
      | false =>
        rw [if_neg Bool.false_ne_true, if_neg Bool.false_ne_true, stripped, hstring, if_neg Bool.false_ne_true]
      | true =>
        rw [if_pos rfl, if_pos rfl, stripped, hstring, if_pos rfl]
        split
        · next hnextIn =>
            obtain ⟨l, ls, hl⟩ := List.exists_cons_of_ne_nil (literals_ne_nil hnextIn t)
            rw [hl]
            have hno : ¬ (ch = ',' ∧ closes l = true) := by
              rintro ⟨rfl, hcloses⟩
              rw [(next_gap (.inr rfl) q).1 hstring] at hl
              exact hcomma ⟨rfl, (closes_literal hl).symm.trans hcloses⟩
            have hhead : stripCommas inMatch (ch :: l) = ch :: stripCommas false l := by
              rw [stripCommas, if_neg hmatch, if_neg hno]
            exact (congrArg (· :: _) hhead).symm
        · cases inMatch <;> rfl

/-! ## Doubled commas -/

/-- White space, a comma, and then a comma's end: white space and a closer. -/
def doubles (t : List Char) : Bool :=
  match t.dropWhile isJsSpace with
  | [] => false
  | c :: u => decide (c = ',') && closes u

/-- Two commas stand in front of a closer, somewhere. -/
def hasDouble : List Char → Bool
  | [] => false
  | ch :: t => decide (ch = ',') && doubles t || hasDouble t

theorem doubles_space (h : isJsSpace ch = true) (t : List Char) : doubles (ch :: t) = doubles t := by
  unfold doubles
  rw [List.dropWhile_cons_of_pos h]

theorem doubles_plain (h : isJsSpace ch = false) (t : List Char) :
    doubles (ch :: t) = (decide (ch = ',') && closes t) := by
  unfold doubles
  rw [List.dropWhile_cons_of_neg (by rw [h]; exact Bool.false_ne_true)]

theorem doubles_of_closes (h : closes t = true) : doubles t = false := by
  induction t with
  | nil => rfl
  | cons ch t ih =>
    by_cases hspace : isJsSpace ch = true
    · rw [doubles_space hspace]
      rw [closes_space hspace] at h
      exact ih h
    · rw [Bool.not_eq_true] at hspace
      have hcomma : ch ≠ ',' := by
        rcases closer_of_closes h hspace with rfl | rfl <;> decide
      rw [doubles_plain hspace, decide_eq_false hcomma, Bool.false_and]

theorem bare_nil : Bare [] := by
  intro u hu
  cases List.suffix_nil.1 hu

theorem bare_cons : Bare (ch :: t) ↔ (ch = ',' → closes t = false) ∧ Bare t := by
  constructor
  · intro h
    refine ⟨?_, fun u hu => h u (hu.trans (List.suffix_cons _ _))⟩
    rintro rfl
    exact h t List.suffix_rfl
  · rintro ⟨hhead, htail⟩ u hu
    rcases List.suffix_cons_iff.1 hu with heq | hu
    · obtain ⟨rfl, rfl⟩ := List.cons.inj heq
      exact hhead rfl
    · exact htail u hu

theorem length_strip_le (inMatch : Bool) (t : List Char) : (stripCommas inMatch t).length ≤ t.length := by
  induction t generalizing inMatch with
  | nil => exact Nat.le_refl _
  | cons ch t ih =>
    rw [stripCommas]
    split_ifs
    · exact (ih true).trans (Nat.le_succ _)
    · exact (ih true).trans (Nat.le_succ _)
    · exact Nat.succ_le_succ (ih false)

theorem strip_eq_self_iff : stripCommas false t = t ↔ Bare t := by
  induction t with
  | nil => exact iff_of_true rfl bare_nil
  | cons ch t ih =>
    rw [bare_cons, stripCommas, Bool.false_and, if_neg Bool.false_ne_true]
    split_ifs with hcomma
    · refine iff_of_false (fun heq => ?_) fun h => ?_
      · have hlen := congrArg List.length heq
        have hle := length_strip_le true t
        rw [List.length_cons] at hlen
        omega
      · exact absurd hcomma.2 (by rw [h.1 hcomma.1]; exact Bool.false_ne_true)
    · rw [List.cons.injEq, ih]
      refine and_congr_left fun _ => iff_of_true rfl fun hc => ?_
      rw [Bool.eq_false_iff]
      exact fun hcloses => hcomma ⟨hc, hcloses⟩

theorem closes_strip_true (h : closes t = true) : closes (stripCommas true t) = true := by
  induction t with
  | nil => exact h
  | cons ch t ih =>
    rw [stripCommas, Bool.true_and]
    split_ifs with hspace hcomma
    · rw [closes_space hspace] at h
      exact ih h
    · rw [hcomma.1] at h
      exact absurd h (by rw [closes_plain (by decide)]; decide)
    · rw [Bool.not_eq_true] at hspace
      rw [closes_plain hspace] at h ⊢
      exact h

/-- Behind the commas that go, the next ones stand in front of a closer. -/
theorem closes_strip (t : List Char) : closes (stripCommas false t) = (closes t || doubles t) := by
  induction t with
  | nil => rfl
  | cons ch t ih =>
    by_cases hspace : isJsSpace ch = true
    · have hcomma : ¬ (ch = ',' ∧ closes t = true) := by
        rintro ⟨rfl, -⟩
        exact absurd hspace (by decide)
      rw [stripCommas, Bool.false_and, if_neg Bool.false_ne_true, if_neg hcomma, closes_space hspace,
        closes_space hspace, doubles_space hspace, ih]
    · rw [Bool.not_eq_true] at hspace
      rw [stripCommas, Bool.false_and, if_neg Bool.false_ne_true, closes_plain hspace, doubles_plain hspace]
      split_ifs with hcomma
      · rw [closes_strip_true hcomma.2, hcomma.1, hcomma.2]
        rfl
      · rw [closes_plain hspace]
        have hnone : (decide (ch = ',') && closes t) = false := by
          rw [Bool.eq_false_iff, ne_eq, Bool.and_eq_true, decide_eq_true_eq]
          exact hcomma
        rw [hnone, Bool.or_false]

theorem bare_strip_iff (inMatch : Bool) (t : List Char) : Bare (stripCommas inMatch t) ↔ hasDouble t = false := by
  induction t generalizing inMatch with
  | nil => exact iff_of_true bare_nil rfl
  | cons ch t ih =>
    rw [stripCommas, hasDouble, Bool.or_eq_false_iff]
    split_ifs with hmatch hcomma
    · have hspace := (isGap_of_match hmatch).1
      have hne : ch ≠ ',' := by
        rintro rfl
        exact absurd hspace (by decide)
      rw [ih, decide_eq_false hne, Bool.false_and]
      exact ⟨fun h => ⟨rfl, h⟩, And.right⟩
    · rw [ih, doubles_of_closes hcomma.2, Bool.and_false]
      exact ⟨fun h => ⟨rfl, h⟩, And.right⟩
    · rw [bare_cons, ih, closes_strip]
      refine and_congr_left fun _ => ?_
      by_cases hc : ch = ','
      · have hcloses : closes t = false := by
          rw [Bool.eq_false_iff]
          exact fun h => hcomma ⟨hc, h⟩
        rw [hcloses, Bool.false_or, decide_eq_true hc, Bool.true_and]
        exact ⟨fun h => h hc, fun h _ => h⟩
      · rw [decide_eq_false hc, Bool.false_and]
        exact iff_of_true (fun h => absurd h hc) rfl

/-! ## Texts that need no repair -/

theorem repairFrom_of_brackets {r : List Char × Quote} (h : brackets stack q t = some r) :
    repairFrom stack q t = (t, r) := by
  induction t generalizing stack q with
  | nil => rw [← Option.some.inj h]; rfl
  | cons ch t ih =>
    rw [brackets] at h
    rw [repairFrom]
    split_ifs at h ⊢ with hin hopen hclose hmem hhead hhead
    · rw [ih h]
    · rw [ih h]
    · obtain ⟨u, rfl⟩ : ∃ u, stack = ch :: u := by
        cases stack with
        | nil => cases hhead
        | cons c u =>
          cases hhead
          exact ⟨u, rfl⟩
      rw [List.dropWhile_cons_of_neg (by simp), List.takeWhile_cons_of_neg (by simp), ih h]
      rfl
    · exact absurd (List.mem_of_mem_head? hhead) hmem
    · rw [ih h]

theorem matched_iff : matched t = true ↔ ∃ q, brackets [] outside t = some ([], q) ∧ q.inString = false := by
  unfold matched
  rw [Option.any_eq_true]
  constructor
  · rintro ⟨⟨stack, q⟩, hr, hclosed⟩
    rw [Bool.and_eq_true, decide_eq_true_eq, Bool.not_eq_true'] at hclosed
    obtain ⟨rfl, hq⟩ : stack = [] ∧ q.inString = false := hclosed
    exact ⟨q, hr, hq⟩
  · rintro ⟨q, hr, hq⟩
    refine ⟨_, hr, ?_⟩
    rw [hq]
    rfl

theorem repairClosings_of_matched (h : matched t = true) : repairClosings t = stripCommas false t := by
  obtain ⟨q, hr, hq⟩ := matched_iff.1 h
  have hloop : repairFrom [] outside t = (t, [], q) := repairFrom_of_brackets hr
  rw [repairClosings_closedText, closedText, hloop, endQuote, if_neg (by rw [hq]; exact Bool.false_ne_true),
    List.append_nil, List.append_nil]

/-- Closed, with matching brackets, unless the text ends inside an escape. -/
theorem matched_repairClosings_iff (s : List Char) : matched (repairClosings s) = true ↔ ¬ EndsEscaped s := by
  have hstrip := brackets_strip (fun _ => rfl) (follows_rfl outside (closedText s)) []
  rw [repairClosings_closedText, matched_iff]
  constructor
  · rintro ⟨q, hr, hq⟩ hesc
    obtain ⟨stack, hstack⟩ := brackets_escaped hesc
    rw [hr, hstack] at hstrip
    have hin := (Prod.mk.inj (Option.some.inj hstrip)).2
    rw [hq] at hin
    cases hin
  · intro hesc
    rw [brackets_closedText hesc] at hstrip
    obtain ⟨⟨stack, q⟩, hr, heq⟩ := Option.map_eq_some_iff.1 hstrip
    obtain ⟨rfl, hq⟩ := Prod.mk.inj heq
    exact ⟨q, hr, hq⟩

/-! ## Doubled commas outside the strings -/

/-- As `doubledFrom`, in a text whose closers all match. -/
def runs : Quote → Nat → List Char → Bool
  | _, _, [] => false
  | q, k, ch :: t =>
      if q.inString then runs (q.next ch) 0 t
      else if ch = '\x7d' ∨ ch = ']' then decide (2 ≤ k) || runs (q.next ch) 0 t
      else if ch = ',' then runs (q.next ch) (k + 1) t
      else if isJsSpace ch then runs (q.next ch) k t
      else runs (q.next ch) 0 t

theorem runs_closers (ha : ∀ c ∈ a, IsCloser c) (hne : a ≠ []) (k : Nat) (w : List Char) :
    runs outside k (a ++ w) = (decide (2 ≤ k) || runs outside 0 w) := by
  induction a generalizing k with
  | nil => exact absurd rfl hne
  | cons c a ih =>
    obtain ⟨hc, ha⟩ := List.forall_mem_cons.1 ha
    rw [List.cons_append, runs, if_neg not_inString_outside, if_pos (show c = '\x7d' ∨ c = ']' from hc),
      next_closer hc]
    cases a with
    | nil => rfl
    | cons c' a =>
      rw [ih ha (List.cons_ne_nil _ _)]
      rfl

theorem runs_closers_zero (ha : ∀ c ∈ a, IsCloser c) (q : Quote) : runs q 0 a = false := by
  induction a generalizing q with
  | nil => rfl
  | cons c a ih =>
    obtain ⟨hc, ha⟩ := List.forall_mem_cons.1 ha
    rw [runs, if_pos (show c = '\x7d' ∨ c = ']' from hc), ih ha]
    exact ite_self _

/-- A character that is neither a closer, a comma nor white space. -/
theorem runs_other (hin : q.inString = false) (hclose : ¬ (ch = '\x7d' ∨ ch = ']')) (hcomma : ch ≠ ',')
    (hspace : ¬ isJsSpace ch = true) (k : Nat) (t : List Char) : runs q k (ch :: t) = runs (q.next ch) 0 t := by
  rw [runs, if_neg (by rw [hin]; exact Bool.false_ne_true), if_neg hclose, if_neg hcomma, if_neg hspace]

theorem plain_of_opener (h : ch = '\x7b' ∨ ch = '[') :
    ¬ (ch = '\x7d' ∨ ch = ']') ∧ ch ≠ ',' ∧ ¬ isJsSpace ch = true := by
  rcases h with rfl | rfl <;> decide

theorem runs_repairFrom (hstack : ∀ c ∈ stack, IsCloser c) (hq : q.inString = false → q = outside) (k : Nat)
    (t : List Char) :
    runs q k ((repairFrom stack q t).1 ++ (endQuote (repairFrom stack q t).2.2 ++ (repairFrom stack q t).2.1)) =
      doubledFrom stack q k t := by
  induction t generalizing stack q k with
  | nil =>
    rw [repairFrom, doubledFrom, List.nil_append]
    cases hin : q.inString with
    | true =>
      rw [endQuote, if_pos hin, List.singleton_append, runs, if_pos hin]
      exact runs_closers_zero hstack _
    | false =>
      have hout := hq hin
      subst hout
      rw [endQuote, if_neg not_inString_outside, List.nil_append]
      cases stack with
      | nil => rfl
      | cons c u =>
        have hall := runs_closers hstack (List.cons_ne_nil _ _) k []
        rw [List.append_nil] at hall
        rw [hall, decide_eq_true (List.cons_ne_nil c u)]
        exact Bool.or_false _
  | cons ch t ih =>
    rw [repairFrom, doubledFrom]
    split_ifs with hin hopen hclose hmem hcomma hspace
    · rw [List.cons_append, runs, if_pos hin]
      exact ih hstack next_outside 0
    · obtain ⟨hclose, hcomma, hspace⟩ := plain_of_opener hopen
      rw [List.cons_append, runs_other (Bool.eq_false_iff.2 hin) hclose hcomma hspace]
      exact ih (closers_push hstack ch) next_outside 0
    · have hout := hq (Bool.eq_false_iff.2 hin)
      subst hout
      rw [next_closer hclose]
      dsimp only
      rw [List.append_cons, List.append_assoc, runs_closers (closers_above hstack hclose)
        (List.append_ne_nil_of_right_ne_nil _ (List.cons_ne_nil _ _))]
      exact congrArg (decide (2 ≤ k) || ·) (ih (closers_pop hstack ch) (fun _ => rfl) 0)
    · have hout := hq (Bool.eq_false_iff.2 hin)
      subst hout
      rw [next_closer hclose]
      exact ih hstack (fun _ => rfl) k
    · rw [List.cons_append, runs, if_neg hin, if_neg hclose, if_pos hcomma]
      exact ih hstack next_outside (k + 1)
    · rw [List.cons_append, runs, if_neg hin, if_neg hclose, if_neg hcomma, if_pos hspace]
      exact ih hstack next_outside k
    · rw [List.cons_append, runs_other (Bool.eq_false_iff.2 hin) hclose hcomma hspace]
      exact ih hstack next_outside 0

theorem runs_eq (k : Nat) (t : List Char) :
    runs outside k t = (decide (2 ≤ k) && closes t || decide (1 ≤ k) && doubles t || runs outside 0 t) := by
  induction t generalizing k with
  | nil =>
    have hdoubles : doubles [] = false := rfl
    rw [closes_nil, hdoubles, Bool.and_false, Bool.and_false]
    rfl
  | cons ch t ih =>
    have hzero : decide (2 ≤ 0) = false := rfl
    rw [runs, runs, if_neg not_inString_outside, if_neg not_inString_outside]
    split_ifs with hclose hcomma hspace
    · have hspace := not_space_of_closer hclose
      have hcomma : ch ≠ ',' := by
        rcases hclose with rfl | rfl <;> decide
      rw [closes_plain hspace, doubles_plain hspace, decide_eq_true hclose, decide_eq_false hcomma, hzero,
        Bool.and_true, Bool.false_and, Bool.and_false, Bool.or_false, Bool.false_or]
    · subst hcomma
      have hone : decide (2 ≤ k + 1) = decide (1 ≤ k) := decide_eq_decide.2 (by omega)
      have hpos : decide (1 ≤ k + 1) = true := decide_eq_true (by omega)
      have htwo : decide (2 ≤ 0 + 1) = false := rfl
      have hfirst : decide (1 ≤ 0 + 1) = true := rfl
      rw [next_of_ne (by decide), ih (k + 1), ih (0 + 1), closes_plain (by decide), doubles_plain (by decide), hone,
        hpos, htwo, hfirst]
      simp [Bool.or_assoc]
    · have hne : ch ≠ '"' := by
        rintro rfl
        exact absurd hspace (by decide)
      rw [next_of_ne hne, closes_space hspace, doubles_space hspace]
      exact ih k
    · rw [Bool.not_eq_true] at hspace
      rw [closes_plain hspace, doubles_plain hspace, decide_eq_false hclose, decide_eq_false hcomma,
        Bool.and_false, Bool.false_and, Bool.and_false]
      rfl

theorem doubles_literal {t l : List Char} (h : literals ⟨true, false⟩ t = l :: ls)
    (hbare : Bare l) : doubles t = false := by
  induction t generalizing l ls with
  | nil => rfl
  | cons ch t ih =>
    obtain ⟨l', ls', hl⟩ := List.exists_cons_of_ne_nil (literals_ne_nil (q := ⟨true, false⟩) rfl t)
    have hgap : isJsSpace ch = true ∨ ch = ',' → l = ch :: l' := by
      intro hgap
      rw [literals, if_pos rfl, (next_gap hgap _).1 rfl, if_pos rfl, hl] at h
      cases h
      rfl
    by_cases hspace : isJsSpace ch = true
    · rw [hgap (.inl hspace), bare_cons] at hbare
      rw [doubles_space hspace]
      exact ih hl hbare.2
    · rw [Bool.not_eq_true] at hspace
      rw [doubles_plain hspace]
      by_cases hcomma : ch = ','
      · rw [hgap (.inr hcomma), bare_cons] at hbare
        rw [← closes_literal hl, hbare.1 hcomma, Bool.and_false]
      · rw [decide_eq_false hcomma, Bool.false_and]

/-- Where the strings are bare, commas are doubled outside them only. -/
theorem hasDouble_eq_runs (hq : q.inString = false → q = outside) (h : ∀ l ∈ literals q t, Bare l) :
    hasDouble t = runs q 0 t := by
  induction t generalizing q with
  | nil => rfl
  | cons ch t ih =>
    rw [literals] at h
    rw [hasDouble]
    cases hin : q.inString with
    | true =>
      rw [hin, if_pos rfl] at h
      rw [runs, if_pos hin]
      cases hnext : (q.next ch).inString with
      | true =>
        obtain ⟨l, ls, hl⟩ := List.exists_cons_of_ne_nil (literals_ne_nil hnext t)
        rw [hnext, if_pos rfl, hl] at h
        obtain ⟨hhead, hrest⟩ := List.forall_mem_cons.1 h
        rw [bare_cons] at hhead
        have hall : ∀ l ∈ literals (q.next ch) t, Bare l := by
          rw [hl]
          exact List.forall_mem_cons.2 ⟨hhead.2, hrest⟩
        have hnone : (decide (ch = ',') && doubles t) = false := by
          by_cases hcomma : ch = ','
          · have hstring := (next_gap (.inr hcomma) q).1 hin
            rw [hstring] at hl
            rw [doubles_literal hl hhead.2, Bool.and_false]
          · rw [decide_eq_false hcomma, Bool.false_and]
        rw [hnone, Bool.false_or]
        exact ih next_outside hall
      | false =>
        rw [hnext, if_neg Bool.false_ne_true] at h
        have hcomma : ch ≠ ',' := by
          rintro rfl
          rw [(next_gap (.inr rfl) q).1 hin] at hnext
          cases hnext
        rw [decide_eq_false hcomma, Bool.false_and, Bool.false_or]
        exact ih next_outside (List.forall_mem_cons.1 h).2
    | false =>
      have hout := hq hin
      subst hout
      rw [if_neg not_inString_outside] at h
      have hrest := ih next_outside h
      rw [runs, if_neg not_inString_outside, hrest]
      split_ifs with hclose hcomma hspace
      · have hcomma : ch ≠ ',' := by
          rcases hclose with rfl | rfl <;> decide
        rw [decide_eq_false hcomma, Bool.false_and]
        rfl
      · rw [hcomma, next_of_ne (by decide), runs_eq (0 + 1)]
        rfl
      · have hcomma : ch ≠ ',' := hcomma
        rw [decide_eq_false hcomma, Bool.false_and, Bool.false_or]
      · rw [decide_eq_false hcomma, Bool.false_and, Bool.false_or]

/-! ## The repair -/

theorem map_strip_eq_iff : ls.map (stripCommas false) = ls ↔ ∀ l ∈ ls, Bare l := by
  induction ls with
  | nil => exact iff_of_true rfl (List.forall_mem_nil _)
  | cons l ls ih => rw [List.map_cons, List.cons.injEq, strip_eq_self_iff, ih, List.forall_mem_cons]

/-- For every text: what `repairClosings` makes of it is closed, has the same strings, and needs no
repair, exactly if the text does not end inside an escape, no string of it has a comma in front of
a closer, and no two commas stand in front of a closer outside the strings. -/
theorem repairs_iff (s : List Char) : Repairs s (repairClosings s) ↔
    ¬ EndsEscaped s ∧ (∀ l ∈ literals outside s, Bare l) ∧ doubledFrom [] outside 0 s = false := by
  unfold Repairs
  rw [matched_repairClosings_iff]
  refine and_congr_right fun hesc => ?_
  have hmatched := (matched_repairClosings_iff s).2 hesc
  have hliterals : literals outside (repairClosings s) = (literals outside s).map (stripCommas false) := by
    rw [repairClosings_closedText, literals_strip (fun _ => rfl) (follows_rfl _ _), stripped_false,
      literals_closedText hesc]
  rw [hliterals, map_strip_eq_iff, repairClosings_of_matched hmatched, strip_eq_self_iff]
  refine and_congr_right fun hbare => ?_
  have hdoubled := runs_repairFrom no_closers (fun _ => rfl) 0 s (q := outside)
  have htidy : ∀ l ∈ literals outside (closedText s), Bare l := by
    rwa [literals_closedText hesc]
  rw [repairClosings_closedText, bare_strip_iff, hasDouble_eq_runs (fun _ => rfl) htidy, closedText, List.append_assoc,
    hdoubled]

/-- A comma and a closer, in a string. -/
theorem not_repairs_string : ¬ Repairs "[\"a,]\"]".toList (repairClosings "[\"a,]\"]".toList) := by
  decide +kernel

end Portal.Repair
