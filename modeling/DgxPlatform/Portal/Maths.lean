import DgxPlatform.Lib.Framing
import DgxPlatform.Lib.Text
import DgxPlatform.Lib.Tokens

/-! # The formulas of an answer

The Markdown parser of the chat eats the backslashes of a formula. `protectMath` takes the
formulas out of the text before and leaves a numbered marker for each, `mathPlugin` renders
what it finds between the signs of a marker. Code is left alone.

`plugin_protectMath`: the plugin shows every formula that was taken out in its place, once, and
everything else is the text as it was, without the two signs that only markers have.
-/

namespace Portal.Maths

open Text Framing Tokens

structure Formula where
  latex : List Char
  display : Bool
deriving DecidableEq, Repr

def START : Char := Char.ofNat 0xE000

def END : Char := Char.ofNat 0xE001

/-! ## The sweep -/

/-- A match of `PATTERN`, by the alternative it is of. -/
inductive Match where
  | code (t : List Char)
  | display (latex : List Char)
  | online (latex : List Char)
  | paren (latex : List Char)
deriving DecidableEq, Repr

def Match.whole : Match → List Char
  | .code t => t
  | .display latex => "$$".toList ++ latex ++ "$$".toList
  | .online latex => '$' :: (latex ++ ['$'])
  | .paren latex => "\\(".toList ++ latex ++ "\\)".toList

/-- The formula of a match; code has none. -/
def Match.formula : Match → Option Formula
  | .code _ => none
  | .display latex => some ⟨latex, true⟩
  | .online latex | .paren latex => some ⟨latex, false⟩

/-- A fence up to the next one, or to the end of the text. -/
def fenced (fence t : List Char) : Option (List Char) :=
  if fence.isPrefixOf t then
    match cut fence (t.drop fence.length) with
    | some (a, _) => some (fence ++ a ++ fence)
    | none => some t
  else none

/-- A text between two signs `c`, on one line. -/
def enclosed (c : Char) (t : List Char) : Option (List Char) :=
  let a := t.tail.takeWhile fun d => d != c && d != '\n'
  if t.head? = some c ∧ (t.tail.drop a.length).head? = some c then some a else none

/-- `[\s\S]+?` between two delimiters: the shortest text that is not empty. -/
def between (opening closing t : List Char) : Option (List Char) :=
  match t.drop opening.length with
  | [] => none
  | c :: r => if opening.isPrefixOf t then (cut closing r).map fun p => c :: p.1 else none

/-- `PATTERN` behind the character `prev`. -/
def matchAt (prev : Option Char) (t : List Char) : Option Match :=
  ((fenced "```".toList t <|> fenced "~~~".toList t <|>
      (enclosed '`' t).map fun a => '`' :: (a ++ ['`'])).map .code) <|>
    -- an escaped dollar is no delimiter
    (if prev = some '\\' then none
      else (between "$$".toList "$$".toList t).map .display <|>
        ((enclosed '$' t).filter fun a => a.getLast?.any fun c => !isJsSpace c).map .online) <|>
    (between "\\(".toList "\\)".toList t).map .paren

def marker (n : Nat) : List Char := START :: (Nat.toDigits 10 n ++ [END])

/-- The replacement, with the formulas found so far. -/
def lay (formulas : List Formula) : List (Char ⊕ Match) → List Char × List Formula
  | [] => ([], formulas)
  | .inl c :: ts => (c :: (lay formulas ts).1, (lay formulas ts).2)
  | .inr x :: ts =>
      match x.formula with
      | none => (x.whole ++ (lay formulas ts).1, (lay formulas ts).2)
      | some f => (marker formulas.length ++ (lay (formulas ++ [f]) ts).1, (lay (formulas ++ [f]) ts).2)

/-- The text without the signs of markers. -/
def unmarked (src : List Char) : List Char := src.filter fun c => c != START && c != END

structure Protected where
  text : List Char
  formulas : List Formula
deriving DecidableEq, Repr

/-- The code and the formulas of a text, and what stands between. -/
def parts (src : List Char) : List (Char ⊕ Match) := tokens matchAt Match.whole none (unmarked src)

def protectMath (src : List Char) : Protected :=
  ⟨(lay [] (parts src)).1, (lay [] (parts src)).2⟩

/-! ## The plugin -/

/-- `BRAND_PATTERN`: the digits of a marker. -/
def brandAt (_ : Option Char) (t : List Char) : Option (List Char) :=
  let digits := t.tail.takeWhile Char.isDigit
  if t.head? = some START ∧ digits ≠ [] ∧ (t.tail.drop digits.length).head? = some END then some digits
  else none

def brand (digits : List Char) : List Char := START :: (digits ++ [END])

inductive Shown where
  | text (t : List Char)
  | formula (f : Formula)
deriving DecidableEq, Repr

def render (formulas : List Formula) : Char ⊕ List Char → Shown
  | .inl c => .text [c]
  | .inr digits =>
      match formulas[Nat.ofDigitChars 10 digits 0]? with
      | some f => .formula f
      -- a marker that was not laid
      | none => .text (brand digits)

def mathPlugin (formulas : List Formula) (t : List Char) : List Shown :=
  (tokens brandAt brand none t).map (render formulas)

/-! ## What matches -/

theorem append_prefix_of_cut {sep a b t : List Char} (h : cut sep t = some (a, b)) : a ++ sep <+: t :=
  ⟨b, (eq_of_cut h).symm⟩

theorem fenced_isPrefix {fence t w : List Char} (h : fenced fence t = some w) : fence <+: w ∧ w <+: t := by
  unfold fenced at h
  split at h
  · next hpre =>
      obtain ⟨r, rfl⟩ := List.isPrefixOf_iff_prefix.1 hpre
      rw [List.drop_left] at h
      split at h
      · next a b hcut =>
          cases h
          rw [List.append_assoc]
          exact ⟨List.prefix_append _ _, (List.prefix_append_right_inj _).2 (append_prefix_of_cut hcut)⟩
      · cases h
        exact ⟨hpre |> List.isPrefixOf_iff_prefix.1, List.prefix_rfl⟩
  · cases h

/-- A run of a class between two signs. -/
theorem run_isPrefix {c d : Char} {p : Char → Bool} {t : List Char} (hopen : t.head? = some c)
    (hclose : (t.tail.drop (t.tail.takeWhile p).length).head? = some d) :
    c :: (t.tail.takeWhile p ++ [d]) <+: t := by
  obtain ⟨r, rfl⟩ := List.head?_eq_some_iff.1 hopen
  obtain ⟨s, hs⟩ := List.head?_eq_some_iff.1 hclose
  rw [List.tail_cons] at hs ⊢
  refine List.cons_prefix_cons.2 ⟨rfl, s, ?_⟩
  rw [List.append_assoc, List.singleton_append, ← hs]
  exact List.prefix_iff_eq_append.1 (List.takeWhile_prefix _)

theorem enclosed_isPrefix {c : Char} {t a : List Char} (h : enclosed c t = some a) :
    c :: (a ++ [c]) <+: t := by
  simp only [enclosed, Option.ite_none_right_eq_some, Option.some.injEq] at h
  obtain ⟨⟨hopen, hclose⟩, rfl⟩ := h
  exact run_isPrefix hopen hclose

theorem between_isPrefix {opening closing t a : List Char} (h : between opening closing t = some a) :
    opening ++ a ++ closing <+: t := by
  unfold between at h
  split at h
  · cases h
  · next c r hdrop =>
      simp only [Option.ite_none_right_eq_some, Option.map_eq_some_iff] at h
      obtain ⟨hpre, ⟨b, rest⟩, hcut, rfl⟩ := h
      obtain ⟨s, rfl⟩ := List.isPrefixOf_iff_prefix.1 hpre
      rw [List.drop_left] at hdrop
      rw [hdrop, List.append_assoc]
      exact (List.prefix_append_right_inj _).2 (List.cons_prefix_cons.2 ⟨rfl, append_prefix_of_cut hcut⟩)

theorem matchAt_whole {prev : Option Char} {t : List Char} {x : Match} (h : matchAt prev t = some x) :
    x.whole <+: t ∧ x.whole ≠ [] := by
  simp only [matchAt, Option.orElse_eq_orElse, Option.orElse_eq_or, Option.or_eq_some_iff,
    Option.map_eq_some_iff] at h
  have hfence : ∀ {f w : List Char}, f ≠ [] → fenced f t = some w → w <+: t ∧ w ≠ [] := by
    intro f w hf hw
    obtain ⟨hstart, hpre⟩ := fenced_isPrefix hw
    exact ⟨hpre, hstart.ne_nil hf⟩
  rcases h with ⟨w, hw, rfl⟩ | ⟨-, h⟩
  · rcases hw with hw | ⟨-, hw | ⟨-, a, ha, rfl⟩⟩
    · exact hfence (by decide) hw
    · exact hfence (by decide) hw
    · exact ⟨enclosed_isPrefix ha, List.cons_ne_nil _ _⟩
  · rcases h with h | ⟨-, a, ha, rfl⟩
    · split at h
      · cases h
      · rcases Option.or_eq_some_iff.1 h with h | ⟨-, h⟩
        · obtain ⟨a, ha, rfl⟩ := Option.map_eq_some_iff.1 h
          exact ⟨between_isPrefix ha, by simp [Match.whole]⟩
        · obtain ⟨a, ha, rfl⟩ := Option.map_eq_some_iff.1 h
          exact ⟨enclosed_isPrefix (Option.filter_eq_some_iff.1 ha).1, List.cons_ne_nil _ _⟩
    · exact ⟨between_isPrefix ha, by simp [Match.whole]⟩

theorem matchAt_consumes : Consumes matchAt Match.whole := fun _ _ _ h => matchAt_whole h

theorem brandAt_consumes : Consumes brandAt brand := by
  intro prev t digits h
  simp only [brandAt, Option.ite_none_right_eq_some, Option.some.injEq] at h
  obtain ⟨⟨hstart, -, hend⟩, rfl⟩ := h
  exact ⟨run_isPrefix hstart hend, List.cons_ne_nil _ _⟩

/-! ## The markers are found -/

theorem brandAt_marker (prev : Option Char) (n : Nat) (t : List Char) :
    brandAt prev (brand (Nat.toDigits 10 n) ++ t) = some (Nat.toDigits 10 n) := by
  have hdigits : ∀ c ∈ Nat.toDigits 10 n, c.isDigit = true := fun c hc =>
    Nat.isDigit_of_mem_toDigits (by decide) (by decide) hc
  have htake : (Nat.toDigits 10 n ++ END :: t).takeWhile Char.isDigit = Nat.toDigits 10 n := by
    rw [List.takeWhile_append_of_pos hdigits, List.takeWhile_cons_of_neg (by decide), List.append_nil]
  have hne : Nat.toDigits 10 n ≠ [] := List.length_pos_iff.1 Nat.length_toDigits_pos
  simp [brandAt, brand, htake, hne]

/-- A text without the sign that opens markers is shown letter by letter. -/
theorem tokens_brand_append {a : List Char} (h : START ∉ a) (prev : Option Char) (t : List Char) :
    ∃ prev', tokens brandAt brand prev (a ++ t) = a.map .inl ++ tokens brandAt brand prev' t := by
  induction a generalizing prev with
  | nil => exact ⟨prev, rfl⟩
  | cons c a ih =>
    rw [List.mem_cons, not_or] at h
    have hnone : brandAt prev (c :: (a ++ t)) = none := by simp [brandAt, Ne.symm h.1]
    obtain ⟨prev', hrest⟩ := ih h.2 (some c)
    exact ⟨prev', by rw [List.cons_append, tokens_of_none brandAt_consumes hnone, hrest]; rfl⟩

theorem prefix_lay (formulas : List Formula) (ts : List (Char ⊕ Match)) :
    formulas <+: (lay formulas ts).2 := by
  induction ts generalizing formulas with
  | nil => exact List.prefix_rfl
  | cons x ts ih =>
    rcases x with c | x
    · exact ih formulas
    · unfold lay
      split
      · exact ih formulas
      · exact (List.prefix_append _ _).trans (ih _)

/-- What is to be seen of a part. -/
def shown : Char ⊕ Match → List Shown
  | .inl c => [.text [c]]
  | .inr x => x.formula.elim (x.whole.map fun c => .text [c]) fun f => [.formula f]

theorem render_lay {ts : List (Char ⊕ Match)} (hts : ∀ x ∈ ts, START ∉ text Match.whole x)
    (formulas : List Formula) (prev : Option Char) :
    (tokens brandAt brand prev (lay formulas ts).1).map (render (lay formulas ts).2) =
      ts.flatMap shown := by
  induction ts generalizing formulas prev with
  | nil => rfl
  | cons x ts ih =>
    have hrest : ∀ y ∈ ts, START ∉ text Match.whole y := fun y hy => hts y (List.mem_cons_of_mem _ hy)
    have hplain := hts x List.mem_cons_self
    -- what is no marker is shown as it is
    have hkept : ∀ a : List Char, START ∉ a →
        (tokens brandAt brand prev (a ++ (lay formulas ts).1)).map (render (lay formulas ts).2) =
          a.map (fun c => .text [c]) ++ ts.flatMap shown := by
      intro a ha
      obtain ⟨prev', heq⟩ := tokens_brand_append ha prev (lay formulas ts).1
      rw [heq, List.map_append, ih hrest, List.map_map]
      rfl
    rw [List.flatMap_cons]
    rcases x with c | x
    · exact hkept [c] hplain
    · cases hf : x.formula with
      | none =>
        simp only [lay, hf, shown, Option.elim_none]
        exact hkept x.whole hplain
      | some f =>
        simp only [lay, hf, shown, Option.elim_some, List.singleton_append]
        have hget : (lay (formulas ++ [f]) ts).2[formulas.length]? = some f := by
          obtain ⟨more, hmore⟩ := prefix_lay (formulas ++ [f]) ts
          rw [← hmore]
          simp
        have hmarker := brandAt_marker prev formulas.length (lay (formulas ++ [f]) ts).1
        rw [show marker formulas.length = brand (Nat.toDigits 10 formulas.length) from rfl,
          tokens_of_some brandAt_consumes hmarker, List.map_cons, ih hrest]
        simp only [render, Nat.ofDigitChars_ten_toDigits, hget]

/-- A text is its parts, one behind the other; and of what `protectMath` makes of it, the
plugin shows each part as it is, a formula by its own source. -/
theorem plugin_protectMath (src : List Char) :
    (parts src).flatMap (text Match.whole) = unmarked src ∧
    mathPlugin (protectMath src).formulas (protectMath src).text = (parts src).flatMap shown := by
  have hparts : (parts src).flatMap (text Match.whole) = unmarked src := flatMap_tokens matchAt_consumes _ _
  refine ⟨hparts, render_lay (fun x hx hstart => ?_) [] none⟩
  have hmem : START ∈ unmarked src := hparts ▸ List.mem_flatMap.2 ⟨x, hx, hstart⟩
  simp [unmarked] at hmem

end Portal.Maths
