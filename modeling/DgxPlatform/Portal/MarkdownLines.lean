import DgxPlatform.Portal.MemoryMarkdown

/-! # The lines of an export, read back

`export_markdown` writes a few kinds of lines: a heading for each subject, a line of its
aliases, a bullet for each fact. What `md_parse` makes of each kind is here, line by line:
when it is what was written, and what it can be at all otherwise.
-/

namespace Portal.Memory

open Accounts (pyIsSpace pyStrip)
open Rx
open Text (isWhitespace)

variable {L : Text.Lowercase} {digit : Char → Bool} {s t : List Char} {st : MdState}

/-! ## Texts of one line -/

/-- No boundary of `py_splitlines`. -/
def OneLine (t : List Char) : Prop := ∀ c ∈ t, isLineEnd c = false

instance (t : List Char) : Decidable (OneLine t) :=
  List.decidableBAll (fun c => isLineEnd c = false) t

theorem OneLine.mono (h : OneLine t) (hs : s ⊆ t) : OneLine s := fun c hc => h c (hs hc)

@[simp] theorem oneLine_append : OneLine (s ++ t) ↔ OneLine s ∧ OneLine t := List.forall_mem_append

@[simp] theorem oneLine_cons {c : Char} : OneLine (c :: t) ↔ isLineEnd c = false ∧ OneLine t :=
  List.forall_mem_cons

@[simp] theorem oneLine_nil : OneLine [] := nofun

theorem oneLine_generic : OneLine memGenericRelation := by decide

theorem dot_of_oneLine (h : OneLine t) : ∀ c ∈ t, dot c = true := by
  intro c hc
  have hne : c ≠ '\n' := by
    rintro rfl
    exact absurd (h _ hc) (by decide)
  simpa [dot] using hne

variable {c : Char}

theorem pyIsSpace_of_isWhitespace (h : isWhitespace c = true) : pyIsSpace c = true := by
  simp [pyIsSpace, h]

theorem isWhitespace_blank : ∀ c ∈ [' '], isWhitespace c = true :=
  List.forall_mem_singleton.2 (by decide)

theorem isWhitespace_of_pyIsSpace (h : pyIsSpace c = false) : isWhitespace c = false :=
  Bool.eq_false_iff.2 fun hw => by rw [pyIsSpace_of_isWhitespace hw] at h; cases h

/-- What `py_strip` leaves of a text that is not blank. -/
structure Stripped (t : List Char) : Prop where
  strip : pyStrip t = t
  ne : t ≠ []

theorem Stripped.last (h : Stripped (t ++ [c])) : pyIsSpace c = false :=
  (Text.trimMatches_eq_self_iff.1 h.strip).2 c (by simp)

theorem Stripped.before (h : Stripped t) : ∀ c ∈ t.head?, isWhitespace c = false := fun c hc =>
  isWhitespace_of_pyIsSpace ((Text.trimMatches_eq_self_iff.1 h.strip).1 c hc)

/-- The white space at the end of a line is none behind a stripped text. -/
theorem trimEnd_append (h : Stripped t) : Text.trimEndMatches pyIsSpace (s ++ t) = s ++ t := by
  obtain ⟨a, c, rfl⟩ := (List.eq_nil_or_concat t).resolve_left h.ne
  rw [List.concat_eq_append] at h ⊢
  rw [← List.append_assoc, Text.trimEndMatches_append_cons h.last]
  rfl

/-! ## The first character of a line -/

theorem pyStrip_ne_nil (hc : c ∈ t) (hs : pyIsSpace c = false) : pyStrip t ≠ [] := by
  intro hnil
  obtain ⟨a, b, ht, ha, hb⟩ := Text.exists_trimMatches pyIsSpace t
  have hall : t = a ++ b := by
    rw [show Text.trimMatches pyIsSpace t = [] from hnil, List.append_nil] at ht
    exact ht
  rw [hall] at hc
  have hblank : pyIsSpace c = true := (List.mem_append.1 hc).elim (ha c) (hb c)
  rw [hs] at hblank
  cases hblank

variable {r : MdRx}

theorem captures_eq_none (h : r.first t = none) : captures r t = none := by
  rw [captures, h, Option.map_none]

theorem captures_heading_none (hw : isWhitespace c = false) (hc : c ≠ '#') :
    captures HEADING (c :: t) = none := by
  refine captures_eq_none ?_
  show (seq (many isWhitespace) _).first (c :: t) = none
  rw [many, first_skip hw]
  exact first_stuck (by simpa [isChar] using hc)

theorem captures_boldLine_none (hw : isWhitespace c = false) (hc : c ≠ '*') :
    captures BOLD_LINE (c :: t) = none := by
  refine captures_eq_none ?_
  show (seq (many isWhitespace) (seq (one fun d => decide (d = '*')) _)).first (c :: t) = none
  rw [many, first_skip hw, first_one_cons, if_neg (by simpa using hc)]

theorem captures_italicLine_none (hw : isWhitespace c = false) (hc : c ≠ '*') :
    captures ITALIC_LINE (c :: t) = none := by
  refine captures_eq_none ?_
  show (seq (many isWhitespace) (seq (one _) _)).first (c :: t) = none
  rw [many, first_skip hw, first_one_cons, if_neg (by simpa [isChar] using hc)]

theorem captures_alias_dash : captures ALIAS ('-' :: t) = none := by
  refine captures_eq_none ?_
  show (seq (many isWhitespace) (seq (opt (isChar '_')) (seq (one (foldedChar 'a')) _))).first
    ('-' :: t) = none
  rw [many, first_skip (by decide), opt, first_skip (by decide), first_one_cons,
    if_neg (by decide)]

theorem mdLine_text (hspace : pyIsSpace c = false) (hash : c ≠ '#') (star : c ≠ '*') :
    mdLine L digit st (c :: t) = mdText digit st (c :: Text.trimEndMatches pyIsSpace t) := by
  have htrim : Text.trimEndMatches pyIsSpace (c :: t) = c :: Text.trimEndMatches pyIsSpace t :=
    Text.trimEndMatches_append_cons (a := []) hspace
  have hw := isWhitespace_of_pyIsSpace hspace
  unfold mdLine
  rw [htrim]
  dsimp only
  rw [if_neg (pyStrip_ne_nil List.mem_cons_self hspace), captures_heading_none hw hash]
  simp only [mdTitle, captures_boldLine_none hw star, captures_italicLine_none hw star]

theorem mdText_none (h : st.cur = none) : mdText digit st t = st := by
  unfold mdText
  rw [h]
  split
  · next heq => simp at heq
  · split
    · simp
    · rfl

theorem mdLine_nil : mdLine L digit st [] = st := rfl

/-! ## Headings -/

/-- The end of `HEADING`, behind the title. -/
def headingEnd : MdRx := seqs [many isWhitespace, many (isChar '#'), many isWhitespace, .eot]

/-- `HEADING` behind the white space that follows the marks. -/
def headingTitle : MdRx := seq (chars (some .title) dot 0 none true) headingEnd

theorem first_headingEnd_nil : (headingEnd.first []).isSome = true := by decide

theorem first_headingEnd_hash : (headingEnd.first ['#']).isSome = true := by decide

variable {m : Found Char MdGroup}

theorem of_first_headingEnd (h : headingEnd.first t = some m) : ∀ c ∈ t, isWhitespace c = true ∨ c = '#' := by
  obtain ⟨a, t₁, m₁, rfl, ha, -, h₁, -⟩ := exists_of_first h
  obtain ⟨b, t₂, m₂, rfl, hb, -, h₂, -⟩ := exists_of_first h₁
  obtain ⟨d, t₃, m₃, rfl, hd, -, h₃, -⟩ := exists_of_first h₂
  obtain rfl : t₃ = [] := by
    cases t₃ with
    | nil => rfl
    | cons c t₃ => cases h₃
  intro c hc
  rcases List.mem_append.1 hc with hc | hc
  · exact .inl (ha c hc)
  rcases List.mem_append.1 hc with hc | hc
  · exact .inr (by simpa [isChar] using hb c hc)
  · rw [List.append_nil] at hc
    exact .inl (hd c hc)

/-- The title of a stripped text: the text itself, unless a mark closes it. -/
theorem first_headingTitle (hs : Stripped s) (h1 : OneLine s) :
    ∃ x, ∃ m : Found Char MdGroup, headingTitle.first s = some ⟨(.title, x) :: m.caps, m.rest⟩ ∧
      x <+: s ∧ (x = s ↔ s.getLast? ≠ some '#') := by
  have hdot := dot_of_oneLine h1
  have hsome : (headingTitle.first (s ++ [])).isSome = true :=
    first_seq_isSome hdot (fits_any s) first_headingEnd_nil
  rw [List.append_nil] at hsome
  obtain ⟨m, hm⟩ := Option.isSome_iff_exists.1 hsome
  obtain ⟨a, c, rfl⟩ := (List.eq_nil_or_concat s).resolve_left hs.ne
  rw [List.concat_eq_append] at *
  by_cases hc : c = '#'
  · -- the mark is left to the end of the expression
    subst hc
    obtain ⟨x, y, m', hxy, -, rfl, hle⟩ := length_le_of_first_lazy hm rfl
      (fun d hd => hdot d (List.mem_append_left _ hd)) (fits_any a) first_headingEnd_hash
    refine ⟨x, m', hm, ⟨y, hxy.symm⟩, iff_of_false ?_ (by simp)⟩
    rintro rfl
    rw [List.length_append, List.length_singleton] at hle
    omega
  · obtain ⟨x, y, m', hxy, -, hend, hm', rfl⟩ := exists_of_first hm
    have hy : y = [] := by
      rcases List.eq_nil_or_concat y with rfl | ⟨y, d, rfl⟩
      · rfl
      · rw [List.concat_eq_append, ← List.append_assoc] at hxy
        obtain ⟨-, hcd⟩ := List.append_inj' hxy rfl
        cases hcd
        have hspace := isWhitespace_of_pyIsSpace hs.last
        rcases of_first_headingEnd hm' c (by simp) with h | h
        · rw [hspace] at h
          cases h
        · exact absurd h hc
    rw [hy, List.append_nil] at hxy
    exact ⟨x, m', hm, ⟨[], by rw [hxy, List.append_nil]⟩, iff_of_true hxy.symm (by simpa using hc)⟩

theorem captures_heading {marks : List Char} (hmarks : ∀ c ∈ marks, c = '#') (hne : marks ≠ [])
    (hfew : marks.length ≤ 6) (hs : Stripped s) (h1 : OneLine s) :
    ∃ x caps, captures HEADING (marks ++ ' ' :: s) = some ((.level, marks) :: (.title, x) :: caps) ∧
      x <+: s ∧ (x = s ↔ s.getLast? ≠ some '#') := by
  obtain ⟨x, m, hm, hpre, hiff⟩ := first_headingTitle hs h1
  have hspace : (seq (many1 isWhitespace) headingTitle).first ([' '] ++ s) =
      some ⟨(.title, x) :: m.caps, m.rest⟩ :=
    first_greedy isWhitespace_blank (by decide) hs.before hm
  have hlevel : (seq (chars (some .level) (isChar '#') 1 (some 6) false)
      (seq (many1 isWhitespace) headingTitle)).first (marks ++ ' ' :: s) =
        some ⟨(.level, marks) :: (.title, x) :: m.caps, m.rest⟩ := by
    refine first_greedy (fun c hc => by simp [isChar, hmarks c hc]) ?_ (by simp [isChar]) hspace
    have hpos := List.length_pos_iff.2 hne
    simp only [fits, Option.all_some, Bool.and_eq_true, decide_eq_true_eq]
    omega
  refine ⟨x, m.caps, ?_, hpre, hiff⟩
  obtain ⟨c, marks, rfl⟩ := List.exists_cons_of_ne_nil hne
  obtain rfl : c = '#' := hmarks c List.mem_cons_self
  show (((seq (many isWhitespace) _).first ('#' :: (marks ++ ' ' :: s))).map Found.caps) = _
  rw [many, first_skip (by decide)]
  show (((seq (chars (some .level) (isChar '#') 1 (some 6) false)
      (seq (many1 isWhitespace) headingTitle)).first _).map Found.caps) = _
  rw [show '#' :: (marks ++ ' ' :: s) = ('#' :: marks) ++ ' ' :: s from rfl, hlevel]
  rfl

variable {caps : List (MdGroup × List Char)}

theorem mdLine_heading {marks x : List Char} (hs : Stripped s)
    (hcaps : captures HEADING (marks ++ ' ' :: s) = some ((.level, marks) :: (.title, x) :: caps)) :
    mdLine L digit st (marks ++ ' ' :: s) =
      if pyStrip x = [] ∨ marks.length = 1 then st
      else { st with
        cur := if L.lower (pyStrip x) = "sujets sans fait".toList then none else some (pyStrip x) } := by
  have htrim : Text.trimEndMatches pyIsSpace (marks ++ ' ' :: s) = marks ++ ' ' :: s := by
    rw [List.append_cons]
    exact trimEnd_append hs
  obtain ⟨a, c, rfl⟩ := (List.eq_nil_or_concat s).resolve_left hs.ne
  rw [List.concat_eq_append] at *
  unfold mdLine
  rw [htrim]
  dsimp only
  rw [if_neg (pyStrip_ne_nil (List.mem_append_right _ (by simp)) hs.last), hcaps]
  rfl

theorem mdLine_top (hs : Stripped s) (h1 : OneLine s) : mdLine L digit st ('#' :: ' ' :: s) = st := by
  obtain ⟨x, caps, hcaps, -, -⟩ :=
    @captures_heading s ['#'] (by simp) (by simp) (by simp) hs h1
  have hline := @mdLine_heading L digit s st _ _ _ hs hcaps
  rwa [if_pos (.inr rfl)] at hline

/-- A heading of a subject: the subject is the current one, except when a mark closes it or
it is the title of the last section. -/
theorem mdLine_subject (L : Text.Lowercase) (digit : Char → Bool) (st : MdState) (hs : Stripped s)
    (h1 : OneLine s) :
    ∃ c, mdLine L digit st ("## ".toList ++ s) = { st with cur := c } ∧
      (s.getLast? ≠ some '#' → L.lower s ≠ "sujets sans fait".toList → c = some s) ∧
      (c = some s → st.cur = some s ∨
        s.getLast? ≠ some '#' ∧ L.lower s ≠ "sujets sans fait".toList) ∧
      (c = some [] → st.cur = some []) := by
  obtain ⟨x, caps, hcaps, hpre, hx⟩ :=
    @captures_heading s ['#', '#'] (by simp) (by simp) (by simp) hs h1
  have hline : mdLine L digit st ("## ".toList ++ s) = _ := mdLine_heading hs hcaps
  have htitle : pyStrip x = s ↔ s.getLast? ≠ some '#' := by
    rw [← hx]
    constructor
    · intro h
      refine hpre.eq_of_length_le ?_
      rw [← h]
      exact length_pyStrip_le x
    · rintro rfl
      exact hs.strip
  rw [hline]
  by_cases hnil : pyStrip x = []
  · refine ⟨st.cur, by rw [if_pos (.inl hnil)], ?_, .inl, id⟩
    intro hlast _
    exact absurd (htitle.2 hlast ▸ hnil) hs.ne
  · refine ⟨_, if_neg (by simp [hnil]), ?_, ?_, ?_⟩
    · intro hlast hlower
      rw [htitle.2 hlast, if_neg hlower]
    · intro h
      split at h
      · cases h
      · next hlower =>
          have heq := Option.some.inj h
          rw [heq] at hlower
          exact .inr ⟨htitle.1 heq, hlower⟩
    · intro h
      split at h
      · cases h
      · exact absurd (Option.some.inj h) hnil

/-! ## Bullets -/

theorem captures_bullet (hs : Stripped s) (h1 : OneLine s) :
    captures (BULLET digit) ('-' :: ' ' :: s) = some [(.content, s)] := by
  have hcontent : (seq (chars (some MdGroup.content) dot 0 none false) .eot).first s =
      some ⟨[(.content, s)], []⟩ :=
    first_greedy_all (dot_of_oneLine h1) (fits_any s) first_eot_nil
  have hspace : (seq (many1 isWhitespace)
      (seq (chars (some MdGroup.content) dot 0 none false) .eot)).first ([' '] ++ s) =
        some ⟨[(.content, s)], []⟩ :=
    first_greedy isWhitespace_blank (by decide) hs.before hcontent
  show ((seq (many isWhitespace) (seq (.alt (one (anyOf ['-', '*', '+'])) _) _)).first
    ('-' :: ([' '] ++ s))).map Found.caps = _
  rw [many, first_skip (by decide), first_seq_alt, first_one_cons, if_pos (by decide)]
  show (((seq (many1 isWhitespace)
    (seq (chars (some MdGroup.content) dot 0 none false) .eot)).first ([' '] ++ s)).or _).map _ = _
  rw [hspace]
  rfl

/-- What stands in the bullet of a fact. -/
def bulletText (relation object fact : List Char) : List Char :=
  '*' :: '*' :: (relation ++ '*' :: '*' :: ((if object = [] then [] else ' ' :: object) ++
    ' ' :: ':' :: ' ' :: fact))

theorem factLine_eq (relation object fact : List Char) : factLine relation object fact =
      '-' :: ' ' :: bulletText (if relation = [] then memGenericRelation else relation) object fact := by
  unfold factLine bulletText
  by_cases ho : object = [] <;> simp [ho]

/-- `STRUCT` behind the object. -/
def structEnd : MdRx :=
  seqs [many isWhitespace, one (isChar ':'), many isWhitespace,
    chars (some .fact) dot 1 none false, .eot]

/-- `STRUCT` behind the relation. -/
def structObject : MdRx :=
  seq (.alt (seq (many1 isWhitespace) (chars (some .obj) (fun c => !isChar ':' c) 1 none true)) .nothing)
    structEnd

section
variable {relation object fact : List Char}

theorem first_structEnd (hf : Stripped fact) (h1 : OneLine fact) :
    structEnd.first (' ' :: ':' :: ' ' :: fact) = some ⟨[(.fact, fact)], []⟩ := by
  have hfact : (seq (chars (some MdGroup.fact) dot 1 none false) .eot).first fact =
      some ⟨[(.fact, fact)], []⟩ :=
    first_greedy_all (dot_of_oneLine h1) (fits_of_ne hf.ne) first_eot_nil
  have hspace : (seq (many isWhitespace)
      (seq (chars (some MdGroup.fact) dot 1 none false) .eot)).first ([' '] ++ fact) =
        some ⟨[(.fact, fact)], []⟩ :=
    first_greedy isWhitespace_blank (by decide) hf.before hfact
  have hcolon : (seq (one (isChar ':')) (seq (many isWhitespace)
      (seq (chars (some MdGroup.fact) dot 1 none false) .eot))).first (':' :: ([' '] ++ fact)) =
        some ⟨[(.fact, fact)], []⟩ := by
    rw [first_one_cons, if_pos (by decide), hspace]
  have hbefore : ∀ c ∈ (':' :: ([' '] ++ fact)).head?, isWhitespace c = false := by
    rintro c ⟨⟩
    decide
  exact first_greedy isWhitespace_blank (by decide) hbefore hcolon

theorem of_first_structEnd {m : Found Char MdGroup} (h : structEnd.first t = some m) :
    ∃ a b, t = a ++ ':' :: b ∧ ∀ c ∈ a, isWhitespace c = true := by
  obtain ⟨a, t₁, m₁, rfl, ha, -, h₁, -⟩ := exists_of_first h
  obtain ⟨c, b, rfl, hc, -⟩ := of_first_one h₁
  obtain rfl : c = ':' := by simpa [isChar] using hc
  exact ⟨a, b, rfl, ha⟩

theorem first_structObject_nil (hf : Stripped fact) (h1 : OneLine fact) :
    structObject.first (' ' :: ':' :: ' ' :: fact) = some ⟨[(.fact, fact)], []⟩ := by
  have hnone : (seq (many1 isWhitespace) (seq (chars (some MdGroup.obj) (fun c => !isChar ':' c) 1
      none true) structEnd)).first (' ' :: ':' :: ' ' :: fact) = none := by
    by_contra hsome
    obtain ⟨m, hm⟩ := Option.ne_none_iff_exists'.1 hsome
    obtain ⟨a, b, m₁, hab, ha, hfit, h₁, -⟩ := exists_of_first hm
    obtain ⟨o, b', m₂, rfl, ho, hfit', -, -⟩ := exists_of_first h₁
    -- behind the one space stands the colon, which is in neither class
    cases a with
    | nil => cases hfit
    | cons d a =>
      have htail := (List.cons.inj hab).2
      cases a with
      | cons e a =>
        obtain ⟨rfl, -⟩ := List.cons.inj htail
        exact absurd (ha ':' (by simp)) (by decide)
      | nil =>
        cases o with
        | nil => cases hfit'
        | cons e o =>
          obtain ⟨rfl, -⟩ := List.cons.inj htail
          exact absurd (ho ':' List.mem_cons_self) (by decide)
  unfold structObject
  rw [first_seq_alt, first_seq_assoc, hnone, Option.none_or, first_seq_nothing, first_structEnd hf h1]

theorem first_structObject (ho : Stripped object) (hcolon : ':' ∉ object) (hf : Stripped fact)
    (h1 : OneLine fact) :
    structObject.first (' ' :: (object ++ ' ' :: ':' :: ' ' :: fact)) =
      some ⟨[(.obj, object), (.fact, fact)], []⟩ := by
  have hobj : (seq (chars (some MdGroup.obj) (fun c => !isChar ':' c) 1 none true) structEnd).first
      (object ++ ' ' :: ':' :: ' ' :: fact) = some ⟨[(.obj, object), (.fact, fact)], []⟩ := by
    refine first_lazy ?_ ?_ (first_structEnd hf h1) ?_
    · intro c hc
      have hne : c ≠ ':' := by
        rintro rfl
        exact hcolon hc
      simpa [isChar] using hne
    · exact fits_of_ne ho.ne
    · -- an end of the object would be white space up to a colon
      rintro x y rfl hy -
      by_contra hsome
      obtain ⟨m, hm⟩ := Option.ne_none_iff_exists'.1 hsome
      obtain ⟨a, b, hab, ha⟩ := of_first_structEnd hm
      obtain ⟨y, c, rfl⟩ := (List.eq_nil_or_concat y).resolve_left hy
      rw [List.concat_eq_append] at *
      have hlast : isWhitespace c = false := by
        refine isWhitespace_of_pyIsSpace (Stripped.last (t := x ++ y) ?_)
        rwa [List.append_assoc]
      rcases List.append_eq_append_iff.1 hab with ⟨e, rfl, -⟩ | ⟨e, hye, hrest⟩
      · rw [ha c (by simp)] at hlast
        cases hlast
      · cases e with
        | nil =>
          rw [List.append_nil] at hye
          rw [ha c (by simp [← hye])] at hlast
          cases hlast
        | cons d e =>
          obtain ⟨rfl, -⟩ := List.cons.inj hrest
          exact hcolon (by simp [hye])
  have hspace : (seq (many1 isWhitespace) (seq (chars (some MdGroup.obj) (fun c => !isChar ':' c) 1
      none true) structEnd)).first ([' '] ++ (object ++ ' ' :: ':' :: ' ' :: fact)) =
        some ⟨[(.obj, object), (.fact, fact)], []⟩ := by
    refine first_greedy isWhitespace_blank (by decide) ?_ hobj
    intro c hc
    obtain ⟨d, object, rfl⟩ := List.exists_cons_of_ne_nil ho.ne
    exact ho.before c hc
  unfold structObject
  rw [first_seq_alt, first_seq_assoc, show ∀ u : List Char, ' ' :: u = [' '] ++ u from fun _ => rfl,
    hspace]
  rfl

/-- Behind the relation: the object, if there is one, and the fact. -/
def objectCaps (object fact : List Char) : List (MdGroup × List Char) :=
  (if object = [] then [] else [(.obj, object)]) ++ [(.fact, fact)]

theorem first_struct {m : Found Char MdGroup} (hr : relation ≠ []) (hstar : '*' ∉ relation)
    (h : structObject.first t = some m) :
    captures STRUCT ('*' :: '*' :: (relation ++ '*' :: '*' :: t)) = some ((.rel, relation) :: m.caps) := by
  have hmark : ∀ (r : MdRx) (u : List Char),
      (seq (one fun c => decide (c = '*')) r).first ('*' :: u) = r.first u := by
    intro r u
    rw [first_one_cons, if_pos (by decide)]
  have hrel : (seq (chars (some .rel) (fun c => !isChar '*' c) 1 none false)
      (seq (one fun c => decide (c = '*')) (seq (one fun c => decide (c = '*')) structObject))).first
        (relation ++ '*' :: '*' :: t) = some ⟨(.rel, relation) :: m.caps, m.rest⟩ := by
    refine first_greedy ?_ (fits_of_ne hr) ?_ ((hmark _ _).trans ((hmark _ _).trans h))
    · intro c hc
      have hne : c ≠ '*' := by
        rintro rfl
        exact hstar hc
      simpa [isChar] using hne
    · rintro c ⟨⟩
      decide
  show (STRUCT.first _).map _ = _
  rw [show STRUCT.first ('*' :: '*' :: (relation ++ '*' :: '*' :: t)) = _ from
    (hmark _ _).trans ((hmark _ _).trans hrel)]
  rfl

theorem captures_struct (hr : relation ≠ []) (hstar : '*' ∉ relation)
    (ho : object = [] ∨ Stripped object) (hcolon : ':' ∉ object) (hf : Stripped fact)
    (h1 : OneLine fact) :
    captures STRUCT (bulletText relation object fact) =
      some ((.rel, relation) :: objectCaps object fact) := by
  rcases ho with rfl | ho
  · exact first_struct hr hstar (first_structObject_nil hf h1)
  · have hobj := first_struct hr hstar (first_structObject ho hcolon hf h1)
    simpa [bulletText, objectCaps, ho.ne] using hobj

/-- A bullet of a fact without a mark that the reader takes for another one. -/
theorem mdBullet_bulletText (subject : List Char) (hr : Stripped relation) (hstar : '*' ∉ relation)
    (ho : object = [] ∨ Stripped object) (hcolon : ':' ∉ object) (hf : Stripped fact)
    (h1 : OneLine fact) :
    mdBullet subject (bulletText relation object fact) =
      ⟨subject, relation, if object = [] then none else some object, stripInline fact⟩ := by
  have hcaps := captures_struct hr.ne hstar ho hcolon hf h1
  unfold mdBullet
  rw [hcaps]
  have hrel : capText .rel ((.rel, relation) :: objectCaps object fact) = relation := rfl
  have hfact : capText .fact ((.rel, relation) :: objectCaps object fact) = fact := by
    unfold objectCaps
    split <;> rfl
  have hobj : ((.rel, relation) :: objectCaps object fact).lookup MdGroup.obj =
      if object = [] then none else some object := by
    unfold objectCaps
    split <;> rfl
  simp only [hrel, hfact, hobj, hr.strip, hf.strip, if_neg hr.ne]
  rcases ho with rfl | ho
  · rfl
  · simp [ho.ne, ho.strip]

end

/-! ## The line of aliases -/

/-- The end of `ALIAS`, behind the alias. -/
def aliasEnd : MdRx := seqs [many isWhitespace, opt (isChar '_'), many isWhitespace, .eot]

/-- `ALIAS` behind the white space that follows the colon. -/
def aliasText : MdRx := seq (chars (some .alias) dot 1 none true) aliasEnd

theorem of_first_aliasEnd (h : aliasEnd.first (t ++ ['_']) = some m) : ∀ c ∈ t, isWhitespace c = true := by
  obtain ⟨a, t₁, m₁, ht, ha, -, h₁, -⟩ := exists_of_first h
  obtain ⟨b, t₂, m₂, rfl, hb, hfit, h₂, -⟩ := exists_of_first h₁
  obtain ⟨d, t₃, m₃, rfl, hd, -, h₃, -⟩ := exists_of_first h₂
  obtain rfl : t₃ = [] := by
    cases t₃ with
    | nil => rfl
    | cons c t₃ => cases h₃
  have hmark : isWhitespace '_' = false := by decide
  -- the mark is at the end, so nothing is behind the optional one
  have hd' : d = [] := by
    rcases List.eq_nil_or_concat d with rfl | ⟨d, c, rfl⟩
    · rfl
    · rw [List.concat_eq_append, List.append_nil, ← List.append_assoc, ← List.append_assoc] at ht
      cases (List.append_inj' ht rfl).2
      rw [hd '_' (by simp)] at hmark
      cases hmark
  rw [hd', List.append_nil, List.append_nil] at ht
  have hb' : b = ['_'] := by
    match b, hfit with
    | [], _ =>
      rw [List.append_nil] at ht
      rw [ha '_' (by rw [← ht]; simp)] at hmark
      cases hmark
    | [c], _ =>
      have hc : c = '_' := by simpa [isChar] using hb
      rw [hc]
  rw [hb'] at ht
  rw [List.append_cancel_right ht]
  exact ha

theorem first_aliasText (hne : t ≠ []) (h1 : OneLine t) : ∃ x, ∃ m : Found Char MdGroup,
      aliasText.first (t ++ ['_']) = some ⟨(.alias, x) :: m.caps, m.rest⟩ ∧ (Stripped t → x = t) := by
  have hsome : (aliasText.first (t ++ ['_'])).isSome = true :=
    first_seq_isSome (dot_of_oneLine h1) (fits_of_ne hne) (by decide)
  obtain ⟨m, hm⟩ := Option.isSome_iff_exists.1 hsome
  obtain ⟨x, y, m', hxy, hend, rfl, hle⟩ := length_le_of_first_lazy hm rfl (dot_of_oneLine h1)
    (fits_of_ne hne) (by decide)
  refine ⟨x, m', hm, fun hs => ?_⟩
  -- what is left of the text before the mark would be white space
  obtain ⟨z, rfl⟩ : x <+: t :=
    List.prefix_of_prefix_length_le ⟨y, hxy.symm⟩ (List.prefix_append t ['_']) hle
  rw [List.append_assoc] at hxy
  rw [← List.append_cancel_left hxy] at hend
  rcases List.eq_nil_or_concat z with rfl | ⟨z, c, rfl⟩
  · rw [List.append_nil]
  · rw [List.concat_eq_append, ← List.append_assoc] at hs
    have hlast := isWhitespace_of_pyIsSpace hs.last
    rw [of_first_aliasEnd hend c (by simp)] at hlast
    cases hlast

theorem captures_aliasLine (hne : t ≠ []) (h1 : OneLine t) (hbefore : ∀ c ∈ t.head?, isWhitespace c = false) :
    ∃ x caps, captures ALIAS ("_alias : ".toList ++ t ++ "_".toList) = some ((.alias, x) :: caps) ∧
      (Stripped t → x = t) := by
  obtain ⟨x, m, hm, hx⟩ := first_aliasText hne h1
  refine ⟨x, m.caps, ?_, hx⟩
  have hspace : (seq (many isWhitespace) aliasText).first ([' '] ++ (t ++ ['_'])) =
      some ⟨(.alias, x) :: m.caps, m.rest⟩ := by
    refine first_greedy isWhitespace_blank (by decide) ?_ hm
    obtain ⟨c, t, rfl⟩ := List.exists_cons_of_ne_nil hne
    exact hbefore
  have hcolon : (seq (many isWhitespace) (seq (one (isChar ':')) (seq (many isWhitespace) aliasText))).first
      ([' '] ++ ':' :: ([' '] ++ (t ++ ['_']))) = some ⟨(.alias, x) :: m.caps, m.rest⟩ := by
    have hrest : (seq (one (isChar ':')) (seq (many isWhitespace) aliasText)).first
        (':' :: ([' '] ++ (t ++ ['_']))) = some ⟨(.alias, x) :: m.caps, m.rest⟩ := by
      rw [first_one_cons, if_pos (by decide), hspace]
    refine first_greedy isWhitespace_blank (by decide) ?_ hrest
    rintro c ⟨⟩
    decide
  have hword : (seq (one (foldedChar 'a')) (seq (one (foldedChar 'l')) (seq (one (foldedChar 'i'))
      (seq (one (foldedChar 'a')) (seq (one (foldedChar 's')) (seq (many isWhitespace)
        (seq (one (isChar ':')) (seq (many isWhitespace) aliasText)))))))).first
      ('a' :: 'l' :: 'i' :: 'a' :: 's' :: ([' '] ++ ':' :: ([' '] ++ (t ++ ['_'])))) =
        some ⟨(.alias, x) :: m.caps, m.rest⟩ := by
    iterate 5 rw [first_one_cons, if_pos (by decide)]
    exact hcolon
  have hmark : ALIAS.first ('_' :: ('a' :: 'l' :: 'i' :: 'a' :: 's' ::
      ([' '] ++ ':' :: ([' '] ++ (t ++ ['_']))))) = some ⟨(.alias, x) :: m.caps, m.rest⟩ := by
    show (seq (many isWhitespace) _).first _ = _
    rw [many, first_skip (by decide)]
    refine first_greedy (List.forall_mem_singleton.2 (by decide)) (by decide) ?_ hword
    rintro c ⟨⟩
    decide
  show (ALIAS.first _).map _ = _
  rw [show "_alias : ".toList ++ t ++ "_".toList = '_' :: ('a' :: 'l' :: 'i' :: 'a' :: 's' ::
    ([' '] ++ ':' :: ([' '] ++ (t ++ ['_'])))) by simp, hmark]
  rfl

theorem mdLine_alias (hne : t ≠ []) (h1 : OneLine t)
    (hbefore : ∀ c ∈ t.head?, isWhitespace c = false) (hcur : st.cur ≠ some []) :
    ∃ x, mdLine L digit st ("_alias : ".toList ++ t ++ "_".toList) =
        { st with aliases := st.aliases ++ st.cur.toList.map fun s => (s, pyStrip x) } ∧
      (Stripped t → x = t) := by
  obtain ⟨x, caps, hcaps, hx⟩ := captures_aliasLine hne h1 hbefore
  refine ⟨x, ?_, hx⟩
  have hstrip : Stripped ['_'] := ⟨by decide, by decide⟩
  have htrim := trimEnd_append (s := "alias : ".toList ++ t) hstrip
  have hline : mdLine L digit st ("_alias : ".toList ++ t ++ "_".toList) =
      mdText digit st ("_alias : ".toList ++ t ++ "_".toList) := by
    calc mdLine L digit st ("_alias : ".toList ++ t ++ "_".toList)
        = mdLine L digit st ('_' :: ("alias : ".toList ++ t ++ ['_'])) := rfl
      _ = mdText digit st ('_' :: ("alias : ".toList ++ t ++ ['_'])) := by
          rw [mdLine_text (by decide) (by decide) (by decide), htrim]
      _ = mdText digit st ("_alias : ".toList ++ t ++ "_".toList) := rfl
  rw [hline]
  cases hs : st.cur with
  | none =>
    rw [mdText_none hs, Option.toList_none, List.map_nil, List.append_nil, ← hs]
  | some subject =>
    have hnil : subject ≠ [] := by
      rintro rfl
      exact hcur hs
    unfold mdText
    simp only [hcaps, hs, Option.filter_some, hnil, ne_eq, not_false_eq_true, decide_true, if_true]
    rfl

/-! ## What is read is made of the text -/

theorem pyStrip_subset (t : List Char) : pyStrip t ⊆ t :=
  List.Subset.trans (Text.trimEndMatches_isPrefix _ _).subset (List.dropWhile_suffix _).subset

theorem mem_of_lookup {n : MdGroup} {x : List Char} (h : caps.lookup n = some x) : (n, x) ∈ caps := by
  obtain ⟨l₁, l₂, rfl, -⟩ := List.lookup_eq_some_iff.1 h
  exact List.mem_append_right _ List.mem_cons_self

theorem exists_of_captures (h : captures r t = some caps) : ∃ m ∈ r.found t, m.caps = caps := by
  obtain ⟨m, hm, rfl⟩ := Option.map_eq_some_iff.1 h
  exact ⟨m, mem_found_of_first hm, rfl⟩

theorem lookup_subset {n : MdGroup} {x : List Char}
    (h : captures r t = some caps) (hx : caps.lookup n = some x) : x ⊆ t := by
  obtain ⟨m, hm, rfl⟩ := exists_of_captures h
  exact ((infix_of_found hm).2 _ (mem_of_lookup hx)).subset

theorem capText_subset (n : MdGroup) (h : captures r t = some caps) : capText n caps ⊆ t := by
  unfold capText
  cases hx : caps.lookup n with
  | none => exact List.nil_subset t
  | some x => exact lookup_subset h hx

theorem lookup_class {q : Char → Prop} {n : MdGroup}
    {x : List Char} (hr : Keeps n q r) (h : captures r t = some caps) (hx : caps.lookup n = some x) :
    ∀ c ∈ x, q c := by
  obtain ⟨m, hm, rfl⟩ := exists_of_captures h
  exact of_mem_found hr hm x (mem_of_lookup hx)

theorem stripInline_subset (t : List Char) : stripInline t ⊆ t := by
  intro c hc
  refine mem_of_replaceAll (fun u m hm d hd => ?_) hc
  have hcaps : captures BOLD_INLINE u = some m.caps := by rw [captures, hm, Option.map_some]
  exact capText_subset .t hcaps hd

theorem mem_joinParts {ps : List (List Char)} {buf x : List Char}
    (hx : x ∈ joinParts buf ps) (hc : c ∈ x) : c = ' ' ∨ c ∈ buf ∨ ∃ p ∈ ps, c ∈ p := by
  fun_induction joinParts buf ps with
  | case1 => cases hx
  | case2 => grind
  | case3 buf p ps p' hnil ih => grind
  | case4 buf p ps p' hne hshort ih =>
    have hjoined : pyStrip (buf ++ ' ' :: p') ⊆ buf ++ ' ' :: p' := pyStrip_subset _
    have hp : p' ⊆ p := pyStrip_subset p
    rcases ih hx with h | h | ⟨q, hq, h⟩
    · exact .inl h
    · grind
    · exact .inr (.inr ⟨q, List.mem_cons_of_mem p hq, h⟩)
  | case5 buf p ps p' hne hlong ih =>
    have hp : p' ⊆ p := pyStrip_subset p
    grind

theorem mem_sentenceParts {part x : List Char} {gap : Option (List Char)}
    (hx : x ∈ sentenceParts part gap t) (hc : c ∈ x) : c ∈ part ∨ c ∈ gap.getD [] ∨ c ∈ t := by
  fun_induction sentenceParts part gap t <;> grind

theorem oneLine_splitSentences (h : OneLine t) : ∀ x ∈ splitSentences t, OneLine x := by
  intro x hx c hc
  rcases mem_joinParts hx hc with rfl | h' | ⟨p, hp, hcp⟩
  · decide
  · cases h'
  · rcases mem_sentenceParts hp hcp with h' | h' | h'
    · cases h'
    · cases h'
    · exact h c (pyStrip_subset t h')

/-! ## The bullet of a fact -/

/-- `**x**` in a text. -/
def HasBold (t : List Char) : Prop := ∃ x, x ≠ [] ∧ '*' :: '*' :: (x ++ ['*', '*']) <:+: t

theorem of_first_boldInline (h : BOLD_INLINE.first t = some m) :
    ∃ x b, t = '*' :: '*' :: (x ++ '*' :: '*' :: b) ∧ x ≠ [] ∧ m = ⟨[(.t, x)], b⟩ := by
  obtain ⟨c₁, t₁, rfl, hc₁, h₁⟩ := of_first_one h
  obtain ⟨c₂, t₂, rfl, hc₂, h₂⟩ := of_first_one h₁
  obtain ⟨x, t₃, m₃, rfl, -, hfit, h₃, rfl⟩ := exists_of_first h₂
  obtain ⟨c₄, t₄, rfl, hc₄, h₄⟩ := of_first_one h₃
  change (one _ : MdRx).first t₄ = some m₃ at h₄
  rw [← first_seq_nothing_right] at h₄
  obtain ⟨c₅, b, rfl, hc₅, h₅⟩ := of_first_one h₄
  cases h₅
  have hstar : ∀ c, decide (c = '*') = true → c = '*' := fun c h => of_decide_eq_true h
  cases hstar c₁ hc₁
  cases hstar c₂ hc₂
  cases hstar c₄ hc₄
  cases hstar c₅ hc₅
  refine ⟨x, b, rfl, ?_, rfl⟩
  rintro rfl
  cases hfit

theorem first_boldInline_isSome {x b : List Char} (hne : x ≠ []) (h1 : OneLine x) :
    (BOLD_INLINE.first ('*' :: '*' :: (x ++ '*' :: '*' :: b))).isSome = true := by
  have hend : ((seq (one fun c => decide (c = '*')) (one fun c => decide (c = '*')) : MdRx).first
      ('*' :: '*' :: b)).isSome = true := by
    rw [first_one_cons, if_pos (by decide), first_last_one, if_pos (by decide)]
    rfl
  have hx := @first_seq_isSome _ _ dot 1 none true (some MdGroup.t) _ x ('*' :: '*' :: b)
    (dot_of_oneLine h1) (fits_of_ne hne) hend
  show ((seq (one fun c => decide (c = '*')) (seq (one fun c => decide (c = '*')) _)).first
    _).isSome = true
  rw [first_one_cons, if_pos (by decide), first_one_cons, if_pos (by decide)]
  exact hx

/-- `strip_inline` changes a line exactly when there is something bold in it. -/
theorem stripInline_eq_self_iff (h1 : OneLine t) : stripInline t = t ↔ ¬ HasBold t := by
  have hshrinks : Shrinks BOLD_INLINE (capText .t) := by
    intro u m hm
    obtain ⟨x, b, rfl, -, rfl⟩ := of_first_boldInline hm
    show x.length + b.length < _
    simp only [List.length_cons, List.length_append]
    omega
  unfold stripInline
  rw [replaceAll_eq_self_iff hshrinks]
  constructor
  · rintro h ⟨x, hne, a, b, rfl⟩
    have hx : OneLine x := h1.mono fun c hc => by simp [hc]
    have hnone := h ('*' :: '*' :: (x ++ '*' :: '*' :: b)) ⟨a, by simp⟩
    have hsome := first_boldInline_isSome (b := b) hne hx
    rw [hnone] at hsome
    cases hsome
  · rintro h u ⟨a, rfl⟩
    by_contra hne
    obtain ⟨m, hm⟩ := Option.ne_none_iff_exists'.1 hne
    obtain ⟨x, b, rfl, hx, -⟩ := of_first_boldInline hm
    exact h ⟨x, hx, a, b, by simp⟩

theorem mdBullet_relation (s t : List Char) : '*' ∉ (mdBullet s t).relation := by
  unfold mdBullet
  split
  · next caps hcaps =>
      dsimp only
      split
      · decide
      · intro hmem
        have hkeeps : Keeps .rel (· ≠ '*') STRUCT := by
          simp [STRUCT, seqs, letters, Keeps, one, many, many1, isChar]
        have hmem := pyStrip_subset _ hmem
        unfold capText at hmem
        cases hx : caps.lookup .rel with
        | none => rw [hx] at hmem; cases hmem
        | some x =>
          rw [hx] at hmem
          exact lookup_class hkeeps hcaps hx _ hmem rfl
  · show '*' ∉ memGenericRelation
    decide

theorem mdBullet_obj (s t : List Char) : ∀ o ∈ (mdBullet s t).obj, ':' ∉ o := by
  unfold mdBullet
  split
  · next caps hcaps =>
      intro o ho hmem
      have hkeeps : Keeps .obj (· ≠ ':') STRUCT := by
        simp [STRUCT, seqs, letters, Keeps, one, many, many1, isChar]
      obtain ⟨x, hx, rfl⟩ := Option.map_eq_some_iff.1 (Option.mem_filter_iff.1 ho).1
      exact lookup_class hkeeps hcaps hx _ (pyStrip_subset x hmem) rfl
  · intro o ho
    exact absurd ho (Option.not_mem_none o)

section
variable {relation object fact : List Char}

/-- The bullet of a fact is read as the fact exactly when no mark in it is taken for one of
the line's. -/
theorem mdBullet_eq_iff (x subject : List Char) (hr : Stripped relation)
    (ho : object = [] ∨ Stripped object) (hf : Stripped fact) (h1 : OneLine fact) :
    mdBullet x (bulletText relation object fact) =
        ⟨subject, relation, if object = [] then none else some object, fact⟩ ↔
      x = subject ∧ '*' ∉ relation ∧ ':' ∉ object ∧ ¬ HasBold fact := by
  constructor
  · intro h
    have hstar : '*' ∉ relation := by
      have hrel := mdBullet_relation x (bulletText relation object fact)
      rwa [h] at hrel
    have hcolon : ':' ∉ object := by
      by_cases hnil : object = []
      · rw [hnil]
        exact List.not_mem_nil
      · have hobj := mdBullet_obj x (bulletText relation object fact)
        rw [h] at hobj
        exact hobj object (by simp [hnil])
    rw [mdBullet_bulletText x hr hstar ho hcolon hf h1, MdFact.mk.injEq] at h
    exact ⟨h.1, hstar, hcolon, (stripInline_eq_self_iff h1).1 h.2.2.2⟩
  · rintro ⟨rfl, hstar, hcolon, hbold⟩
    rw [mdBullet_bulletText x hr hstar ho hcolon hf h1, (stripInline_eq_self_iff h1).2 hbold]

theorem bulletText_stripped (hf : Stripped fact) : Stripped (bulletText relation object fact) := by
  obtain ⟨a, c, rfl⟩ := (List.eq_nil_or_concat fact).resolve_left hf.ne
  rw [List.concat_eq_append] at *
  refine ⟨Text.trimMatches_eq_self_iff.2 ⟨?_, ?_⟩, List.cons_ne_nil _ _⟩
  · rintro d ⟨⟩
    decide
  · intro d hd
    have hlast : (bulletText relation object (a ++ [c])).getLast? = some c := by
      have hsplit : bulletText relation object (a ++ [c]) =
          ('*' :: '*' :: (relation ++ '*' :: '*' :: ((if object = [] then [] else ' ' :: object) ++
            ' ' :: ':' :: ' ' :: a))) ++ [c] := by simp [bulletText]
      rw [hsplit, List.getLast?_concat]
    rw [hlast] at hd
    cases hd
    exact hf.last

theorem bulletText_oneLine (hr : OneLine relation) (ho : OneLine object) (hf : OneLine fact) :
    OneLine (bulletText relation object fact) := by
  have hmark : isLineEnd '*' = false := by decide
  have hspace : isLineEnd ' ' = false := by decide
  have hcolon : isLineEnd ':' = false := by decide
  unfold bulletText
  by_cases hnil : object = [] <;> simp [hnil, hr, ho, hf, hmark, hspace, hcolon]

/-- The bullet of a fact gives the current subject at most that fact. -/
theorem mdLine_fact (st : MdState) (hr : OneLine relation) (ho : OneLine object) (hf : Stripped fact)
    (h1 : OneLine fact) :
    mdLine L digit st (factLine relation object fact) =
      { st with edges := st.edges ++
        ((st.cur.toList.map fun x => mdBullet x
          (bulletText (if relation = [] then memGenericRelation else relation) object fact)).filter
            fun f => f.fact ≠ []) } := by
  generalize hrel : (if relation = [] then memGenericRelation else relation) = rel
  have hrel1 : OneLine rel := by
    rw [← hrel]
    split
    · exact oneLine_generic
    · exact hr
  have hs := @bulletText_stripped rel object fact hf
  have hcaps := @captures_bullet digit _ hs (bulletText_oneLine hrel1 ho h1)
  have hline : mdLine L digit st (factLine relation object fact) =
      mdText digit st ('-' :: ' ' :: bulletText rel object fact) := by
    rw [factLine_eq, hrel, mdLine_text (by decide) (by decide) (by decide)]
    exact congrArg (fun t => mdText digit st ('-' :: t)) (@trimEnd_append [' '] _ hs)
  rw [hline]
  unfold mdText
  rw [captures_alias_dash, hcaps]
  simp only [capText, List.lookup_cons_self, Option.getD_some, hs.strip, if_neg hs.ne]
  cases hcur : st.cur with
  | none =>
    simp only [Option.toList_none, List.map_nil, List.filter_nil, List.append_nil]
    rw [← hcur]
  | some x =>
    simp only [Option.toList_some, List.map_cons, List.map_nil]
    by_cases hnil : (mdBullet x (bulletText rel object fact)).fact = []
    · simp [hnil, ← hcur]
    · simp [hnil, ← hcur]

end

end Portal.Memory
