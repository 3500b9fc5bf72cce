import Mathlib
import DgxPlatform.Portal.MemoryNorm

/-! # Normalised names as words

`mem_norm` writes the words of a name (runs of letters and numbers of the folded,
lower-cased name) with one space between them, and cuts at 120 characters.
`memNorm_normal_iff`: what comes out is a normalised name again exactly when the cut is
not right behind a space and lower-casing changes none of the letters. A compatibility
decomposition may bring capitals back (« ㏀ » gives a kappa and a capital omega).
-/

namespace Portal.Memory

open Accounts (pyIsSpace)

variable (uni : Unicode)

/-- Lower-casing leaves the character alone. -/
def Unicode.Lower (c : Char) : Prop := uni.lowercase.lower [c] = [c]

instance (c : Char) : Decidable (uni.Lower c) := inferInstanceAs (Decidable (_ = _))

/-- What the tables of Unicode say of case and decomposition. Lower-casing works character by
character, but for the capital sigma, which becomes one of two letters. -/
structure Unicode.Tables : Prop where
  lower_fixed : ∀ t, (∀ c ∈ t, uni.Lower c) → uni.lowercase.lower t = t
  lower_lower : ∀ t, ∀ c ∈ uni.lowercase.lower t, uni.Lower c
  lower_first : ∀ p c q, (∀ d ∈ p, uni.Lower d) → ¬ uni.Lower c →
    ∃ e r, uni.lowercase.lower (p ++ c :: q) = p ++ e :: r ∧ e ≠ c ∧
      (uni.nfkd c = [c] → uni.nfkd e = [e] ∧
        (uni.alphanumeric c = true → uni.alphanumeric e = true))
  nfkd_nfkd : ∀ c, ∀ d ∈ uni.nfkd c, uni.nfkd d = [d]
  nfkd_ascii : ∀ c, c.toNat < 128 → uni.nfkd c = [c] ∧ uni.isCombiningMark c = false
  underscore : uni.alphanumeric '_' = false

/-! ## The words of a name -/

/-- The lower-cased name with its Latin letters folded. -/
def folded (name : List Char) : List Char := (uni.lowercase.lower name).flatMap (foldChar uni)

/-- The runs of letters and numbers of a text. -/
def wordsOf (t : List Char) : List (List Char) :=
  (t.splitOnP fun c => !uni.alphanumeric c).filter (· ≠ [])

/-- Words, each behind a space. -/
def spacedWords (ws : List (List Char)) : List Char := ws.flatMap fun w => ' ' :: w

/-- Words with one space between them. -/
def joined : List (List Char) → List Char
  | [] => []
  | w :: ws => w ++ spacedWords ws

variable {uni}

variable {c : Char}

theorem Unicode.Tables.ne_underscore (tab : uni.Tables) (hc : uni.alphanumeric c = true) : c ≠ '_' := by
  rintro rfl
  rw [tab.underscore] at hc
  cases hc

theorem isWhitespace_of_alphanumeric (hc : uni.alphanumeric c = true) : Text.isWhitespace c = false := by
  by_contra h
  have hspace : pyIsSpace c = true := by simp [pyIsSpace, Bool.not_eq_false _ ▸ h]
  rw [uni.not_alphanumeric c hspace] at hc
  cases hc

/-! ## Folded text, squeezed -/

/-- The rest of a squeeze: `gap` is whether the text read so far ends in a gap. -/
def squeeze (uni : Unicode) (gap : Bool) (out t : List Char) : List Char :=
  collapsed gap out (underscores (spaced uni gap t))

theorem squeeze_nil (gap : Bool) (out : List Char) : squeeze uni gap out [] = out := rfl

theorem collapsed_gap_spaced (out t : List Char) :
    collapsed true out (underscores (spaced uni false t)) = squeeze uni true out t := by
  cases t with
  | nil => rfl
  | cons c t =>
    unfold squeeze spaced
    split
    · rfl
    · rfl

theorem squeeze_letter (tab : uni.Tables) (hc : uni.alphanumeric c = true) (gap : Bool)
    (out t : List Char) : squeeze uni gap out (c :: t) =
      squeeze uni false ((if gap ∧ out ≠ [] then out ++ [' '] else out) ++ [c]) t := by
  have hword : isWord uni c = true := by simp [isWord, hc]
  have hspace := isWhitespace_of_alphanumeric hc
  simp only [squeeze, spaced, if_pos hword, underscores, List.map_cons,
    if_neg (tab.ne_underscore hc), collapsed, hspace, Bool.false_eq_true, if_false]

theorem squeeze_other (hc : uni.alphanumeric c = false) (gap : Bool)
    (out t : List Char) : squeeze uni gap out (c :: t) = squeeze uni true out t := by
  by_cases hu : c = '_'
  · subst hu
    have hword : isWord uni '_' = true := rfl
    rw [← collapsed_gap_spaced]
    simp only [squeeze, spaced, if_pos hword]
    rfl
  · have hword : isWord uni c = false := by simp [isWord, hu, hc]
    cases gap with
    | false =>
      simp only [squeeze, spaced, hword, Bool.false_eq_true, if_false]
      rfl
    | true => simp only [squeeze, spaced, hword, Bool.false_eq_true, if_false, if_true]

theorem squeeze_start (t : List Char) (gap gap' : Bool) :
    squeeze uni gap [] t = squeeze uni gap' [] t := collapsed_start t gap gap' gap gap'

/-- What a squeeze adds to a text that ends in a word: the rest of the word, then words. -/
theorem squeeze_eq (tab : uni.Tables) (t : List Char) :
    (∀ out, out ≠ [] → squeeze uni true out t = out ++ spacedWords (wordsOf uni t)) ∧
      ∀ out, out ≠ [] → ∃ w ws, t.splitOnP (fun c => !uni.alphanumeric c) = w :: ws ∧
        squeeze uni false out t = out ++ w ++ spacedWords (ws.filter (· ≠ [])) := by
  induction t with
  | nil =>
    refine ⟨fun out _ => ?_, fun out _ => ⟨[], [], List.splitOnP_nil, ?_⟩⟩
    · rw [squeeze_nil, wordsOf, List.splitOnP_nil]
      simp [spacedWords]
    · simp [squeeze_nil, spacedWords]
  | cons c t ih =>
    obtain ⟨ihgap, ihword⟩ := ih
    cases hc : uni.alphanumeric c with
    | true =>
      have hsplit : (c :: t).splitOnP (fun c => !uni.alphanumeric c) =
          (t.splitOnP fun c => !uni.alphanumeric c).modifyHead (c :: ·) := by
        rw [List.splitOnP_cons_eq_if_modifyHead, hc]
        rfl
      constructor
      · intro out hout
        obtain ⟨w, ws, hws, hrest⟩ := ihword (out ++ [' '] ++ [c]) (by simp)
        rw [squeeze_letter tab hc, if_pos ⟨rfl, hout⟩, hrest, wordsOf, hsplit, hws]
        simp [spacedWords]
      · intro out hout
        obtain ⟨w, ws, hws, hrest⟩ := ihword (out ++ [c]) (by simp)
        refine ⟨c :: w, ws, by rw [hsplit, hws]; rfl, ?_⟩
        rw [squeeze_letter tab hc, if_neg (by simp), hrest]
        simp
    | false =>
      have hsplit : (c :: t).splitOnP (fun c => !uni.alphanumeric c) =
          [] :: t.splitOnP fun c => !uni.alphanumeric c := by
        rw [List.splitOnP_cons_eq_if_modifyHead, hc]
        rfl
      have hwords : wordsOf uni (c :: t) = wordsOf uni t := by simp [wordsOf, hsplit]
      constructor
      · intro out hout
        rw [squeeze_other hc, ihgap out hout, hwords]
      · intro out hout
        refine ⟨[], _, hsplit, ?_⟩
        rw [squeeze_other hc, ihgap out hout]
        simp [wordsOf]

/-- A squeeze writes the words of the text, one space between them. -/
theorem squeezed_eq (tab : uni.Tables) (t : List Char) : squeeze uni false [] t = joined (wordsOf uni t) := by
  induction t with
  | nil => rfl
  | cons c t ih =>
    cases hc : uni.alphanumeric c with
    | true =>
      obtain ⟨w, ws, hws, hrest⟩ := (squeeze_eq tab t).2 [c] (by simp)
      rw [squeeze_letter tab hc, if_neg (by simp), List.nil_append, hrest, wordsOf,
        List.splitOnP_cons_eq_if_modifyHead, hc]
      simp [hws, joined, spacedWords]
    | false =>
      rw [squeeze_other hc, squeeze_start t true false, ih, wordsOf, wordsOf,
        List.splitOnP_cons_eq_if_modifyHead, hc]
      simp

/-! ## Clean texts -/

/-- Letters and numbers with single spaces inside; `ok` is whether it may start with a space. -/
def Clean (uni : Unicode) (ok : Bool) : List Char → Prop
  | [] => True
  | c :: t => (c = ' ' ∧ ok = true ∧ Clean uni false t) ∨
      (uni.alphanumeric c = true ∧ Clean uni true t)

variable {t : List Char}

theorem Clean.take {ok : Bool} (h : Clean uni ok t) (n : Nat) : Clean uni ok (t.take n) := by
  induction t generalizing ok n with
  | nil => simp [Clean]
  | cons c t ih =>
    cases n with
    | zero => trivial
    | succ n =>
      rcases h with ⟨hc, hok, h⟩ | ⟨hc, h⟩
      · exact .inl ⟨hc, hok, ih h n⟩
      · exact .inr ⟨hc, ih h n⟩

theorem Clean.word {w t : List Char} (hw : ∀ c ∈ w, uni.alphanumeric c = true) (hne : w ≠ [])
    (h : Clean uni true t) (ok : Bool) : Clean uni ok (w ++ t) := by
  induction w generalizing ok with
  | nil => exact absurd rfl hne
  | cons c w ih =>
    refine .inr ⟨hw c List.mem_cons_self, ?_⟩
    cases w with
    | nil => exact h
    | cons d w => exact ih (fun x hx => hw x (List.mem_cons_of_mem c hx)) (List.cons_ne_nil d w) true

theorem mem_wordsOf {t w : List Char} (h : w ∈ wordsOf uni t) :
    w ≠ [] ∧ ∀ c ∈ w, c ∈ t ∧ uni.alphanumeric c = true := by
  obtain ⟨hmem, hne⟩ := List.mem_filter.1 h
  refine ⟨of_decide_eq_true hne, fun c hc => ?_⟩
  obtain ⟨hct, halnum⟩ := Text.of_mem_splitOnP hmem c hc
  exact ⟨hct, by simpa using halnum⟩

theorem clean_joined (t : List Char) : Clean uni false (joined (wordsOf uni t)) := by
  have hwords : ∀ ws : List (List Char), (∀ w ∈ ws, w ≠ [] ∧ ∀ c ∈ w, uni.alphanumeric c = true) →
      Clean uni true (spacedWords ws) := by
    intro ws hws
    induction ws with
    | nil => trivial
    | cons w ws ih =>
      obtain ⟨⟨hne, hw⟩, hws⟩ := List.forall_mem_cons.1 hws
      exact .inl ⟨rfl, rfl, Clean.word hw hne (ih hws) false⟩
  have hall : ∀ w ∈ wordsOf uni t, w ≠ [] ∧ ∀ c ∈ w, uni.alphanumeric c = true :=
    fun w hw => ⟨(mem_wordsOf hw).1, fun c hc => ((mem_wordsOf hw).2 c hc).2⟩
  cases hws : wordsOf uni t with
  | nil => trivial
  | cons w ws =>
    rw [hws] at hall
    obtain ⟨⟨hne, hw⟩, hws⟩ := List.forall_mem_cons.1 hall
    exact Clean.word hw hne (hwords ws hws) false

/-- A character of the joined words is a space or one of the text's letters. -/
theorem mem_joined (h : c ∈ joined (wordsOf uni t)) : c = ' ' ∨ (c ∈ t ∧ uni.alphanumeric c = true) := by
  have hspaced : ∀ ws : List (List Char), c ∈ spacedWords ws → c = ' ' ∨ ∃ w ∈ ws, c ∈ w := by
    intro ws hc
    obtain ⟨w, hw, hc⟩ := List.mem_flatMap.1 hc
    rcases List.mem_cons.1 hc with rfl | hc
    · exact .inl rfl
    · exact .inr ⟨w, hw, hc⟩
  have hword : c = ' ' ∨ ∃ w ∈ wordsOf uni t, c ∈ w := by
    cases hws : wordsOf uni t with
    | nil =>
      rw [hws] at h
      cases h
    | cons w ws =>
      rw [hws] at h
      rcases List.mem_append.1 h with hc | hc
      · exact .inr ⟨w, List.mem_cons_self, hc⟩
      · rcases hspaced ws hc with hspace | ⟨w', hw', hc⟩
        · exact .inl hspace
        · exact .inr ⟨w', List.mem_cons_of_mem w hw', hc⟩
  rcases hword with hspace | ⟨w, hw, hc⟩
  · exact .inl hspace
  · exact .inr ((mem_wordsOf hw).2 c hc)

theorem not_alphanumeric_space : uni.alphanumeric ' ' = false :=
  uni.not_alphanumeric ' ' (by decide)

/-- A squeeze has written a clean text it has read, but for a space at its end. -/
theorem squeeze_clean (tab : uni.Tables) {p : List Char} {ok gap : Bool} {out : List Char}
    (hp : Clean uni ok p) (hok : ok = true → gap = false ∧ out ≠ []) (hgap : gap = true → out ≠ []) :
    ∃ gap' out', (∀ u, squeeze uni gap out (p ++ u) = squeeze uni gap' out' u) ∧
      out' ++ (if gap' then [' '] else []) = out ++ (if gap then [' '] else []) ++ p ∧
      (gap' = true → out' ≠ []) := by
  induction p generalizing ok gap out with
  | nil => exact ⟨gap, out, fun _ => rfl, by simp, hgap⟩
  | cons c p ih =>
    rcases hp with ⟨rfl, hoktrue, hp⟩ | ⟨hc, hp⟩
    · obtain ⟨rfl, hout⟩ := hok hoktrue
      obtain ⟨gap', out', hrun, htext, hne⟩ := @ih false true out hp nofun fun _ => hout
      refine ⟨gap', out', fun u => ?_, ?_, hne⟩
      · rw [List.cons_append, squeeze_other not_alphanumeric_space, hrun]
      · rw [htext]
        simp
    · obtain ⟨gap', out', hrun, htext, hne⟩ := @ih true false
        ((if gap ∧ out ≠ [] then out ++ [' '] else out) ++ [c]) hp (by simp) nofun
      refine ⟨gap', out', fun u => ?_, ?_, hne⟩
      · rw [List.cons_append, squeeze_letter tab hc, hrun]
      · rw [htext]
        cases hgap' : gap with
        | false => simp
        | true => simp [hgap hgap']

/-! ## What the fold leaves alone -/

theorem foldChar_of_nfkd (tab : uni.Tables) (hc : uni.nfkd c = [c]) : foldChar uni c = [c] := by
  unfold foldChar
  rw [hc]
  by_cases hascii : c.toNat < 128
  · simp [hascii, (tab.nfkd_ascii c hascii).2]
  · simp [hascii]

/-- A character of a folded text is left alone by the fold, and it is a whole decomposition or
was a character of the text. -/
theorem foldChar_of_mem (tab : uni.Tables) (hc : c ∈ t.flatMap (foldChar uni)) :
    foldChar uni c = [c] ∧ (uni.nfkd c = [c] ∨ c ∈ t) := by
  obtain ⟨d, hd, hcd⟩ := List.mem_flatMap.1 hc
  by_cases hascii : (uni.nfkd d).head?.any (fun x => decide (x.toNat < 128)) = true
  · rw [foldChar, if_pos hascii] at hcd
    have hnfkd := tab.nfkd_nfkd d c (List.mem_of_mem_filter hcd)
    exact ⟨foldChar_of_nfkd tab hnfkd, .inl hnfkd⟩
  · have hself : foldChar uni d = [d] := by rw [foldChar, if_neg hascii]
    rw [hself, List.mem_singleton] at hcd
    subst hcd
    exact ⟨hself, .inr hd⟩

theorem flatMap_foldChar (h : ∀ c ∈ t, foldChar uni c = [c]) : t.flatMap (foldChar uni) = t := by
  induction t with
  | nil => rfl
  | cons c t ih =>
    rw [List.flatMap_cons, h c List.mem_cons_self, ih fun d hd => h d (List.mem_cons_of_mem c hd)]
    rfl

theorem lower_space (uni : Unicode) : uni.Lower ' ' := by
  have h := uni.lowercase.ascii [' '] (by decide)
  exact h

/-! ## Normalised names -/

/-- The first 120 characters of the words, one space between them. -/
def wordsCut (uni : Unicode) (name : List Char) : List Char :=
  (joined (wordsOf uni (folded uni name))).take memMaxNameLen

theorem memNorm_eq_wordsCut (tab : uni.Tables) (name : List Char) : memNorm uni name = wordsCut uni name := by
  rw [memNorm_eq, wordsCut, ← squeezed_eq tab]
  rfl

/-- A normalised name: `mem_norm` leaves it as it is, and it consists of at most 120 characters,
words with single spaces between them. -/
structure Normal (uni : Unicode) (x : List Char) : Prop where
  fixed : memNorm uni x = x
  short : x.length ≤ memMaxNameLen
  head : x.head? ≠ some ' '
  last : x.getLast? ≠ some ' '
  single : ¬ [' ', ' '] <:+: x
  words : ∀ c ∈ x, c = ' ' ∨ isWord uni c = true

/-- The cut is not right behind a space, and lower-casing changes none of the letters. -/
structure Settled (uni : Unicode) (name : List Char) : Prop where
  cut : (wordsCut uni name).getLast? ≠ some ' '
  lower : ∀ c ∈ wordsCut uni name, uni.Lower c

theorem not_infix_of_clean {ok : Bool} (h : Clean uni ok t) : ¬ [' ', ' '] <:+: t := by
  induction t generalizing ok with
  | nil => simp
  | cons c t ih =>
    rw [List.infix_cons_iff]
    rintro (hpre | hinf)
    · rw [List.cons_prefix_cons] at hpre
      obtain ⟨rfl, hpre⟩ := hpre
      rcases h with ⟨-, -, h⟩ | ⟨hc, -⟩
      · cases t with
        | nil => simp at hpre
        | cons d t =>
          rw [List.cons_prefix_cons] at hpre
          obtain ⟨rfl, -⟩ := hpre
          rcases h with ⟨-, hf, -⟩ | ⟨hc, -⟩
          · cases hf
          · rw [not_alphanumeric_space] at hc
            cases hc
      · rw [not_alphanumeric_space] at hc
        cases hc
    · rcases h with ⟨-, -, h⟩ | ⟨-, h⟩
      · exact ih h hinf
      · exact ih h hinf

theorem wordsCut_clean (name : List Char) : Clean uni false (wordsCut uni name) :=
  (clean_joined _).take _

theorem mem_wordsCut (tab : uni.Tables) {name : List Char} (hc : c ∈ wordsCut uni name) :
    (c = ' ' ∨ uni.alphanumeric c = true) ∧ foldChar uni c = [c] ∧
      (uni.Lower c ∨ uni.alphanumeric c = true ∧ uni.nfkd c = [c]) := by
  rcases mem_joined (List.mem_of_mem_take hc) with rfl | ⟨hmem, halnum⟩
  · exact ⟨.inl rfl, foldChar_of_nfkd tab (tab.nfkd_ascii ' ' (by decide)).1, .inl (lower_space uni)⟩
  · obtain ⟨hfold, hnfkd | hlower⟩ := foldChar_of_mem tab hmem
    · exact ⟨.inr halnum, hfold, .inr ⟨halnum, hnfkd⟩⟩
    · exact ⟨.inr halnum, hfold, .inl (tab.lower_lower _ c hlower)⟩

/-- A clean text that lower-casing and the fold leave alone, without a space at its end, is its own
normalised form. -/
theorem memNorm_clean (tab : uni.Tables) {x : List Char} (hx : Clean uni false x)
    (hshort : x.length ≤ memMaxNameLen) (hlast : x.getLast? ≠ some ' ')
    (hlower : ∀ c ∈ x, uni.Lower c) (hfold : ∀ c ∈ x, foldChar uni c = [c]) :
    memNorm uni x = x := by
  obtain ⟨gap, out, hrun, htext, -⟩ :=
    @squeeze_clean uni tab x false false [] hx nofun nofun
  have hend : squeeze uni false [] x = out := by
    have h := hrun []
    rwa [List.append_nil] at h
  have hgap : gap = false := by
    by_contra h
    rw [Bool.not_eq_false] at h
    simp only [h, if_true, Bool.false_eq_true, if_false, List.append_nil, List.nil_append] at htext
    rw [← htext] at hlast
    simp at hlast
  have hout : out = x := by simpa [hgap] using htext
  have hcore : normCore uni x = x := by
    show squeeze uni false [] ((uni.lowercase.lower x).flatMap (foldChar uni)) = x
    rw [tab.lower_fixed x hlower, flatMap_foldChar hfold, hend, hout]
  rw [memNorm_eq, hcore, List.take_of_length_le hshort]

theorem prefix_squeeze (tab : uni.Tables) (t : List Char) (gap : Bool) (out : List Char) :
    out <+: squeeze uni gap out t := by
  induction t generalizing gap out with
  | nil => exact List.prefix_refl out
  | cons c t ih =>
    cases hc : uni.alphanumeric c with
    | true =>
      rw [squeeze_letter tab hc]
      refine List.IsPrefix.trans ?_ (ih false _)
      split
      · exact ⟨[' ', c], by simp⟩
      · exact ⟨[c], rfl⟩
    | false =>
      rw [squeeze_other hc]
      exact ih true out

/-- A letter that lower-casing changes is replaced in the normalised form. -/
theorem lower_of_memNorm (tab : uni.Tables) {x : List Char} (hx : Clean uni false x)
    (hshort : x.length ≤ memMaxNameLen) (hfold : ∀ c ∈ x, foldChar uni c = [c])
    (hletters : ∀ c ∈ x, uni.Lower c ∨ uni.alphanumeric c = true ∧ uni.nfkd c = [c])
    (hfixed : memNorm uni x = x) : ∀ c ∈ x, uni.Lower c := by
  by_contra hne
  -- the first such letter
  have hsome : (x.find? fun c => decide (¬ uni.Lower c)).isSome = true := by
    rw [List.find?_isSome]
    push Not at hne
    simpa using hne
  obtain ⟨c, hc⟩ := Option.isSome_iff_exists.1 hsome
  obtain ⟨hnot, p, q, hpq, hbefore⟩ := List.find?_eq_some_iff_append.1 hc
  have hnot : ¬ uni.Lower c := of_decide_eq_true hnot
  have hp : ∀ d ∈ p, uni.Lower d := by
    intro d hd
    simpa using hbefore d hd
  have hcx : c ∈ x := by simp [hpq]
  obtain ⟨halnum, hnfkd⟩ := (hletters c hcx).resolve_left hnot
  obtain ⟨e, r, hlower, hec, he⟩ := tab.lower_first p c q hp hnot
  obtain ⟨hestable, healnum⟩ := he hnfkd
  -- the text up to it is written as it is, then another letter
  have hfolded : (uni.lowercase.lower x).flatMap (foldChar uni) =
      p ++ e :: r.flatMap (foldChar uni) := by
    rw [hpq, hlower, List.flatMap_append, List.flatMap_cons, foldChar_of_nfkd tab hestable,
      flatMap_foldChar fun d hd => hfold d (by simp [hpq, hd])]
    rfl
  have hclean : Clean uni false p := by
    have htake := hx.take p.length
    rwa [hpq, List.take_left] at htake
  obtain ⟨gap, out, hrun, htext, hgap⟩ := @squeeze_clean uni tab p false false [] hclean nofun nofun
  have hcore : p ++ [e] <+: normCore uni x := by
    show _ <+: squeeze uni false [] ((uni.lowercase.lower x).flatMap (foldChar uni))
    rw [hfolded, hrun, squeeze_letter tab (healnum halnum)]
    have hwritten : (if gap = true ∧ out ≠ [] then out ++ [' '] else out) = p := by
      cases hg : gap with
      | false => simpa [hg] using htext
      | true => simpa [hg, hgap hg] using htext
    rw [hwritten]
    exact prefix_squeeze tab _ false _
  obtain ⟨rest, hrest⟩ := hcore
  have hlen : p.length < memMaxNameLen := by
    rw [hpq, List.length_append, List.length_cons] at hshort
    omega
  have hat : (memNorm uni x)[p.length]? = some e := by
    rw [memNorm_eq, ← hrest, List.getElem?_take_of_lt hlen]
    simp
  rw [hfixed, hpq] at hat
  exact hec (by simpa using hat.symm)

/-- The normalised form of a name is a normalised name exactly when the cut at 120 characters is
not right behind a space, and lower-casing changes none of the letters before it. -/
theorem memNorm_normal_iff (uni : Unicode) (tab : uni.Tables) (name : List Char) :
    Normal uni (memNorm uni name) ↔ Settled uni name := by
  rw [memNorm_eq_wordsCut tab]
  have hclean : Clean uni false (wordsCut uni name) := wordsCut_clean name
  have hshort : (wordsCut uni name).length ≤ memMaxNameLen := List.length_take_le _ _
  have hfold : ∀ c ∈ wordsCut uni name, foldChar uni c = [c] := fun c hc => (mem_wordsCut tab hc).2.1
  constructor
  · intro h
    exact ⟨h.last, lower_of_memNorm tab hclean hshort hfold
      (fun c hc => (mem_wordsCut tab hc).2.2) h.fixed⟩
  · intro h
    refine ⟨memNorm_clean tab hclean hshort h.cut h.lower hfold, hshort, ?_, h.cut,
      not_infix_of_clean hclean, fun c hc => (mem_wordsCut tab hc).1.imp_right fun h => ?_⟩
    · intro hhead
      cases hcut : wordsCut uni name with
      | nil =>
          rw [hcut] at hhead
          cases hhead
      | cons c t =>
          rw [hcut] at hhead hclean
          obtain rfl : c = ' ' := Option.some.inj hhead
          rcases hclean with ⟨-, hf, -⟩ | ⟨hc, -⟩
          · cases hf
          · rw [not_alphanumeric_space] at hc
            cases hc
    · simp [isWord, h]

/-! ## ASCII names -/

theorem asciiUnicode_lower_iff : asciiUnicode.Lower c ↔ c.toLower = c := by
  show [c.toLower] = [c] ↔ _
  exact List.singleton_inj

theorem map_toLower_eq (h : ∀ c ∈ t, asciiUnicode.Lower c) : t.map Char.toLower = t := by
  have hid : t.map Char.toLower = t.map id :=
    List.map_congr_left fun c hc => asciiUnicode_lower_iff.1 (h c hc)
  rw [hid, List.map_id]

theorem isAlphanum_toLower (h : c.isAlphanum = true) : c.toLower.isAlphanum = true := by
  by_cases halpha : c.isAlpha = true
  · simp [Char.isAlphanum, halpha]
  · have hupper : ¬ c.isUpper = true := fun hupper => halpha (by simp [Char.isAlpha, hupper])
    rwa [Char.toLower_eq_of_not_isUpper hupper]

theorem asciiUnicode_tables : asciiUnicode.Tables where
  lower_fixed _ h := map_toLower_eq h
  lower_lower t c hc := by
    obtain ⟨d, -, rfl⟩ := List.mem_map.1 hc
    exact asciiUnicode_lower_iff.2 (Char.toLower_toLower_eq_toLower d)
  lower_first p c q hp hc := by
    refine ⟨c.toLower, q.map Char.toLower, ?_, fun h => hc (asciiUnicode_lower_iff.2 h), fun _ => ?_⟩
    · show (p ++ c :: q).map Char.toLower = _
      rw [List.map_append, List.map_cons, map_toLower_eq hp]
    · refine ⟨rfl, fun halnum => ?_⟩
      exact isAlphanum_toLower halnum
  nfkd_nfkd c d hd := by
    obtain rfl : d = c := List.mem_singleton.1 hd
    rfl
  nfkd_ascii _ _ := ⟨rfl, rfl⟩
  underscore := by decide

theorem memNorm_normal_vllm : Settled asciiUnicode " vLLM__0.6 ".toList ∧
    Normal asciiUnicode (memNorm asciiUnicode " vLLM__0.6 ".toList) := by
  have hcut : wordsCut asciiUnicode " vLLM__0.6 ".toList = "vllm 0 6".toList := by decide +kernel
  have hsettled : Settled asciiUnicode " vLLM__0.6 ".toList := by
    constructor
    · rw [hcut]
      decide
    · intro c hc
      rw [hcut] at hc
      exact asciiUnicode_lower_iff.2 (List.all_eq_true.1
        (show "vllm 0 6".toList.all (fun c => decide (c.toLower = c)) = true by decide) c hc |>
          of_decide_eq_true)
  exact ⟨hsettled, (memNorm_normal_iff asciiUnicode asciiUnicode_tables _).2 hsettled⟩

/-- A word of 119 letters and one more: the space in between is the last character of the cut. -/
theorem cut_behind_space : ¬ ∀ name : List Char, Normal asciiUnicode (memNorm asciiUnicode name) := by
  intro h
  have hlast := (h (List.replicate 119 'a' ++ [' ', 'b'])).last
  exact hlast (by decide +kernel)

end Portal.Memory
