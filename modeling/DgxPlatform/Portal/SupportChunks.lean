import DgxPlatform.Portal.SupportReply

/-! # The support reply and its chunks

What the support assistant shows of an answer, for all the ways in which the answer can be cut into
chunks.

* `shown_of_steady`: what is shown of a steady answer, whatever its chunks.
-/

namespace Portal.Support

open Accounts (pyIsSpace pyStrip)
open Text

/-! ## Lower case, by characters -/

/-- The two small forms of a sigma as one. -/
def plainSigma (c : Char) : Char := if c = 'ς' then 'σ' else c

/-- `to_lowercase` goes by characters, but for the form of a small sigma, which depends on the
characters around it. -/
structure CharLowercase extends Lowercase where
  image : Char → List Char
  by_char : ∀ t, (lower t).map plainSigma = t.flatMap image
  image_ne_nil : ∀ c, image c ≠ []

def asciiChars : CharLowercase where
  toLowercase := asciiLowercase
  image c := [plainSigma c.toLower]
  by_char t := by
    rw [← List.map_eq_flatMap]
    exact List.map_map
  image_ne_nil c := List.cons_ne_nil _ _

/-! ## Chunks -/

/-- The chunks of a text: none is empty. -/
structure Cut (content : List Char) (chunks : List (List Char)) : Prop where
  flatten : chunks.flatten = content
  ne_nil : ∀ chunk ∈ chunks, chunk ≠ []

/-- A reasoning at the start that is closed is followed by what cleaning leaves of the answer, with
no white space in front; a colon at the start is followed by neither another one nor white space. -/
def Steady (L : Lowercase) (content : List Char) : Prop :=
  (looksThinking L (trimStart content) = true →
    ∀ before after, splitOnce thinkEnd content = some (before, after) →
      trimStart after = after ∧ cleanReply content = after) ∧
  ∀ rest, trimStart content = ':' :: rest → rest.head? ≠ some ':' ∧ trimStart rest = rest

/-- What is shown of a steady answer. -/
def steadily (L : Lowercase) (content : List Char) : List Char :=
  let head := trimStart content
  if looksThinking L head then ((splitOnce thinkEnd content).map Prod.snd).getD (cleanReply content)
  else if tells L head then (if head.head? = some ':' then head.tail else head)
  else content

/-! ## The word at the start -/

/-- The word that opens a reasoning. -/
def thinkWord : List Char := "<think".toList

theorem plainSigma_eq_iff {c d : Char} (hc : c.toNat < 128) : plainSigma d = c ↔ d = c := by
  unfold plainSigma
  split
  · next hd =>
      subst hd
      constructor
      · rintro rfl
        exact absurd hc (by decide)
      · rintro rfl
        exact absurd hc (by decide)
  · exact Iff.rfl

theorem prefix_map_plainSigma {w t : List Char} (hw : IsAscii w) : w <+: t.map plainSigma ↔ w <+: t := by
  induction w generalizing t with
  | nil => exact iff_of_true List.nil_prefix List.nil_prefix
  | cons c w ih =>
    obtain ⟨hc, hw⟩ := List.forall_mem_cons.1 hw
    cases t with
    | nil => rfl
    | cons d t =>
      rw [List.map_cons, List.cons_prefix_cons, List.cons_prefix_cons, ih hw, eq_comm, plainSigma_eq_iff hc,
        eq_comm]

theorem map_plainSigma_prefix {w t : List Char} (hw : IsAscii w) : t.map plainSigma <+: w ↔ t <+: w := by
  induction t generalizing w with
  | nil => exact iff_of_true List.nil_prefix List.nil_prefix
  | cons d t ih =>
    cases w with
    | nil => simp
    | cons c w =>
      obtain ⟨hc, hw⟩ := List.forall_mem_cons.1 hw
      rw [List.map_cons, List.cons_prefix_cons, List.cons_prefix_cons, ih hw, plainSigma_eq_iff hc]

section Start

variable {L : CharLowercase} {h x : List Char}

/-- The lower case of the characters of a start. -/
def images (L : CharLowercase) (h : List Char) : List Char := h.flatMap L.image

theorem images_append (h x : List Char) : images L (h ++ x) = images L h ++ images L x := List.flatMap_append

theorem length_le_images (h : List Char) : h.length ≤ (images L h).length := by
  induction h with
  | nil => exact Nat.zero_le _
  | cons c h ih =>
    have hpos := List.length_pos_iff.2 (L.image_ne_nil c)
    rw [images, List.flatMap_cons, List.length_append, ← images, List.length_cons]
    omega

theorem image_ascii {c : Char} (hc : c.toNat < 128) (hlow : c.toLower = c) : L.image c = [c] := by
  have hone := L.by_char [c]
  have hascii : IsAscii [c] := by
    intro d hd
    rw [List.mem_singleton.1 hd]
    exact hc
  rw [L.ascii [c] hascii, List.flatMap_singleton, List.map_singleton, List.map_singleton, hlow,
    (plainSigma_eq_iff hc).2 rfl] at hone
  exact hone.symm

theorem ascii_thinkWord : IsAscii thinkWord := by decide

theorem looksThinking_iff : looksThinking L.toLowercase h = true ↔ thinkWord <+: images L h := by
  rw [looksThinking, List.isPrefixOf_iff_prefix, images, ← L.by_char, prefix_map_plainSigma ascii_thinkWord]
  rfl

theorem tells_iff : tells L.toLowercase h = true ↔ 12 ≤ h.length ∨ ¬ images L (h.take 6) <+: thinkWord := by
  rw [tells, Bool.or_eq_true, decide_eq_true_eq, Bool.not_eq_true', Bool.eq_false_iff, ne_eq,
    List.isPrefixOf_iff_prefix, images, ← L.by_char, map_plainSigma_prefix ascii_thinkWord]
  rfl

/-- The filter goes on reading. -/
def Undecided (L : Lowercase) (h : List Char) : Prop := looksThinking L h = false ∧ tells L h = false

theorem undecided_iff : Undecided L.toLowercase h ↔ images L h <+: thinkWord ∧ images L h ≠ thinkWord := by
  have hword : thinkWord.length = 6 := rfl
  rw [Undecided, Bool.eq_false_iff, Bool.eq_false_iff, ne_eq, ne_eq, looksThinking_iff, tells_iff, not_or, not_not]
  constructor
  · rintro ⟨hlooks, -, hhead⟩
    by_cases hshort : h.length ≤ 6
    · rw [List.take_of_length_le hshort] at hhead
      exact ⟨hhead, fun heq => hlooks (heq ▸ List.prefix_refl _)⟩
    · -- six characters fill the word
      have hlong := @length_le_images L (h.take 6)
      rw [List.length_take_of_le (by omega)] at hlong
      have hfull : images L (h.take 6) = thinkWord := List.IsPrefix.eq_of_length_le hhead (by omega)
      refine absurd ?_ hlooks
      rw [← List.take_append_drop 6 h, images_append, hfull]
      exact List.prefix_append _ _
  · rintro ⟨hhead, hne⟩
    have hlen := length_le_images (L := L) h
    have hlt : (images L h).length < 6 := by
      by_contra hge
      exact hne (List.IsPrefix.eq_of_length_le hhead (by omega))
    refine ⟨fun hlooks => ?_, by omega, ?_⟩
    · have hle := hlooks.length_le
      omega
    · rw [List.take_of_length_le (by omega)]
      exact hhead

theorem looksThinking_append (hlooks : looksThinking L.toLowercase h = true) (x : List Char) :
    looksThinking L.toLowercase (h ++ x) = true := by
  rw [looksThinking_iff] at hlooks ⊢
  rw [images_append]
  exact hlooks.trans (List.prefix_append _ _)

/-- A start that is a reasoning was one before, or could become one. -/
theorem looks_or_undecided (hlooks : looksThinking L.toLowercase (h ++ x) = true) :
    looksThinking L.toLowercase h = true ∨ Undecided L.toLowercase h := by
  rw [looksThinking_iff, images_append] at hlooks
  rw [looksThinking_iff, undecided_iff]
  by_cases hword : thinkWord <+: images L h
  · exact .inl hword
  · refine .inr ⟨?_, fun heq => hword (heq ▸ List.prefix_refl _)⟩
    exact (List.prefix_or_prefix_of_prefix hlooks (List.prefix_append _ _)).resolve_left hword

theorem undecided_of_append (hundecided : Undecided L.toLowercase (h ++ x)) : Undecided L.toLowercase h := by
  rw [undecided_iff, images_append] at hundecided
  rw [undecided_iff]
  obtain ⟨hhead, hne⟩ := hundecided
  refine ⟨(List.prefix_append _ _).trans hhead, fun heq => hne ?_⟩
  refine List.IsPrefix.eq_of_length_le hhead ?_
  rw [List.length_append, heq]
  exact Nat.le_add_right _ _

theorem decided_of_colon (rest : List Char) :
    looksThinking L.toLowercase (':' :: rest) = false ∧ tells L.toLowercase (':' :: rest) = true := by
  have hcolon : L.image ':' = [':'] := image_ascii (by decide) (by decide)
  have himages : ∀ t, images L (':' :: t) = ':' :: images L t := by
    intro t
    rw [images, List.flatMap_cons, hcolon]
    rfl
  have hword : thinkWord = '<' :: "think".toList := rfl
  constructor
  · rw [Bool.eq_false_iff, ne_eq, looksThinking_iff, himages, hword, List.cons_prefix_cons]
    exact fun h => absurd h.1 (by decide)
  · rw [tells_iff, List.take_succ_cons, himages, hword, List.cons_prefix_cons]
    exact .inr fun h => absurd h.1 (by decide)

end Start

/-! ## The first closing tag -/

theorem splitOnce_append {t a b : List Char} (h : splitOnce thinkEnd t = some (a, b)) (x : List Char) :
    splitOnce thinkEnd (t ++ x) = some (a, b ++ x) := by
  rw [splitOnce_eq_cut (by decide)] at h ⊢
  exact Framing.cut_append h x

/-! ## What is shown of given chunks -/

section Shown

variable {L : Lowercase} {text chunk before after : List Char} {rest : List (List Char)}

theorem shown_of_undecided {chunks : List (List Char)} (h : decision L [] chunks = none) :
    shown L chunks = chunks.flatten := by
  refine shown_undecided ?_
  rw [modeOf, h]

theorem feedAll_closing (hsplit : splitOnce thinkEnd (text ++ chunk) = some (before, after))
    (rest : List (List Char)) :
    Display.feedAll L ⟨true, true, [], text⟩ (chunk :: rest) =
      (⟨true, false, [], []⟩, (if trimStart after = [] then [] else [trimStart after]) ++ rest) := by
  simp only [Display.feedAll, Display.feed, if_true, hsplit]
  rw [feedAll_streaming rfl rfl]

theorem shown_closing (hlooks : looksThinking L (trimStart text) = true)
    (hsplit : splitOnce thinkEnd (text ++ chunk) = some (before, after)) (rest : List (List Char)) :
    shown L (text :: chunk :: rest) = trimStart after ++ rest.flatten := by
  have hfeed : Display.init.feedAll L (text :: chunk :: rest) =
      Display.feedAll L ⟨true, true, [], text⟩ (chunk :: rest) := by
    simp [Display.init, Display.feedAll, Display.feed, hlooks]
  simp only [shown, shownFrames, hfeed, feedAll_closing hsplit]
  split
  · next hnil => simp [hnil]
  · simp

theorem shown_whole (hlooks : looksThinking L (trimStart text) = true) : shown L [text] = cleanReply text := by
  have hmode : modeOf L [text] = .unclosed := by
    simp [modeOf, decision, hlooks]
  have hshown := (shown_unclosed hmode).1
  rwa [List.flatten_singleton] at hshown

theorem shown_telling (hlooks : looksThinking L (trimStart text) = false) (htells : tells L (trimStart text) = true)
    (rest : List (List Char)) :
    shown L (text :: rest) = trimStart ((trimStart text).dropWhile (· == ':')) ++ rest.flatten := by
  have hfeed : Display.init.feedAll L (text :: rest) =
      (⟨true, false, [], []⟩, trimStart ((trimStart text).dropWhile (· == ':')) :: rest) := by
    simp [Display.init, Display.feedAll, Display.feed, hlooks, htells, feedAll_streaming]
  simp [shown, shownFrames, hfeed]

theorem trimStart_eq_self_iff {t : List Char} :
    trimStart t = t ↔ ∀ c, t.head? = some c → pyIsSpace c = false := by
  cases t with
  | nil => exact iff_of_true rfl fun c h => absurd h (by simp)
  | cons d t =>
    constructor
    · intro htrim c hc
      cases hc
      by_contra hspace
      rw [Bool.not_eq_false] at hspace
      have hdrop : trimStart (d :: t) = t.dropWhile pyIsSpace := List.dropWhile_cons_of_pos hspace
      have hlen := congrArg List.length (hdrop.symm.trans htrim)
      have hle := (List.dropWhile_suffix pyIsSpace (l := t)).length_le
      rw [List.length_cons] at hlen
      omega
    · intro hhead
      exact List.dropWhile_cons_of_neg (by simp [hhead d rfl])

/-- White space in front would be in front of all that follows too. -/
theorem trimStart_of_append {t x : List Char} (h : trimStart (t ++ x) = t ++ x) : trimStart t = t := by
  rw [trimStart_eq_self_iff] at h ⊢
  intro c hc
  refine h c ?_
  rw [List.head?_append, hc]
  rfl

/-- A reasoning that is closed by a later chunk, with no white space behind. -/
theorem feedAll_hidden (hsplit : splitOnce thinkEnd (text ++ rest.flatten) = some (before, after)) (hne : rest ≠ [])
    (htrim : trimStart after = after) :
    ∃ frames, Display.feedAll L ⟨true, true, [], text⟩ rest = (⟨true, false, [], []⟩, frames) ∧
      frames.flatten = after := by
  induction rest generalizing text with
  | nil => exact absurd rfl hne
  | cons chunk rest ih =>
    rw [List.flatten_cons, ← List.append_assoc] at hsplit
    cases hfirst : splitOnce thinkEnd (text ++ chunk) with
    | some found =>
      obtain ⟨before', after'⟩ := found
      have hall := splitOnce_append hfirst rest.flatten
      rw [hsplit] at hall
      cases hall
      refine ⟨_, feedAll_closing hfirst rest, ?_⟩
      rw [trimStart_of_append htrim]
      split
      · next hnil => rw [hnil]; rfl
      · rfl
    | none =>
      have hrest : rest ≠ [] := by
        rintro rfl
        rw [List.flatten_nil, List.append_nil, hfirst] at hsplit
        cases hsplit
      obtain ⟨frames, hfeed, hframes⟩ := ih hsplit hrest
      refine ⟨frames, ?_, hframes⟩
      simp only [Display.feedAll, Display.feed, if_true, hfirst, hfeed, List.nil_append]

end Shown

/-! ## Steady answers -/

section Steady

variable {L : CharLowercase} {content text : List Char} {chunks rest : List (List Char)}

theorem trimStart_append (hne : trimStart text ≠ []) (x : List Char) :
    trimStart (text ++ x) = trimStart text ++ x :=
  dropWhile_append_of_solid (solid_of_trimStart hne)

theorem head_trimStart {c : Char} {t : List Char} (h : trimStart text = c :: t) : pyIsSpace c = false := by
  have hdrop : text.dropWhile pyIsSpace = c :: t := h
  have hnot := List.head_dropWhile_not pyIsSpace (l := text) (by rw [hdrop]; exact List.cons_ne_nil _ _)
  simpa [hdrop] using hnot

theorem undecided_of_decision {pending : List Char} (h : decision L.toLowercase pending chunks = none)
    (hpending : Undecided L.toLowercase (trimStart pending)) :
    Undecided L.toLowercase (trimStart (pending ++ chunks.flatten)) := by
  induction chunks generalizing pending with
  | nil =>
    rw [List.flatten_nil, List.append_nil]
    exact hpending
  | cons chunk chunks ih =>
    rw [decision] at h
    split at h
    · cases h
    · next hnot =>
        rw [Bool.or_eq_true, not_or, Bool.not_eq_true, Bool.not_eq_true] at hnot
        have hrest := ih h hnot
        rwa [List.append_assoc] at hrest

theorem undecided_nil : Undecided L.toLowercase [] :=
  undecided_iff.2 ⟨List.nil_prefix, show ([] : List Char) ≠ thinkWord by decide⟩

theorem shown_never_closed (hd : decision L.toLowercase [] chunks = some (text, rest))
    (hlooks : looksThinking L.toLowercase (trimStart text) = true)
    (hnot : ¬ (rest ≠ [] ∧ contains (text ++ rest.flatten) thinkEnd = true)) :
    shown L.toLowercase chunks = cleanReply chunks.flatten := by
  refine (shown_unclosed ?_).1
  simp only [modeOf, hd]
  rw [if_pos hlooks, if_neg hnot]

/-- Of a steady answer one colon at most is dropped, from whatever is held. -/
theorem colon_dropped {x : List Char} (hsteady : Steady L.toLowercase content)
    (hhead : trimStart content = trimStart text ++ x) (hne : trimStart text ≠ []) :
    trimStart ((trimStart text).dropWhile (· == ':')) ++ x =
      if (trimStart content).head? = some ':' then (trimStart content).tail else trimStart content := by
  obtain ⟨c, t, hct⟩ := List.exists_cons_of_ne_nil hne
  rw [hct] at hhead
  rw [hct, hhead]
  by_cases hc : c = ':'
  · subst hc
    obtain ⟨hno, htrim⟩ := hsteady.2 (t ++ x) hhead
    have hdrop : (':' :: t).dropWhile (· == ':') = t := by
      rw [List.dropWhile_cons_of_pos (by decide)]
      cases t with
      | nil => rfl
      | cons d t =>
        refine List.dropWhile_cons_of_neg ?_
        simpa using hno
    rw [hdrop, trimStart_of_append htrim]
    rfl
  · have hdrop : (c :: t).dropWhile (· == ':') = c :: t := List.dropWhile_cons_of_neg (by simpa using hc)
    have hsame : trimStart (c :: t) = c :: t := List.dropWhile_cons_of_neg (by simp [head_trimStart hct])
    rw [hdrop, hsame, if_neg (by simpa using hc)]

theorem shown_of_steady (hsteady : Steady L.toLowercase content) (hcut : chunks.flatten = content) :
    shown L.toLowercase chunks = steadily L.toLowercase content := by
  have hfeed := @feedAll_of_decision L.toLowercase [] [] chunks
  cases hd : decision L.toLowercase [] chunks with
  | none =>
    obtain ⟨hlooks, htells⟩ := undecided_of_decision hd undecided_nil
    rw [List.nil_append, hcut] at hlooks htells
    rw [shown_of_undecided hd, hcut, steadily]
    simp [hlooks, htells]
  | some found =>
    obtain ⟨text, rest⟩ := found
    rw [hd] at hfeed
    obtain ⟨htext, hdecided, hfeed⟩ := hfeed
    rw [List.nil_append, hcut] at htext
    have hne := head_ne_nil hdecided
    have hhead : trimStart content = trimStart text ++ rest.flatten := by
      rw [htext, trimStart_append hne]
    by_cases hlooks : looksThinking L.toLowercase (trimStart text) = true
    · have hall : looksThinking L.toLowercase (trimStart content) = true := by
        rw [hhead]
        exact looksThinking_append hlooks _
      have hsteadily : steadily L.toLowercase content =
          ((splitOnce thinkEnd content).map Prod.snd).getD (cleanReply content) := if_pos hall
      rw [hsteadily]
      rw [if_pos hlooks] at hfeed
      cases hsplit : splitOnce thinkEnd content with
      | none =>
        have hnot : ¬ (rest ≠ [] ∧ contains (text ++ rest.flatten) thinkEnd = true) := by
          rintro ⟨-, hclosed⟩
          rw [← htext] at hclosed
          exact splitOnce_eq_none.1 hsplit (of_decide_eq_true hclosed)
        rw [shown_never_closed hd hlooks hnot, hcut]
        rfl
      | some found =>
        obtain ⟨before, after⟩ := found
        obtain ⟨htrim, hclean⟩ := hsteady.1 hall before after hsplit
        by_cases hrest : rest = []
        · rw [shown_never_closed hd hlooks fun h => h.1 hrest, hcut]
          exact hclean
        · rw [htext] at hsplit
          obtain ⟨frames, hhidden, hframes⟩ := feedAll_hidden (L := L.toLowercase) hsplit hrest htrim
          have hshown : shown L.toLowercase chunks = frames.flatten := by
            simp [shown, shownFrames, Display.init, hfeed, hhidden]
          exact hshown.trans hframes
    · have htells := hdecided.resolve_left hlooks
      rw [if_neg hlooks] at hfeed
      rw [Bool.not_eq_true] at hlooks
      -- the whole does not look like a reasoning either, and it tells
      have hall : looksThinking L.toLowercase (trimStart content) = false := by
        refine Bool.eq_false_iff.2 fun h => ?_
        rw [hhead] at h
        rcases looks_or_undecided h with h | h
        · exact absurd (h.symm.trans hlooks) (by decide)
        · exact absurd (htells.symm.trans h.2) (by decide)
      have htellsAll : tells L.toLowercase (trimStart content) = true := by
        by_contra hnot
        rw [Bool.not_eq_true] at hnot
        have hwhole : Undecided L.toLowercase (trimStart content) := ⟨hall, hnot⟩
        rw [hhead] at hwhole
        exact absurd (htells.symm.trans (undecided_of_append hwhole).2) (by decide)
      have hshown : shown L.toLowercase chunks =
          trimStart ((trimStart text).dropWhile (· == ':')) ++ rest.flatten := by
        simp [shown, shownFrames, Display.init, hfeed]
      rw [hshown, steadily, hall, htellsAll]
      exact colon_dropped hsteady hhead hne

/-! ## Answers that depend on their chunks -/

theorem parts_of_split {before after : List Char} (hsplit : splitOnce thinkEnd content = some (before, after)) :
    content = before ++ "</think".toList ++ '>' :: after := by
  have htag : thinkEnd = "</think".toList ++ ['>'] := rfl
  rw [splitOnce_eq_some hsplit, htag]
  simp only [List.append_assoc, List.singleton_append]

/-- What looks like a reasoning does so before the closing tag is complete. -/
theorem looks_before {before after : List Char} (hlooks : looksThinking L.toLowercase (trimStart content) = true)
    (hsplit : splitOnce thinkEnd content = some (before, after)) :
    looksThinking L.toLowercase (trimStart (before ++ "</think".toList)) = true := by
  have hslash : '/' ∈ trimStart (before ++ "</think".toList) := by
    rw [trimStart, List.dropWhile_append]
    split
    · decide
    · exact List.mem_append_right _ (by decide)
  have hhead := trimStart_append (List.ne_nil_of_mem hslash) ('>' :: after)
  rw [parts_of_split hsplit, hhead] at hlooks
  refine (looks_or_undecided hlooks).resolve_right fun hundecided => ?_
  have himage : '/' ∈ images L (trimStart (before ++ "</think".toList)) := by
    refine List.mem_flatMap.2 ⟨'/', hslash, ?_⟩
    rw [image_ascii (by decide) (by decide)]
    exact List.mem_singleton_self _
  have hword := (undecided_iff.1 hundecided).1.subset himage
  exact absurd hword (by decide)

theorem exists_cut (t : List Char) : ∃ chunks, Cut t chunks := by
  by_cases hnil : t = []
  · exact ⟨[], hnil ▸ rfl, fun _ h => absurd h List.not_mem_nil⟩
  · refine ⟨[t], List.flatten_singleton, fun chunk h => ?_⟩
    rwa [List.mem_singleton.1 h]

theorem cut_singleton (hne : content ≠ []) : Cut content [content] := by
  refine ⟨List.flatten_singleton, fun chunk h => ?_⟩
  rwa [List.mem_singleton.1 h]

theorem Cut.cons {t : List Char} (hne : text ≠ []) (hcut : Cut t chunks) : Cut (text ++ t) (text :: chunks) := by
  refine ⟨?_, List.forall_mem_cons.2 ⟨hne, hcut.ne_nil⟩⟩
  rw [List.flatten_cons, hcut.flatten]

/-- The closing tag comes in the only chunk, is completed by a chunk of its own, or by the chunk of
all that follows. -/
theorem steady_of_closed {before after : List Char}
    (hsame : ∀ a b, Cut content a → Cut content b → shown L.toLowercase a = shown L.toLowercase b)
    (hlooks : looksThinking L.toLowercase (trimStart content) = true)
    (hsplit : splitOnce thinkEnd content = some (before, after)) :
    trimStart after = after ∧ cleanReply content = after := by
  have hparts := parts_of_split hsplit
  have hbefore := looks_before hlooks hsplit
  have hne : before ++ "</think".toList ≠ [] := List.append_ne_nil_of_right_ne_nil _ (by decide)
  obtain ⟨chunks, hcut⟩ := exists_cut after
  have hwhole : Cut content [content] := by
    refine cut_singleton ?_
    rw [hparts]
    exact List.append_ne_nil_of_left_ne_nil hne _
  have hlate : Cut content [before ++ "</think".toList, '>' :: after] := by
    rw [hparts]
    exact (cut_singleton (List.cons_ne_nil _ _)).cons hne
  have hearly : Cut content ((before ++ "</think".toList) :: ['>'] :: chunks) := by
    rw [hparts]
    exact (hcut.cons (List.cons_ne_nil '>' [])).cons hne
  have hsplitLate : splitOnce thinkEnd (before ++ "</think".toList ++ '>' :: after) = some (before, after) := by
    rw [← hparts]
    exact hsplit
  have hsplitEarly : splitOnce thinkEnd (before ++ "</think".toList ++ ['>']) = some (before, []) := by
    have htag : before ++ "</think".toList ++ ['>'] = before ++ thinkEnd := List.append_assoc _ _ _
    rw [splitOnce_eq_some hsplit, splitOnce_eq_cut (by decide)] at hsplit
    rw [htag, splitOnce_eq_cut (by decide)]
    exact Framing.cut_self (by decide) hsplit
  have hshownLate := shown_closing hbefore hsplitLate []
  have hshownEarly := shown_closing hbefore hsplitEarly chunks
  rw [hcut.flatten] at hshownEarly
  rw [List.flatten_nil, List.append_nil] at hshownLate
  have hearly' : shown L.toLowercase ((before ++ "</think".toList) :: ['>'] :: chunks) = after := hshownEarly
  constructor
  · exact hshownLate.symm.trans ((hsame _ _ hlate hearly).trans hearly')
  · rw [← shown_whole hlooks, hsame _ _ hwhole hearly, hearly']

theorem steady_of_colon {t : List Char}
    (hsame : ∀ a b, Cut content a → Cut content b → shown L.toLowercase a = shown L.toLowercase b)
    (hcolon : trimStart content = ':' :: t) : t.head? ≠ some ':' ∧ trimStart t = t := by
  by_cases hnil : t = []
  · subst hnil
    exact ⟨by decide, rfl⟩
  · have hdecided := @decided_of_colon L
    have hsplit : content = content.takeWhile pyIsSpace ++ [':'] ++ t := by
      have hall := List.takeWhile_append_dropWhile (p := pyIsSpace) (l := content)
      rw [← trimStart, hcolon] at hall
      rw [List.append_assoc]
      exact hall.symm
    have halone : trimStart (content.takeWhile pyIsSpace ++ [':']) = [':'] :=
      List.dropWhile_append_of_pos fun c hc => List.mem_takeWhile_imp hc
    have hne : content.takeWhile pyIsSpace ++ [':'] ≠ [] := List.append_ne_nil_of_right_ne_nil _ (by decide)
    have hcut : Cut content [content.takeWhile pyIsSpace ++ [':'], t] := by
      have hcons := (cut_singleton hnil).cons hne
      rwa [← hsplit] at hcons
    have hwhole : Cut content [content] := by
      refine cut_singleton fun h => ?_
      rw [h] at hcolon
      cases hcolon
    have hshownCut : shown L.toLowercase [content.takeWhile pyIsSpace ++ [':'], t] = t := by
      rw [shown_telling (by rw [halone]; exact (hdecided []).1) (by rw [halone]; exact (hdecided []).2), halone]
      exact List.flatten_singleton
    have hshownWhole : shown L.toLowercase [content] = trimStart (t.dropWhile (· == ':')) := by
      rw [shown_telling (by rw [hcolon]; exact (hdecided t).1) (by rw [hcolon]; exact (hdecided t).2), hcolon,
        List.flatten_nil, List.append_nil]
      rfl
    have heq : trimStart (t.dropWhile (· == ':')) = t := by
      rw [← hshownWhole, hsame _ _ hwhole hcut, hshownCut]
    have hno : t.head? ≠ some ':' := by
      intro hhead
      obtain ⟨u, rfl⟩ : ∃ u, t = ':' :: u := by
        cases t with
        | nil => cases hhead
        | cons c u =>
          cases hhead
          exact ⟨u, rfl⟩
      -- two colons are dropped together
      have hlen := congrArg List.length heq
      have htrim := (List.dropWhile_suffix pyIsSpace (l := (':' :: u).dropWhile (· == ':'))).length_le
      have hdrop := (List.dropWhile_suffix (· == ':') (l := u)).length_le
      rw [← trimStart, List.dropWhile_cons_of_pos (by decide)] at htrim
      rw [List.dropWhile_cons_of_pos (by decide), List.length_cons] at hlen
      omega
    refine ⟨hno, ?_⟩
    have hsame : t.dropWhile (· == ':') = t := by
      cases t with
      | nil => rfl
      | cons c u =>
        refine List.dropWhile_cons_of_neg ?_
        simpa using hno
    rwa [hsame] at heq

/-- For every answer: what is shown of it is the same for any two ways of cutting it into chunks,
exactly if it is steady. -/
theorem chunks_irrelevant_iff (L : CharLowercase) (content : List Char) :
    (∀ a b, Cut content a → Cut content b → shown L.toLowercase a = shown L.toLowercase b) ↔
      Steady L.toLowercase content := by
  constructor
  · intro hsame
    constructor
    · intro hlooks before after hsplit
      exact steady_of_closed hsame hlooks hsplit
    · intro rest hcolon
      exact steady_of_colon hsame hcolon
  · intro hsteady a b ha hb
    rw [shown_of_steady hsteady ha.flatten, shown_of_steady hsteady hb.flatten]

/-- The empty line behind a reasoning is dropped in the chunk that closes it, and shown in the next. -/
theorem not_chunks_irrelevant_reasoning :
    ¬ ∀ content a b, Cut content a → Cut content b → shown asciiLowercase a = shown asciiLowercase b := by
  intro hsame
  have hone : Cut "<think>hm</think>\n\nOui".toList ["<think>hm".toList, "</think>\n\nOui".toList] :=
    ⟨by decide, by decide⟩
  have htwo : Cut "<think>hm</think>\n\nOui".toList ["<think>hm".toList, "</think>".toList, "\n\nOui".toList] :=
    ⟨by decide, by decide⟩
  have hshown := hsame _ _ _ hone htwo
  revert hshown
  decide

end Steady

end Portal.Support
