import DgxPlatform.Lib.Multipart
import DgxPlatform.Lib.Replace

/-! # The renamed field of a form

The transcription route rewrites the bytes of the form it passes on, so that the part its
callers name `file` has the name the sidecar reads.

* `renameMultipartField_eq`: the loop replaces a word.
* `readParam_rename`: a parameter with the word in it is one whose value is the old name.
-/

namespace Portal.Media

open Multipart Replace

/-! ## The rewrite -/

/-- The search from `i` on. -/
def renameLoop (body needle replacement : Octets) : Nat → Nat → Octets → Octets
  | 0, _, out => out
  | fuel + 1, i, out =>
      if h : i < body.length then
        if needle <+: body.drop i then
          renameLoop body needle replacement fuel (i + needle.length) (out ++ replacement)
        else renameLoop body needle replacement fuel (i + 1) (out ++ [body[i]])
      else out

/-- `name="…"`, what is searched and what is written. -/
def quotedName (name : Octets) : Octets := ascii "name=\"".toList ++ name ++ [quote]

def renameMultipartField (body oldName newName : Octets) : Octets :=
  renameLoop body (quotedName oldName) (quotedName newName) body.length 0 []

/-- The two names of `v1_transcriptions`. -/
def file : Octets := ascii "file".toList
def audio : Octets := ascii "audio".toList

theorem renameLoop_eq {needle : Octets} (hne : needle ≠ []) (body replacement : Octets) (fuel i : Nat)
    (out : Octets) (hfuel : body.length ≤ i + fuel) :
    renameLoop body needle replacement fuel i out =
      out ++ replace needle replacement (body.drop i) := by
  induction fuel generalizing i out with
  | zero =>
    rw [List.drop_eq_nil_of_le (by omega)]
    simp [renameLoop]
  | succ fuel ih =>
    rw [renameLoop]
    split
    · next hi =>
        split
        · next hp =>
            have hpos := List.length_pos_iff.2 hne
            obtain ⟨rest, hrest⟩ := hp
            have hdrop : body.drop (i + needle.length) = rest := by
              rw [← List.drop_drop, ← hrest]
              simp
            rw [ih _ _ (by omega), hdrop, ← hrest, replace_word hne, List.append_assoc]
        · next hp =>
            rw [ih _ _ (by omega)]
            rw [List.drop_eq_getElem_cons hi] at hp ⊢
            rw [replace_cons hp]
            simp
    · next hi =>
        rw [List.drop_eq_nil_of_le (by omega)]
        simp

/-- What the rewrite makes of any piece of the body. -/
def rewritten (t : Octets) : Octets := replace (quotedName file) (quotedName audio) t

theorem quotedName_ne_nil (name : Octets) : quotedName name ≠ [] := by
  simp [quotedName]

theorem renameMultipartField_eq (body : Octets) : renameMultipartField body file audio = rewritten body := by
  rw [renameMultipartField, renameLoop_eq (quotedName_ne_nil file) _ _ _ _ _ (by omega)]
  rfl

/-! ## What a form should become -/

def renamedParam (p : Param) : Param :=
  if p.IsName ∧ p.value = file then { p with value := audio } else p

def renamedHeader : Header → Header
  | .disposition ps => .disposition (ps.map renamedParam)
  | .other name value => .other name value

/-- The part with its name changed from `file` to `audio`, if it has that name. -/
def renamedPart (p : Part) : Part := { p with headers := p.headers.map renamedHeader }

/-! ## Where the rewrite does nothing -/

section Pieces

variable {t s l : Octets} {ls : List Octets}

theorem rewritten_eq_self_iff : rewritten t = t ↔ ¬ quotedName file <:+: t :=
  replace_eq_self_iff (quotedName_ne_nil file) (by decide)

theorem quote_mem_of_word (h : quotedName file <:+: t) : quote ∈ t := h.subset (by decide)

theorem rewritten_of_no_quote (h : quote ∉ t) : rewritten t = t :=
  rewritten_eq_self_iff.2 fun hin => h (quote_mem_of_word hin)

theorem quote_mem_rewritten (t : Octets) : quote ∈ rewritten t ↔ quote ∈ t := by
  unfold rewritten
  induction t using word_induction (quotedName_ne_nil file) with
  | nil => rfl
  | word t _ =>
    rw [replace_word (quotedName_ne_nil file), List.mem_append, List.mem_append]
    constructor
    · intro _
      exact Or.inl (by decide)
    · intro _
      exact Or.inl (by decide)
  | other c t h ih => rw [replace_cons h, List.mem_cons, List.mem_cons, ih]

theorem rewritten_eq_nil_iff (t : Octets) : rewritten t = [] ↔ t = [] := by
  constructor
  · intro h
    have hle : t.length ≤ (rewritten t).length :=
      length_replace_le (quotedName_ne_nil file) (by decide) t
    rw [h] at hle
    exact List.length_eq_zero_iff.1 (Nat.le_zero.1 hle)
  · rintro rfl
    rfl

theorem isEmpty_rewritten (t : Octets) : (rewritten t).isEmpty = t.isEmpty := by
  rw [Bool.eq_iff_iff, List.isEmpty_iff, List.isEmpty_iff, rewritten_eq_nil_iff]

theorem rewritten_append_cons {c : UInt8} (h : c ∉ quotedName file) (s t : Octets) :
    rewritten (s ++ c :: t) = rewritten s ++ c :: rewritten t :=
  replace_append_cons (quotedName_ne_nil file) h s t

theorem rewritten_cons {c : UInt8} (h : c ∉ quotedName file) (t : Octets) :
    rewritten (c :: t) = c :: rewritten t := rewritten_append_cons h [] t

theorem quotedName_eq (name : Octets) :
    quotedName name = ascii "name=".toList ++ quote :: (name ++ [quote]) := rfl

theorem prefix_rewritten_iff (h : quote ∉ s) (t : Octets) : s <+: rewritten t ↔ s <+: t :=
  prefix_replace_iff (quotedName_eq file) (quotedName_eq audio) h t

theorem split_rewritten (t : Octets) :
    Framing.split crlf (rewritten t) = (Framing.split crlf t).map rewritten :=
  split_replace (quotedName_eq file) (quotedName_eq audio) (by decide) (by decide +kernel) t

/-! ## Boundary lines -/

theorem quote_not_mem_of_blank (h : s.all isBlank = true) : quote ∉ s := fun hmem =>
  absurd (List.all_eq_true.1 h quote hmem) (by decide)

variable {mark : Octets}

theorem quote_not_mem_of_opens (hmark : quote ∉ mark) (hl : mark <+: l)
    (h : opens mark l = true) : quote ∉ l := by
  obtain ⟨rest, rfl⟩ := hl
  rw [opens, List.drop_left] at h
  rw [List.mem_append, not_or]
  exact ⟨hmark, quote_not_mem_of_blank h⟩

theorem quote_not_mem_of_closes (hmark : quote ∉ mark) (hl : mark <+: l)
    (h : closes mark l = true) : quote ∉ l := by
  obtain ⟨rest, rfl⟩ := hl
  rw [closes, Bool.and_eq_true, decide_eq_true_eq, ← List.drop_drop, List.drop_left] at h
  obtain ⟨⟨pad, rfl⟩, hpad⟩ := h
  have hquote : quote ∉ pad := quote_not_mem_of_blank hpad
  simp only [List.mem_append, not_or]
  exact ⟨hmark, by decide, hquote⟩

/-- A line that says something is not rewritten, one that is rewritten says nothing. -/
theorem boundaryLine_rewritten (hmark : quote ∉ mark) (hl : mark <+: l) :
    opens mark (rewritten l) = opens mark l ∧ closes mark (rewritten l) = closes mark l := by
  have hl' : mark <+: rewritten l := (prefix_rewritten_iff hmark l).2 hl
  by_cases hq : quote ∈ l
  · have hq' := (quote_mem_rewritten l).2 hq
    constructor
    · rw [Bool.eq_false_iff.2 fun h => quote_not_mem_of_opens hmark hl h hq,
        Bool.eq_false_iff.2 fun h => quote_not_mem_of_opens hmark hl' h hq']
    · rw [Bool.eq_false_iff.2 fun h => quote_not_mem_of_closes hmark hl h hq,
        Bool.eq_false_iff.2 fun h => quote_not_mem_of_closes hmark hl' h hq']
  · rw [rewritten_of_no_quote hq]
    exact ⟨rfl, rfl⟩

theorem quote_not_mem_mark (b : Boundary) : quote ∉ b.mark := by
  rw [Boundary.mark, List.mem_append, not_or]
  exact ⟨by decide, fun h => absurd (b.valid quote h) (by decide)⟩

theorem mark_of_mem_sections {p : Octets × List Octets} (h : p ∈ (sections mark ls).2) : mark <+: p.1 := by
  induction ls with
  | nil => cases h
  | cons l ls ih =>
    rw [sections] at h
    split at h
    · next hl =>
        rcases List.mem_cons.1 h with rfl | h
        · exact hl
        · exact ih h
    · exact ih h

theorem sections_rewritten (hmark : quote ∉ mark) (ls : List Octets) : sections mark (ls.map rewritten) =
      ((sections mark ls).1.map rewritten,
        (sections mark ls).2.map fun p => (rewritten p.1, p.2.map rewritten)) := by
  induction ls with
  | nil => rfl
  | cons l ls ih =>
    rw [List.map_cons, sections, sections, ih]
    simp only [prefix_rewritten_iff hmark]
    split
    · rfl
    · rfl

/-! ## Parts as they are written -/

theorem rewritten_append_of_blank (h : t.head?.any isBlank = true) (s : Octets) :
    rewritten (s ++ t) = rewritten s ++ rewritten t := by
  cases t with
  | nil => cases h
  | cons c t =>
    have hc : c ∉ quotedName file := by
      intro hmem
      have hall : ∀ x ∈ quotedName file, isBlank x = false := by decide +kernel
      rw [List.head?_cons, Option.any_some, hall c hmem] at h
      cases h
    rw [rewritten_append_cons hc, rewritten_cons hc]

/-- The rewrite neither makes nor takes away a blank at the front. -/
theorem head_rewritten (t : Octets) : (rewritten t).head?.any isBlank = t.head?.any isBlank := by
  cases t with
  | nil => rfl
  | cons c t =>
    by_cases hp : quotedName file <+: c :: t
    · obtain ⟨rest, hrest⟩ := hp
      rw [← hrest, rewritten, replace_word (quotedName_ne_nil file)]
      rfl
    · rw [rewritten, replace_cons hp]
      rfl

theorem headI_map_rewritten (ls : List Octets) : (ls.map rewritten).headI = rewritten ls.headI := by
  cases ls with
  | nil => rfl
  | cons l ls => rfl

theorem unfoldLines_rewritten (ls : List Octets) :
    unfoldLines (ls.map rewritten) = (unfoldLines ls).map rewritten := by
  induction ls with
  | nil => rfl
  | cons l ls ih =>
    rw [List.map_cons, unfoldLines_cons, unfoldLines_cons, ih, joinFold, joinFold,
      headI_map_rewritten, head_rewritten]
    split
    · next h =>
        rw [List.map_cons, rewritten_append_of_blank h, List.map_tail]
    · rfl

theorem rewritten_crlf (s t : Octets) :
    rewritten (s ++ (crlf ++ t)) = rewritten s ++ (crlf ++ rewritten t) := by
  have hcr : (13 : UInt8) ∉ quotedName file := by decide
  have hlf : (10 : UInt8) ∉ quotedName file := by decide
  show rewritten (s ++ 13 :: 10 :: t) = rewritten s ++ 13 :: 10 :: rewritten t
  rw [rewritten_append_cons hcr, rewritten_cons hlf]

theorem rewritten_intercalate (ls : List Octets) :
    rewritten (crlf.intercalate ls) = crlf.intercalate (ls.map rewritten) := by
  induction ls with
  | nil => rfl
  | cons l ls ih =>
    cases ls with
    | nil => simp
    | cons l' ls =>
      rw [List.intercalate_cons_cons, List.append_assoc, rewritten_crlf, ih, List.map_cons,
        List.map_cons, List.map_cons, List.intercalate_cons_cons, List.append_assoc]

def rewrittenRaw (p : RawPart) : RawPart := ⟨p.lines.map rewritten, rewritten p.data⟩

theorem rawPart_rewritten (ls : List Octets) : rawPart (ls.map rewritten) = (rawPart ls).map rewrittenRaw := by
  have hmem : [] ∈ ls.map rewritten ↔ [] ∈ ls := by
    simp only [List.mem_map, rewritten_eq_nil_iff]
    simp
  have hempty : (fun l : Octets => !l.isEmpty) ∘ rewritten = fun l => !l.isEmpty := by
    funext l
    simp only [Function.comp, isEmpty_rewritten]
  rw [rawPart, rawPart]
  by_cases h : [] ∈ ls
  · rw [if_pos h, if_pos (hmem.2 h), List.takeWhile_map, List.dropWhile_map, hempty, ← List.map_tail,
      unfoldLines_rewritten, ← rewritten_intercalate]
    rfl
  · rw [if_neg h, if_neg fun h' => h (hmem.1 h')]
    rfl

theorem rawParts_rewritten (hmark : quote ∉ mark) {ps : List (Octets × List Octets)}
    (h : ∀ p ∈ ps, mark <+: p.1) :
    rawParts mark (ps.map fun p => (rewritten p.1, p.2.map rewritten)) =
      (rawParts mark ps).map (List.map rewrittenRaw) := by
  induction ps with
  | nil => rfl
  | cons p ps ih =>
    rw [List.forall_mem_cons] at h
    have hline := boundaryLine_rewritten hmark h.1
    rw [List.map_cons, rawParts, rawParts, hline.1, hline.2, rawPart_rewritten, ih h.2]
    split
    · rfl
    · split
      · cases rawPart p.2 with
        | none => rfl
        | some q => cases rawParts mark ps <;> rfl
      · rfl

/-- The renamed body has the parts of the body, each of them rewritten. -/
theorem layout_rename (b : Boundary) (body : Octets) :
    layout b (renameMultipartField body file audio) = (layout b body).map (List.map rewrittenRaw) := by
  rw [renameMultipartField_eq, layout, layout, split_rewritten,
    sections_rewritten (quote_not_mem_mark b)]
  exact rawParts_rewritten (quote_not_mem_mark b) fun p hp => mark_of_mem_sections hp

end Pieces

/-! ## Lists that are read element by element -/

/-- What is read from changed elements is what was read, changed, if it is so for each. -/
theorem mapM_map_iff {α β : Type*} {f : α → Option β} {g : α → α} {h : β → β} {P : α → Prop}
    {xs : List α} {ys : List β} (hread : xs.mapM f = some ys)
    (hone : ∀ x ∈ xs, ∀ y, f x = some y → (f (g x) = some (h y) ↔ P x)) :
    (xs.map g).mapM f = some (ys.map h) ↔ ∀ x ∈ xs, P x := by
  induction xs generalizing ys with
  | nil =>
    rw [List.mapM_nil] at hread
    cases hread
    simp
  | cons x xs ih =>
    rw [List.forall_mem_cons] at hone
    obtain ⟨y, hy, hread⟩ := Option.bind_eq_some_iff.1 (List.mapM_cons.symm.trans hread)
    obtain ⟨ys', hys, heq⟩ := Option.bind_eq_some_iff.1 hread
    cases heq
    rw [List.map_cons, List.map_cons, List.forall_mem_cons, ← hone.1 y hy, ← ih hys hone.2,
      List.mapM_cons]
    cases f (g x) with
    | none => simp
    | some y' => cases (xs.map g).mapM f <;> simp

/-! ## Parameters -/

section Params

variable {t s seg value : Octets} {p : Param}

theorem semicolon_not_mem : semicolon ∉ quotedName file ∧ semicolon ∉ quotedName audio := by decide

theorem run_words (m : Mode) : (quotedName file).foldl Mode.next m = (quotedName audio).foldl Mode.next m := by
  cases m with
  | plain => decide
  | quoted => decide
  | escaped => decide

theorem segments_rewritten (m : Mode) (t : Octets) :
    segments m (rewritten t) = (segments m t).map rewritten := by
  unfold rewritten
  induction t using word_induction (quotedName_ne_nil file) generalizing m with
  | nil => cases m <;> rfl
  | word t ih =>
    rw [replace_word (quotedName_ne_nil file), segments_append semicolon_not_mem.1,
      segments_append semicolon_not_mem.2, run_words, ih]
    show _ = rewritten _ :: List.map rewritten _
    rw [rewritten, replace_word (quotedName_ne_nil file), List.map_tail]
    exact congrArg (· :: _) (congrArg (_ ++ ·) (headI_map_rewritten _))
  | other c t h ih =>
    rw [replace_cons h, segments, segments]
    split
    · rw [ih]
      rfl
    · -- the piece is a beginning of the text, so no word begins with `c` in it
      have hpre : c :: (segments (m.next c) t).headI <+: c :: t := by
        rw [List.cons_prefix_cons]
        exact ⟨rfl, headI_segments_prefix _ t⟩
      rw [ih, List.map_cons, replace_cons fun hp => h (hp.trans hpre), List.map_tail]
      exact congrArg (fun l => (c :: l) :: _) (headI_map_rewritten _)

theorem quote_not_mem_of_isToken (h : isToken t = true) : quote ∉ t := by
  intro hmem
  rw [isToken, Bool.and_eq_true] at h
  exact absurd (List.all_eq_true.1 h.2 quote hmem) (by decide)

theorem quote_not_mem_of_trim (h : quote ∉ trim t) : quote ∉ t := fun hmem =>
  h (mem_trim (by decide) hmem)

/-- A text that holds a text and ends in pieces without its quote. -/
theorem exists_of_append_eq {u z q b : Octets} (hb : quote ∉ b)
    (h : u ++ quote :: z = q ++ b) : ∃ q', q = u ++ quote :: q' ∧ z = q' ++ b := by
  rcases List.append_eq_append_iff.1 h with ⟨rest, rfl, hrest⟩ | ⟨rest, -, rfl⟩
  · cases rest with
    | nil =>
      rw [List.nil_append] at hrest
      rw [← hrest] at hb
      exact absurd List.mem_cons_self hb
    | cons c rest =>
      rw [List.cons_append, List.cons.injEq] at hrest
      rw [← hrest.1]
      exact ⟨rest, rfl, hrest.2⟩
  · exact absurd (List.mem_append_right rest List.mem_cons_self) hb

theorem exists_of_word (hread : readParam seg = some p) (hin : quotedName file <:+: seg) :
    ∃ front z, seg = front ++ (quotedName file ++ z) ∧ quote ∉ front ∧ equals ∉ front ∧
      z.all isBlank = true ∧ p.key = trim (front ++ ascii "name".toList) ∧ p.value = file := by
  obtain ⟨⟨k, v⟩, hcut, hread⟩ := Option.bind_eq_some_iff.1 hread
  have hseg : seg = k ++ equals :: v := by simpa using Framing.eq_of_cut hcut
  have hk : equals ∉ k := Framing.not_mem_of_cut hcut
  split at hread
  · next htoken =>
      obtain ⟨value, hvalue, rfl⟩ := Option.map_eq_some_iff.1 hread
      have hkq : quote ∉ k := quote_not_mem_of_trim (quote_not_mem_of_isToken htoken)
      rw [readValue] at hvalue
      split at hvalue
      · next hhead =>
          obtain ⟨pre, post, hv, hpre, hpost⟩ := exists_trim v
          obtain ⟨q, hq⟩ : ∃ q, trim v = quote :: q := by
            cases ht : trim v with
            | nil => rw [ht] at hhead; cases hhead
            | cons c q =>
              rw [ht, List.head?_cons, Option.some.injEq] at hhead
              rw [hhead]
              exact ⟨q, rfl⟩
          rw [hq, List.tail_cons] at hvalue
          have hpq : quote ∉ post := quote_not_mem_of_blank hpost
          have hfront : quote ∉ k ++ equals :: pre := by
            simp only [List.mem_append, List.mem_cons, not_or]
            exact ⟨hkq, by decide, quote_not_mem_of_blank hpre⟩
          obtain ⟨s, r, hocc⟩ := hin
          have hwhole : (s ++ ascii "name=".toList) ++ quote :: (file ++ quote :: r) =
              (k ++ equals :: pre) ++ quote :: (q ++ post) := by
            calc (s ++ ascii "name=".toList) ++ quote :: (file ++ quote :: r)
                = s ++ quotedName file ++ r := by simp [quotedName_eq]
              _ = seg := hocc
              _ = (k ++ equals :: pre) ++ quote :: (q ++ post) := by rw [hseg, hv, hq]; simp
          by_cases hs : quote ∈ s
          · -- a quote inside would be behind the equals sign, so it would close the text
            exfalso
            obtain ⟨s₁, s₂, rfl, hs₁⟩ := List.eq_append_cons_of_mem hs
            have hlater : s₂ ++ ascii "name=".toList ++ quote :: (file ++ quote :: r) = q ++ post := by
              refine (Framing.eq_of_first hs₁ hfront ?_).2
              simpa using hwhole
            obtain ⟨q', hq', hrest⟩ := exists_of_append_eq hpq hlater
            have htext : q = s₂ ++ ascii "name".toList ++ equals :: quote :: q' := by
              rw [hq']
              simp [ascii, equals]
            have hnil : q' = [] := by
              rw [htext] at hvalue
              exact eq_nil_of_unquote hvalue
            rw [hnil, List.nil_append] at hrest
            apply hpq
            rw [← hrest]
            simp
          · have hname : quote ∉ s ++ ascii "name=".toList := by
              rw [List.mem_append, not_or]
              exact ⟨hs, by decide⟩
            obtain ⟨hkey, htext⟩ := Framing.eq_of_first hname hfront hwhole
            obtain ⟨q', rfl, rfl⟩ := exists_of_append_eq hpq htext
            have hpre' : pre = [] := by
              rcases List.eq_nil_or_concat pre with hnil | ⟨init, x, rfl⟩
              · exact hnil
              · -- the last byte before the quote is the equals sign
                rw [List.concat_eq_append] at hkey hpre
                have hlast : (s ++ ascii "name".toList) ++ [equals] = (k ++ equals :: init) ++ [x] := by
                  rw [List.append_assoc, List.append_assoc]
                  exact hkey
                have hx : equals = x := List.singleton_inj.1 (List.append_inj_right' hlast rfl)
                rw [← hx, List.all_append, Bool.and_eq_true] at hpre
                exact absurd hpre.2 (by decide)
            have hname' : k = s ++ ascii "name".toList := by
              rw [hpre'] at hkey
              have hcut' : (s ++ ascii "name".toList) ++ [equals] = k ++ [equals] := by
                rw [← hkey, List.append_assoc]
                rfl
              exact (List.append_cancel_right hcut').symm
            rw [unquote_append (by decide) (by decide), unquote_quote] at hvalue
            split at hvalue
            · next hnil =>
                refine ⟨s, post, ?_, hs, ?_, hpost, ?_, ?_⟩
                · rw [← hocc, hnil]
                  simp
                · intro hmem
                  apply hk
                  rw [hname']
                  exact List.mem_append_left _ hmem
                · rw [hname']
                · simpa using hvalue.symm
            · cases hvalue
      · split at hvalue
        · next htok =>
            -- no quote anywhere
            have hvq : quote ∉ v := quote_not_mem_of_trim (quote_not_mem_of_isToken htok)
            have hmem := quote_mem_of_word hin
            rw [hseg, List.mem_append, List.mem_cons] at hmem
            rcases hmem with hmem | hmem | hmem
            · exact absurd hmem hkq
            · exact absurd hmem (by decide)
            · exact absurd hmem hvq
        · cases hvalue
  · cases hread

theorem readParam_written {front z name : Octets} (hname : name = file ∨ name = audio)
    (hfront : equals ∉ front) (hz : z.all isBlank = true)
    (hkey : isToken (trim (front ++ ascii "name".toList)) = true) :
    readParam (front ++ (quotedName name ++ z)) =
      some ⟨trim (front ++ ascii "name".toList), name⟩ := by
  have hseg : front ++ (quotedName name ++ z) =
      (front ++ ascii "name".toList) ++ [equals] ++ (quote :: (name ++ [quote]) ++ z) := by
    simp [quotedName, ascii, equals, quote]
  have hno : equals ∉ front ++ ascii "name".toList := by
    rw [List.mem_append, not_or]
    exact ⟨hfront, by decide⟩
  have htrim : trim (quote :: (name ++ [quote]) ++ z) = quote :: (name ++ [quote]) := by
    have hends : quote :: (name ++ [quote]) = (quote :: name) ++ [quote] := rfl
    exact trim_eq (by decide) (by decide) hends hz
  have hvalue : unquote false (name ++ [quote]) = some name := by
    rcases hname with rfl | rfl
    · decide
    · decide
  rw [readParam, hseg, Framing.cut_part hno, Option.bind_some, if_pos hkey]
  simp only
  rw [htrim, readValue, List.head?_cons, if_pos rfl, List.tail_cons, hvalue]
  rfl

/-- A parameter is read as it was, but for the value where the word is in it. -/
theorem readParam_rewritten (hread : readParam seg = some p) : readParam (rewritten seg) =
      some (if quotedName file <:+: seg then { p with value := audio } else p) := by
  by_cases hin : quotedName file <:+: seg
  · obtain ⟨front, z, rfl, hquote, hequals, hz, hkey, -⟩ := exists_of_word hread hin
    have htoken : isToken p.key = true := by
      obtain ⟨s, -, hrest⟩ := Option.bind_eq_some_iff.1 hread
      split at hrest
      · next htoken =>
          obtain ⟨v, -, rfl⟩ := Option.map_eq_some_iff.1 hrest
          exact htoken
      · cases hrest
    have hz' : rewritten z = z := rewritten_of_no_quote (quote_not_mem_of_blank hz)
    have hword : rewritten (front ++ (quotedName file ++ z)) = front ++ (quotedName audio ++ z) := by
      rw [rewritten] at hz' ⊢
      rw [replace_append_word (quotedName_eq file) (by decide) hquote, hz']
    rw [if_pos hin, hword, readParam_written (Or.inr rfl) hequals hz (by rw [← hkey]; exact htoken), hkey]
  · rw [rewritten_eq_self_iff.2 hin, if_neg hin, hread]

/-- A parameter is renamed as it should be when the word stands in the name `file` and only there. -/
theorem readParam_rewritten_iff (hread : readParam seg = some p) :
    readParam (rewritten seg) = some (renamedParam p) ↔
      (quotedName file <:+: seg ↔ p.IsName ∧ p.value = file) := by
  rw [readParam_rewritten hread, Option.some.injEq, renamedParam]
  by_cases hin : quotedName file <:+: seg
  · obtain ⟨-, -, -, -, -, -, -, hvalue⟩ := exists_of_word hread hin
    rw [if_pos hin]
    by_cases hname : p.IsName ∧ p.value = file
    · rw [if_pos hname]
      exact iff_of_true rfl (iff_of_true hin hname)
    · rw [if_neg hname]
      refine iff_of_false ?_ fun h => hname (h.1 hin)
      intro heq
      have hfile : audio = file := (congrArg Param.value heq).trans hvalue
      exact absurd hfile (by decide)
  · rw [if_neg hin]
    by_cases hname : p.IsName ∧ p.value = file
    · rw [if_pos hname]
      refine iff_of_false ?_ fun h => hin (h.2 hname)
      intro heq
      have hfile : p.value = audio := congrArg Param.value heq
      exact absurd (hname.2.symm.trans hfile) (by decide)
    · rw [if_neg hname]
      exact iff_of_true rfl (iff_of_false hin hname)

end Params

/-! ## Headers and parts -/

/-- The header says `name="file"` exactly in its parameters that are the name `file`. -/
def ExactHeader (line : Octets) : Prop :=
  ∀ h, field line = some h →
    if IsDisposition h.1 then
      ∀ seg ∈ paramTexts h.2, ∀ p, readParam seg = some p →
        (quotedName file <:+: seg ↔ p.IsName ∧ p.value = file)
    else ¬ quotedName file <:+: h.2

/-- The part says `name="file"` nowhere else. -/
def ExactPart (raw : RawPart) : Prop :=
  (∀ line ∈ raw.lines, ExactHeader line) ∧ ¬ quotedName file <:+: raw.data

section Headers

variable {line : Octets} {raw : RawPart}

theorem field_rewritten {h : Octets × Octets} (hfield : field line = some h) :
    field (rewritten line) = some (h.1, rewritten h.2) := by
  obtain ⟨s, hcut, htoken⟩ := Option.bind_eq_some_iff.1 hfield
  split at htoken
  · next hname =>
      cases htoken
      have hcut' : Framing.cut [colon] (rewritten line) = some (rewritten h.1, rewritten h.2) := by
        have hsep : ∀ x ∈ [colon], x ∉ quotedName file ∧ x ∉ quotedName audio := by decide +kernel
        have h := cut_replace (quotedName_eq file) (quotedName_eq audio) (by simp) hsep line
        rw [hcut] at h
        exact h
      rw [rewritten_of_no_quote (quote_not_mem_of_isToken hname)] at hcut'
      rw [field, hcut', Option.bind_some, if_pos hname]
  · cases htoken

theorem readDisposition_rewritten_iff {value : Octets} {ps : List Param}
    (hread : readDisposition value = some ps) :
    readDisposition (rewritten value) = some (ps.map renamedParam) ↔
      ∀ seg ∈ paramTexts value, ∀ p, readParam seg = some p →
        (quotedName file <:+: seg ↔ p.IsName ∧ p.value = file) := by
  rw [readDisposition] at hread ⊢
  split at hread
  · next hkind =>
      -- the type has no quotes
      have hquote : quote ∉ (segments .plain value).headI := by
        refine quote_not_mem_of_trim fun hmem => ?_
        have hlower : quote ∈ lower (trim (segments .plain value).headI) := List.mem_map.2 ⟨quote, hmem, rfl⟩
        rw [hkind] at hlower
        exact absurd hlower (by decide)
      rw [paramTexts, segments_rewritten, headI_map_rewritten, rewritten_of_no_quote hquote, if_pos hkind,
        ← List.map_tail]
      refine mapM_map_iff hread fun seg _ p hp => ?_
      rw [readParam_rewritten_iff hp]
      constructor
      · intro h p' hp'
        cases hp.symm.trans hp'
        exact h
      · intro h
        exact h p hp
  · cases hread

theorem readHeader_rewritten_iff {hd : Header} (hread : readHeader line = some hd) :
    readHeader (rewritten line) = some (renamedHeader hd) ↔ ExactHeader line := by
  obtain ⟨h, hfield, hread⟩ := Option.bind_eq_some_iff.1 hread
  have hexact : ExactHeader line ↔
      if IsDisposition h.1 then
        ∀ seg ∈ paramTexts h.2, ∀ p, readParam seg = some p →
          (quotedName file <:+: seg ↔ p.IsName ∧ p.value = file)
      else ¬ quotedName file <:+: h.2 := by
    constructor
    · intro hex
      exact hex h hfield
    · intro hex h' hfield'
      cases hfield.symm.trans hfield'
      exact hex
  rw [hexact, readHeader, field_rewritten hfield, Option.bind_some]
  split at hread
  · next hdisp =>
      obtain ⟨ps, hps, rfl⟩ := Option.map_eq_some_iff.1 hread
      rw [if_pos hdisp, if_pos hdisp, ← readDisposition_rewritten_iff hps, renamedHeader]
      cases readDisposition (rewritten h.2) with
      | none => simp
      | some ps' => simp
  · next hdisp =>
      cases hread
      rw [if_neg hdisp, if_neg hdisp, ← rewritten_eq_self_iff, renamedHeader]
      simp

theorem named_renamedPart (p : Part) : (renamedPart p).Named ↔ p.Named := by
  have hparam : ∀ q : Param, (renamedParam q).IsName ↔ q.IsName := by
    intro q
    rw [renamedParam]
    split <;> rfl
  have hhead : ∀ h : Header, (renamedHeader h).params = h.params.map renamedParam := by
    intro h
    cases h <;> rfl
  have hparams : (renamedPart p).params = p.params.map renamedParam := by
    simp only [Part.params, renamedPart, List.flatMap_map, List.map_flatMap, hhead]
  rw [Part.Named, Part.Named, hparams, List.filter_map, List.length_map]
  simp only [Function.comp_def, hparam]

theorem readPart_rewritten_iff {p : Part} (hread : readPart raw = some p) :
    readPart (rewrittenRaw raw) = some (renamedPart p) ↔ ExactPart raw := by
  obtain ⟨hs, hlines, hread⟩ := Option.bind_eq_some_iff.1 hread
  split at hread
  · next hnamed =>
      cases hread
      have hiff := mapM_map_iff (g := rewritten) (h := renamedHeader) hlines fun line _ hd h =>
        readHeader_rewritten_iff h
      rw [ExactPart, ← hiff, ← rewritten_eq_self_iff, readPart]
      show ((raw.lines.map rewritten).mapM readHeader).bind (fun hs' =>
        if Part.Named ⟨hs', rewritten raw.data⟩ then some (⟨hs', rewritten raw.data⟩ : Part) else none) =
          some (renamedPart ⟨hs, raw.data⟩) ↔ _
      cases (raw.lines.map rewritten).mapM readHeader with
      | none => simp
      | some hs' =>
        rw [Option.bind_some, Option.some.injEq]
        constructor
        · intro h
          by_cases hnamed' : Part.Named ⟨hs', rewritten raw.data⟩
          · rw [if_pos hnamed', Option.some.injEq, renamedPart, Multipart.Part.mk.injEq] at h
            exact h
          · rw [if_neg hnamed'] at h
            cases h
        · rintro ⟨rfl, hdata⟩
          rw [hdata]
          exact if_pos ((named_renamedPart ⟨hs, raw.data⟩).2 hnamed)
  · cases hread

end Headers

/-! ## The body -/

/-- A well-formed body is renamed, and nothing else in it is changed, exactly when its parts
say `name="file"` nowhere else. -/
theorem parse_rename_iff (b : Boundary) (body : Octets) (parts : List Part)
    (hparse : parse b body = some parts) :
    parse b (renameMultipartField body file audio) = some (parts.map renamedPart) ↔
      ∀ raws, layout b body = some raws → ∀ raw ∈ raws, ExactPart raw := by
  obtain ⟨raws, hlayout, hread⟩ := Option.bind_eq_some_iff.1 hparse
  rw [parse, layout_rename, hlayout, Option.map_some, Option.bind_some,
    mapM_map_iff (g := rewrittenRaw) (h := renamedPart) hread fun raw _ p h => readPart_rewritten_iff h]
  constructor
  · intro h raws' hraws'
    cases hraws'
    exact h
  · intro h
    exact h raws rfl

/-- The boundary `B`. -/
def sampleBoundary : Boundary where
  chars := ascii "B".toList
  length_pos := by decide
  length_le := by decide
  valid := by decide +kernel
  last := by decide

/-- A form of one part with the file name, and the bytes `DATA`. -/
def sampleForm (filename : List Char) : Octets :=
  ascii "--B\r\nContent-Disposition: form-data; name=\"file\"; filename=\"".toList ++ ascii filename ++
    ascii "\"\r\n\r\nDATA\r\n--B--\r\n".toList

def samplePart (name filename : List Char) : Part :=
  ⟨[.disposition [⟨ascii "name".toList, ascii name⟩, ⟨ascii "filename".toList, ascii filename⟩]],
    ascii "DATA".toList⟩

theorem parse_sampleForm : parse sampleBoundary (sampleForm "a name=file.wav".toList) =
        some [samplePart "file".toList "a name=file.wav".toList] ∧
      parse sampleBoundary (renameMultipartField (sampleForm "a name=file.wav".toList) file audio) =
        some [samplePart "audio".toList "a name=file.wav".toList] ∧
      parse sampleBoundary (sampleForm "file".toList) = some [samplePart "file".toList "file".toList] ∧
      parse sampleBoundary (renameMultipartField (sampleForm "file".toList) file audio) =
        some [samplePart "audio".toList "audio".toList] ∧
      [samplePart "file".toList "file".toList].map renamedPart =
        [samplePart "audio".toList "file".toList] := by
  refine ⟨?_, ?_, ?_, ?_, ?_⟩ <;> decide +kernel

theorem parse_rename_iff_sample :
    parse sampleBoundary (renameMultipartField (sampleForm "a name=file.wav".toList) file audio) =
        some [samplePart "audio".toList "a name=file.wav".toList] ∧
      ∀ raws, layout sampleBoundary (sampleForm "a name=file.wav".toList) = some raws →
        ∀ raw ∈ raws, ExactPart raw := by
  refine ⟨parse_sampleForm.2.1, ?_⟩
  exact (parse_rename_iff sampleBoundary _ _ parse_sampleForm.1).1 parse_sampleForm.2.1

/-- A file with the name `file` has another name behind the rewrite. -/
theorem not_parse_rename_filename :
    ¬ ∀ (b : Boundary) (body : Octets) (parts : List Part), parse b body = some parts →
      parse b (renameMultipartField body file audio) = some (parts.map renamedPart) := by
  intro h
  have hsample := h sampleBoundary _ _ parse_sampleForm.2.2.1
  rw [parse_sampleForm.2.2.2.1, parse_sampleForm.2.2.2.2, Option.some.injEq] at hsample
  exact absurd hsample (by decide +kernel)

end Portal.Media
