import DgxPlatform.Lib.FormEncoding

/-! # The form of a video request

The video route reads three fields of a form without knowing how the form is encoded: it looks
for the header of a part, and if there is none for `name=`.
-/

namespace Portal.VideoForm

open FormEncoding Framing

/-! ## The reader -/

/-- `name="…"`, what is looked for among the parts. -/
def marker (name : List Char) : List Char := nameWord ++ '"' :: (name ++ ['"'])

/-- `name=`, what is looked for among the pairs. -/
def key (name : List Char) : List Char := name ++ ['=']

/-- Two line ends after the headers of a part. -/
def blankLine : List Char := crlf ++ crlf

/-- What ends the value of a part. -/
def delimiter : List Char := crlf ++ dashes

/-- `&t[..t.find(pattern).unwrap_or(t.len())]`. -/
def before (pattern t : List Char) : List Char :=
  match Text.splitOnce pattern t with
  | some (a, _) => a
  | none => t

def formValue (body name : List Char) : Option (List Char) :=
  match Text.splitOnce (marker name) body with
  | some (_, rest) => (Text.splitOnce blankLine rest).map fun r => Text.trim (before delimiter r.2)
  | none => (Text.splitOnce (key name) body).map fun r => Text.trim (plusToSpace (before ['&'] r.2))

/-- The fields `v1_videos` reads. -/
inductive VideoField where
  | prompt
  | seconds
  | model
deriving DecidableEq, Repr

def VideoField.name : VideoField → List Char
  | .prompt => "prompt".toList
  | .seconds => "seconds".toList
  | .model => "model".toList

example : formValue "prompt=une+plage&seconds=3&model=video".toList VideoField.prompt.name =
    some "une plage".toList := by decide

/-! ## How a form is sent -/

inductive Encoding where
  | multipart (boundary : Multipart.Boundary)
  | urlencoded

def Encoding.encode : Encoding → List Field → List Char
  | .multipart b, fields => FormEncoding.multipart b fields
  | .urlencoded, fields => FormEncoding.urlencoded fields

/-- The boundary does not occur in a value. -/
def Encoding.Fits : Encoding → List Field → Prop
  | .multipart b, fields => ∀ p ∈ fields, ¬ boundaryText b <:+: p.value
  | .urlencoded, _ => True

/-! ## Which forms are read -/

/-- The text that stands where the value is looked for: the field's own value, unless an earlier
value has the marker in it. There it is what follows in that value after an empty line, and
without one the value of the next part. -/
def source (f : VideoField) : List Field → Option (List Char)
  | [] => none
  | p :: later =>
      if p.name = f.name then some p.value
      else
        match cut (marker f.name) p.value with
        | none => source f later
        | some (_, q) =>
            match cut blankLine q with
            | some (_, w) => some w
            | none => later.head?.map Field.value

/-- Up to its first line that begins with `--`, the text is the value between white space. -/
def Shows (w v : List Char) : Prop :=
  ∃ a b, (∀ c ∈ a, Text.isWhitespace c = true) ∧ (∀ c ∈ b, Text.isWhitespace c = true) ∧
    ¬ delimiter <:+: a ++ v ++ b ∧ a ++ v ++ b ++ delimiter <+: w ++ delimiter

/-- `name=` stands in the boundary, in a name or in a value. -/
def Mentions (b : Multipart.Boundary) (fields : List Field) (f : VideoField) : Prop :=
  key f.name <:+: boundaryText b ∨
    ∃ p ∈ fields, key f.name <:+: writtenName p.name ∨ key f.name <:+: p.value

/-- The condition under which a field is read as it was sent, for each encoding: the first pair
whose name ends in the field's is written, its spaces apart, as the field's value; the text where
the value of a part is looked for shows the field's value. -/
def Encoding.Reads (f : VideoField) (fields : List Field) : Encoding → Prop
  | .urlencoded => ∀ p, fields.find? (fun p => decide (f.name <:+ p.name)) = some p →
      lookup f.name fields = some (written p.value)
  | .multipart b =>
      match source f fields with
      | some w => ∃ v, lookup f.name fields = some v ∧ Shows w v
      | none => (∃ p ∈ fields, marker f.name <:+: p.value) ∨ ¬ Mentions b fields f

section Reading

variable (f : VideoField)

theorem small_name : ∀ c ∈ f.name, 97 ≤ c.toNat ∧ c.toNat < 123 := by
  cases f <;> exact Text.forall_of_all (by decide)

variable {f} in
theorem marker_ne_nil : marker f.name ≠ [] := by
  simp [marker]

theorem splitOnce_marker (t : List Char) : Text.splitOnce (marker f.name) t = cut (marker f.name) t :=
  Text.splitOnce_eq_cut marker_ne_nil t

theorem splitOnce_key (t : List Char) : Text.splitOnce (key f.name) t = cut (key f.name) t :=
  Text.splitOnce_eq_cut (by simp [key]) t

theorem splitOnce_blankLine (t : List Char) : Text.splitOnce blankLine t = cut blankLine t :=
  Text.splitOnce_eq_cut (by decide) t

theorem before_eq {pattern t a b : List Char} (hne : pattern ≠ []) (h : cut pattern t = some (a, b)) :
    before pattern t = a := by
  rw [before, Text.splitOnce_eq_cut hne, h]

/-! ## Pairs -/

variable {f} {p : Field} {b : Multipart.Boundary} {fields : List Field} {t : List Char}

theorem key_pair_iff : key f.name <:+: pair p ↔ f.name <:+ p.name := by
  rw [← suffix_formEncode_iff (small_name f)]
  constructor
  · rintro ⟨s, t, h⟩
    have hname := not_mem_formEncode (c := '=') (by decide) p.name
    have hvalue := not_mem_formEncode (c := '=') (by decide) p.value
    have hcount := congrArg (List.count '=') h
    have hfirst : s ++ f.name ++ '=' :: t = formEncode p.name ++ '=' :: formEncode p.value := by
      rw [← pair, ← h, key]
      simp
    have hs : '=' ∉ s ++ f.name := by
      rw [← List.count_eq_zero]
      rw [← pair, ← h, key] at hfirst
      simp only [pair, key, List.count_append, List.count_cons_self, List.count_eq_zero.2 hname,
        List.count_eq_zero.2 hvalue, List.count_nil] at hcount
      rw [List.count_append]
      omega
    rw [← (eq_of_first hs hname hfirst).1]
    exact List.suffix_append s f.name
  · rintro ⟨s, hs⟩
    rw [pair, ← hs]
    exact ⟨s, formEncode p.value, by simp [key]⟩

theorem urlencoded_cons (p q : Field) (fields : List Field) :
    urlencoded (p :: q :: fields) = pair p ++ '&' :: urlencoded (q :: fields) := by
  simp [urlencoded, List.intercalate_cons_cons]

theorem urlencoded_singleton (p : Field) : urlencoded [p] = pair p := by
  simp [urlencoded]

theorem key_no_amp : '&' ∉ key f.name := by
  cases f <;> decide

theorem cut_key_pair (h : f.name <:+ p.name) (t : List Char) :
    ∃ s, cut (key f.name) (pair p ++ t) = some (s, formEncode p.value ++ t) := by
  obtain ⟨s, hs⟩ := (suffix_formEncode_iff (small_name f)).2 h
  have hname := not_mem_formEncode (c := '=') (by decide) p.name
  have hno : ¬ key f.name <:+: s ++ (key f.name).dropLast := by
    rw [key, List.dropLast_concat, hs]
    intro hin
    exact hname (hin.subset (by simp))
  have hcut := cut_first (by simp [key]) hno (formEncode p.value ++ t)
  refine ⟨s, ?_⟩
  rw [← hcut, pair, ← hs, key]
  simp

theorem before_amp {v : List Char} (hv : '&' ∉ v) (t : List Char) :
    before ['&'] v = v ∧ before ['&'] (v ++ '&' :: t) = v := by
  constructor
  · rw [before, Text.splitOnce_eq_cut (by decide), cut_eq_none hv]
  · have hcut : cut ['&'] (v ++ ['&'] ++ t) = some (v, t) := cut_part hv t
    apply before_eq (by decide) (b := t)
    rw [← hcut]
    simp

theorem cut_urlencoded (f : VideoField) (fields : List Field) :
    (cut (key f.name) (urlencoded fields)).map (fun r => before ['&'] r.2) =
      (fields.find? fun p => decide (f.name <:+ p.name)).map fun p => formEncode p.value := by
  induction fields with
  | nil => cases f <;> rfl
  | cons p fields ih =>
    have hamp := before_amp (not_mem_formEncode (c := '&') (by decide) p.value)
    by_cases h : f.name <:+ p.name
    · rw [List.find?_cons_of_pos (by simpa using h)]
      cases fields with
      | nil =>
        obtain ⟨s, hs⟩ := cut_key_pair h []
        rw [List.append_nil, List.append_nil] at hs
        rw [urlencoded_singleton, hs]
        exact congrArg some (hamp []).1
      | cons q fields =>
        obtain ⟨s, hs⟩ := cut_key_pair h ('&' :: urlencoded (q :: fields))
        rw [urlencoded_cons, hs]
        exact congrArg some (hamp _).2
    · have hno : ¬ key f.name <:+: pair p := fun hin => h (key_pair_iff.1 hin)
      rw [List.find?_cons_of_neg (by simpa using h), ← ih]
      cases fields with
      | nil =>
        rw [urlencoded_singleton, (cut_eq_none_iff (by simp [key])).2 hno]
        cases f <;> rfl
      | cons q fields =>
        rw [urlencoded_cons, cut_append_cons key_no_amp hno, Option.map_map]
        rfl

theorem quote_not_mem_urlencoded (fields : List Field) : '"' ∉ urlencoded fields := by
  have hpair : ∀ p : Field, '"' ∉ pair p := by
    intro p hmem
    rcases List.mem_append.1 hmem with hname | hvalue
    · exact not_mem_formEncode (by decide) _ hname
    · rcases List.mem_cons.1 hvalue with h | hvalue
      · exact absurd h (by decide)
      · exact not_mem_formEncode (by decide) _ hvalue
  induction fields with
  | nil => exact List.not_mem_nil
  | cons p fields ih =>
    cases fields with
    | nil =>
      rw [urlencoded_singleton]
      exact hpair p
    | cons q fields =>
      rw [urlencoded_cons]
      intro hmem
      rcases List.mem_append.1 hmem with h | h
      · exact hpair p h
      · rcases List.mem_cons.1 h with h | h
        · exact absurd h (by decide)
        · exact ih h

/-- Among pairs, the first one whose name ends in the field's is read, and its escapes stay. -/
theorem formValue_urlencoded (htrim : ∀ p ∈ fields, Text.trim p.value = p.value) :
    formValue (urlencoded fields) f.name =
      (fields.find? fun p => decide (f.name <:+ p.name)).map fun p => written p.value := by
  have hmarker : cut (marker f.name) (urlencoded fields) = none := by
    rw [cut_eq_none_iff marker_ne_nil]
    intro hin
    exact quote_not_mem_urlencoded fields (hin.subset (by simp [marker]))
  have hcut := cut_urlencoded f fields
  rw [formValue, splitOnce_marker, hmarker]
  show (Text.splitOnce (key f.name) _).map _ = _
  rw [splitOnce_key]
  calc (cut (key f.name) (urlencoded fields)).map (fun r => Text.trim (plusToSpace (before ['&'] r.2)))
      = ((cut (key f.name) (urlencoded fields)).map fun r => before ['&'] r.2).map fun v =>
          Text.trim (plusToSpace v) := by rw [Option.map_map]; rfl
    _ = (fields.find? fun p => decide (f.name <:+ p.name)).map fun p =>
          Text.trim (plusToSpace (formEncode p.value)) := by rw [hcut, Option.map_map]; rfl
    _ = (fields.find? fun p => decide (f.name <:+ p.name)).map fun p => written p.value := by
          apply Option.map_congr
          intro p hp
          rw [plusToSpace_formEncode, trim_written (htrim p (List.mem_of_find?_eq_some hp))]

/-! ## Parts -/

/-- The line of a part with its name. -/
def headerLine (p : Field) : List Char := disposition ++ nameWord ++ '"' :: (writtenName p.name ++ ['"'])

/-- The lines of a part before its value. -/
def front (b : Multipart.Boundary) (p : Field) : List Char :=
  dashes ++ boundaryText b ++ crlf ++ headerLine p ++ crlf ++ crlf

theorem part_eq (b : Multipart.Boundary) (p : Field) : part b p = front b p ++ p.value ++ crlf := by
  simp only [part, front, headerLine, List.append_assoc, List.cons_append, List.nil_append]

theorem multipart_nil (b : Multipart.Boundary) :
    FormEncoding.multipart b [] = dashes ++ (boundaryText b ++ dashes ++ crlf) := by
  simp only [FormEncoding.multipart, List.flatMap_nil, List.nil_append, List.append_assoc]

theorem multipart_cons (b : Multipart.Boundary) (p : Field) (fields : List Field) :
    FormEncoding.multipart b (p :: fields) = part b p ++ FormEncoding.multipart b fields := by
  simp only [FormEncoding.multipart, List.flatMap_cons, List.append_assoc]

theorem exists_multipart (b : Multipart.Boundary) (fields : List Field) :
    ∃ t, FormEncoding.multipart b fields = dashes ++ t := by
  cases fields with
  | nil => exact ⟨_, multipart_nil b⟩
  | cons p fields =>
    rw [multipart_cons, part_eq, front]
    simp only [List.append_assoc]
    exact ⟨_, rfl⟩

theorem marker_plain : '\r' ∉ marker f.name ∧ '\n' ∉ marker f.name ∧ (marker f.name).count '"' = 2 ∧
    (marker f.name).dropLast.count '"' = 1 := by
  cases f <;> decide

theorem words_plain :
    disposition.count '"' = 0 ∧ nameWord.count '"' = 0 ∧ dashes.count '"' = 0 ∧ crlf.count '"' = 0 := by
  decide

theorem not_mem_name : ∀ c ∈ f.name, c ≠ '%' ∧ c ≠ '"' ∧ c ≠ '\r' ∧ c ≠ '\n' := by
  cases f <;> exact Text.forall_of_all (by decide)

theorem quote_mem_marker : '"' ∈ marker f.name := by
  simp [marker]

/-- The line has its two quotes around the name, and the marker has two quotes. -/
theorem marker_headerLine_iff : marker f.name <:+: headerLine p ↔ p.name = f.name := by
  have hquote : '"' ∉ f.name := fun h => (not_mem_name _ h).2.1 rfl
  have hwritten := (not_mem_writtenName p.name).1
  obtain ⟨hdisposition, hword, -⟩ := words_plain
  rw [← writtenName_eq_iff not_mem_name]
  constructor
  · rintro ⟨s, t, h⟩
    have hcount := congrArg (List.count '"') h
    have hs : '"' ∉ s ++ nameWord := by
      simp only [headerLine, List.count_append, List.count_cons_self, List.count_nil, marker_plain.2.2.1,
        hdisposition, hword, List.count_eq_zero.2 hwritten] at hcount
      rw [← List.count_eq_zero, List.count_append]
      omega
    have hline : '"' ∉ disposition ++ nameWord := by
      rw [← List.count_eq_zero, List.count_append, hdisposition, hword]
    have hsplit : s ++ nameWord ++ '"' :: (f.name ++ '"' :: t) =
        disposition ++ nameWord ++ '"' :: (writtenName p.name ++ '"' :: []) := by
      rw [headerLine, marker] at h
      rw [← h]
      simp only [List.append_assoc, List.cons_append, List.nil_append]
    have hbehind := (eq_of_first hs hline hsplit).2
    exact (eq_of_first hquote hwritten hbehind).1.symm
  · intro h
    refine ⟨disposition, [], ?_⟩
    rw [headerLine, h, marker, List.append_nil, List.append_assoc]

theorem front_eq (b : Multipart.Boundary) (p : Field) :
    front b p = dashes ++ boundaryText b ++ '\r' :: ([] ++ '\n' ::
      (headerLine p ++ '\r' :: ([] ++ '\n' :: ([] ++ '\r' :: ([] ++ '\n' :: []))))) := by
  simp only [front, crlf, List.append_assoc, List.cons_append, List.nil_append]

theorem infix_front_iff {w : List Char} (hne : w ≠ []) (hcr : '\r' ∉ w) (hlf : '\n' ∉ w) :
    w <:+: front b p ↔ w <:+: dashes ++ boundaryText b ∨ w <:+: headerLine p := by
  rw [front_eq, infix_append_cons_iff hcr, infix_append_cons_iff hlf, infix_append_cons_iff hcr,
    infix_append_cons_iff hlf, infix_append_cons_iff hcr, infix_append_cons_iff hlf, List.infix_nil]
  simp only [hne, false_or, or_false]

theorem marker_front_iff : marker f.name <:+: front b p ↔ p.name = f.name := by
  have hno : ¬ marker f.name <:+: dashes ++ boundaryText b := by
    intro hin
    rcases List.mem_append.1 (hin.subset quote_mem_marker) with h | h
    · exact List.count_eq_zero.1 words_plain.2.2.1 h
    · exact (boundaryText_plain b).1 h
  rw [infix_front_iff marker_ne_nil marker_plain.1 marker_plain.2.1, or_iff_right hno, marker_headerLine_iff]

theorem cut_marker_own (h : p.name = f.name) (t : List Char) :
    ∃ a, cut (marker f.name) (part b p ++ t) = some (a, crlf ++ crlf ++ p.value ++ crlf ++ t) := by
  have hname : writtenName p.name = f.name := (writtenName_eq_iff not_mem_name).2 h
  have hno : ¬ marker f.name <:+: dashes ++ boundaryText b ++ crlf ++ disposition ++ (marker f.name).dropLast := by
    intro hin
    have hcount := hin.sublist.count_le '"'
    have hb := List.count_eq_zero.2 (boundaryText_plain b).1
    obtain ⟨hdisposition, -, hdashes, hcrlf⟩ := words_plain
    simp only [List.count_append, marker_plain.2.2.1, marker_plain.2.2.2, hb, hdashes, hcrlf, hdisposition] at hcount
    exact absurd hcount (by decide)
  have hcut := cut_first marker_ne_nil hno (crlf ++ crlf ++ p.value ++ crlf ++ t)
  refine ⟨dashes ++ boundaryText b ++ crlf ++ disposition, ?_⟩
  rw [← hcut, part_eq, front, headerLine, hname]
  simp only [marker, List.append_assoc, List.cons_append, List.nil_append]

/-- In another part, the marker is found in the value or not at all. -/
theorem cut_marker_other (h : p.name ≠ f.name) (t : List Char) :
    (cut (marker f.name) (part b p ++ t)).map Prod.snd =
      match cut (marker f.name) p.value with
      | some r => some (r.2 ++ crlf ++ t)
      | none => (cut (marker f.name) t).map Prod.snd := by
  have hno : ¬ marker f.name <:+: front b p := fun hin => h (marker_front_iff.1 hin)
  obtain ⟨a, ha⟩ : ∃ a, front b p = a ++ '\n' :: [] := by
    refine ⟨dashes ++ boundaryText b ++ crlf ++ headerLine p ++ crlf ++ ['\r'], ?_⟩
    simp only [front, crlf, List.append_assoc, List.cons_append, List.nil_append]
  have hnoa : ¬ marker f.name <:+: a := by
    rw [ha, infix_append_cons_iff marker_plain.2.1] at hno
    exact fun hin => hno (Or.inl hin)
  have hpart : part b p ++ t = a ++ '\n' :: (p.value ++ (crlf ++ t)) := by
    rw [part_eq, ha]
    simp only [List.append_assoc, List.cons_append, List.nil_append]
  rw [hpart, cut_append_cons marker_plain.2.1 hnoa, Option.map_map]
  cases hvalue : cut (marker f.name) p.value with
  | some r =>
    rw [cut_append (a := r.1) (b := r.2) hvalue]
    show some (r.2 ++ (crlf ++ t)) = some (r.2 ++ crlf ++ t)
    rw [List.append_assoc]
  | none =>
    have hinvalue := (cut_eq_none_iff marker_ne_nil).1 hvalue
    have hnil : ¬ marker f.name <:+: [] := fun hin => marker_ne_nil (List.infix_nil.1 hin)
    show (cut (marker f.name) (p.value ++ '\r' :: ([] ++ '\n' :: t))).map _ = (cut (marker f.name) t).map Prod.snd
    rw [cut_append_cons marker_plain.1 hinvalue, cut_append_cons marker_plain.2.1 hnil, Option.map_map,
      Option.map_map]
    rfl

/-! ## The text behind the marker -/

theorem blankLine_plain : '-' ∉ blankLine ∧ blankLine.count '\n' = 2 ∧ blankLine.dropLast.count '\n' = 1 := by
  decide

theorem blankLine_crlf {q : List Char} (hq : ∀ c ∈ q.getLast?, Text.isWhitespace c = false)
    (hno : ¬ blankLine <:+: q) : ¬ blankLine <:+: q ++ crlf := by
  have htwo : q ++ crlf = q ++ ['\r'] ++ ['\n'] := by simp [crlf]
  have hword : blankLine = ['\r', '\n', '\r'] ++ ['\n'] := rfl
  rw [htwo, List.infix_concat_iff, List.infix_concat_iff]
  rintro (⟨s, hs⟩ | ⟨s, hs⟩ | hin)
  · -- the word would end in the line end, and the value in the one before
    rw [hword, ← List.append_assoc] at hs
    have hfront : s ++ ['\r', '\n'] ++ ['\r'] = q ++ ['\r'] := by
      rw [← (List.append_inj' hs rfl).1]
      simp
    have hend := (List.append_inj' hfront rfl).1
    have hlast := hq '\n' (by rw [← hend]; simp)
    exact absurd hlast (by decide)
  · rw [hword, ← List.append_assoc] at hs
    exact absurd (List.append_inj' hs rfl).2 (by decide)
  · exact hno hin

theorem getLast_of_cut {v q a : List Char} (hv : Text.trim v = v) (h : cut (marker f.name) v = some (a, q)) :
    ∀ c ∈ q.getLast?, Text.isWhitespace c = false := by
  have heq := eq_of_cut h
  have hlast := (Text.trimMatches_eq_self_iff.1 hv).2
  intro c hc
  apply hlast
  rw [heq]
  cases q with
  | nil => cases hc
  | cons x q =>
    rw [List.getLast?_append_of_ne_nil _ (List.cons_ne_nil x q)]
    exact hc

theorem blankLine_last {q : List Char} (hq : ∀ c ∈ q.getLast?, Text.isWhitespace c = false) (hno : ¬ blankLine <:+: q)
    (b : Multipart.Boundary) : cut blankLine (q ++ crlf ++ FormEncoding.multipart b []) = none := by
  have hend : ¬ blankLine <:+: '-' :: (boundaryText b ++ dashes ++ crlf) := by
    intro hin
    have hcount := hin.sublist.count_le '\n'
    have hb := List.count_eq_zero.2 (boundaryText_plain b).2.2
    have hwords : dashes.count '\n' = 0 ∧ crlf.count '\n' = 1 := by decide
    rw [List.count_cons_of_ne (by decide)] at hcount
    simp only [List.count_append, blankLine_plain.2.1, hb, hwords] at hcount
    exact absurd hcount (by decide)
  rw [cut_eq_none_iff (by decide), multipart_nil]
  show ¬ blankLine <:+: q ++ crlf ++ '-' :: ('-' :: (boundaryText b ++ dashes ++ crlf))
  rw [infix_append_cons_iff blankLine_plain.1, not_or]
  exact ⟨blankLine_crlf hq hno, hend⟩

/-- Before the value of the next part there is no other empty line. -/
theorem blankLine_next {q : List Char} (hq : ∀ c ∈ q.getLast?, Text.isWhitespace c = false) (hno : ¬ blankLine <:+: q)
    (p : Field) (t : List Char) :
    ∃ a, cut blankLine (q ++ crlf ++ (part b p ++ t)) = some (a, p.value ++ crlf ++ t) := by
  have hline : '\n' ∉ headerLine p := by
    have hwords : disposition.count '\n' = 0 ∧ nameWord.count '\n' = 0 := by decide
    have hname := List.count_eq_zero.2 (not_mem_writtenName p.name).2.2
    rw [← List.count_eq_zero, headerLine, List.count_append, List.count_append, hwords.1, hwords.2,
      List.count_cons_of_ne (by decide), List.count_append, hname]
    rfl
  have hb := List.count_eq_zero.2 (boundaryText_plain b).2.2
  have hboundary : ¬ blankLine <:+: '-' :: (boundaryText b ++ crlf) := by
    intro hin
    have hcount := hin.sublist.count_le '\n'
    rw [List.count_cons_of_ne (by decide), List.count_append, hb, blankLine_plain.2.1] at hcount
    exact absurd hcount (by decide)
  obtain ⟨rest, hrest⟩ : ∃ rest, headerLine p = 'C' :: rest := by
    have hdisposition : disposition = 'C' :: disposition.tail := by decide
    refine ⟨disposition.tail ++ nameWord ++ '"' :: (writtenName p.name ++ ['"']), ?_⟩
    calc headerLine p = disposition ++ nameWord ++ '"' :: (writtenName p.name ++ ['"']) := rfl
      _ = 'C' :: disposition.tail ++ nameWord ++ '"' :: (writtenName p.name ++ ['"']) := by rw [← hdisposition]
  have hheader : ¬ blankLine <:+: rest ++ blankLine.dropLast := by
    intro hin
    have hcount := hin.sublist.count_le '\n'
    have hzero : '\n' ∉ rest := fun h => hline (by rw [hrest]; exact List.mem_cons_of_mem _ h)
    rw [List.count_append, List.count_eq_zero.2 hzero, blankLine_plain.2.1, blankLine_plain.2.2] at hcount
    exact absurd hcount (by decide)
  have hno' : ¬ blankLine <:+: q ++ crlf ++ dashes ++ boundaryText b ++ crlf ++ headerLine p ++ blankLine.dropLast := by
    have hsplit : q ++ crlf ++ dashes ++ boundaryText b ++ crlf ++ headerLine p ++ blankLine.dropLast =
        q ++ crlf ++ '-' :: ('-' :: (boundaryText b ++ crlf) ++ 'C' :: (rest ++ blankLine.dropLast)) := by
      rw [hrest]
      simp only [dashes, List.append_assoc, List.cons_append, List.nil_append]
    rw [hsplit, infix_append_cons_iff blankLine_plain.1, infix_append_cons_iff (by decide), not_or, not_or]
    exact ⟨blankLine_crlf hq hno, hboundary, hheader⟩
  have hcut := cut_first (by decide) hno' (p.value ++ crlf ++ t)
  refine ⟨q ++ crlf ++ dashes ++ boundaryText b ++ crlf ++ headerLine p, ?_⟩
  rw [← hcut, part_eq, front]
  simp only [blankLine, List.append_assoc]

/-! ## What is read among the parts -/

/-- Where the marker is found, and what follows the next empty line there. -/
theorem marker_cases (b : Multipart.Boundary) (fields : List Field)
    (htrim : ∀ p ∈ fields, Text.trim p.value = p.value) :
    (∃ w x rest a t, source f fields = some w ∧ cut (marker f.name) (FormEncoding.multipart b fields) = some (x, rest) ∧
      cut blankLine rest = some (a, w ++ delimiter ++ t)) ∨
    (source f fields = none ∧ (∃ p ∈ fields, marker f.name <:+: p.value) ∧
      ∃ x rest, cut (marker f.name) (FormEncoding.multipart b fields) = some (x, rest) ∧ cut blankLine rest = none) ∨
    (source f fields = none ∧ (∀ p ∈ fields, ¬ marker f.name <:+: p.value) ∧
      cut (marker f.name) (FormEncoding.multipart b fields) = none) := by
  have hbehind : ∀ (v : List Char) later, ∃ t, v ++ crlf ++ FormEncoding.multipart b later = v ++ delimiter ++ t := by
    intro v later
    obtain ⟨t, ht⟩ := exists_multipart b later
    refine ⟨t, ?_⟩
    rw [ht, delimiter]
    simp only [List.append_assoc]
  induction fields with
  | nil =>
    refine Or.inr (Or.inr ⟨rfl, fun p hp => absurd hp List.not_mem_nil, ?_⟩)
    rw [cut_eq_none_iff marker_ne_nil, multipart_nil]
    intro hin
    have hcount := hin.sublist.count_le '"'
    obtain ⟨-, -, hdashes, hcrlf⟩ := words_plain
    simp only [List.count_append, marker_plain.2.2.1, List.count_eq_zero.2 (boundaryText_plain b).1, hdashes,
      hcrlf] at hcount
    exact absurd hcount (by decide)
  | cons p later ih =>
    rw [List.forall_mem_cons] at htrim
    by_cases h : p.name = f.name
    · -- the header of the field itself
      obtain ⟨x, hx⟩ := cut_marker_own (b := b) h (FormEncoding.multipart b later)
      obtain ⟨t, ht⟩ := hbehind p.value later
      have hblank : cut blankLine (crlf ++ crlf ++ p.value ++ crlf ++ FormEncoding.multipart b later) =
          some ([], p.value ++ delimiter ++ t) := by
        rw [← ht]
        have hno : ¬ blankLine <:+: [] ++ blankLine.dropLast := by decide
        rw [← cut_first (by decide) hno (p.value ++ crlf ++ FormEncoding.multipart b later)]
        simp only [blankLine, List.append_assoc, List.nil_append]
      rw [multipart_cons]
      exact Or.inl ⟨p.value, x, _, [], t, if_pos h, hx, hblank⟩
    · have hother := cut_marker_other (b := b) h (FormEncoding.multipart b later)
      rw [multipart_cons]
      cases hvalue : cut (marker f.name) p.value with
      | none =>
        -- the search goes on behind the part
        have hsource : source f (p :: later) = source f later := by
          rw [source, if_neg h, hvalue]
        have hclean := (cut_eq_none_iff marker_ne_nil).1 hvalue
        rw [hvalue] at hother
        rcases ih htrim.2 with ⟨w, x, rest, a, t, hs, hx, ha⟩ | ⟨hs, ⟨q, hq, hin⟩, x, rest, hx, ha⟩ | ⟨hs, hall, hx⟩
        · rw [hx] at hother
          obtain ⟨⟨x', rest'⟩, hx', hrest⟩ := Option.map_eq_some_iff.1 hother
          cases hrest
          exact Or.inl ⟨w, x', rest, a, t, hsource.trans hs, hx', ha⟩
        · rw [hx] at hother
          obtain ⟨⟨x', rest'⟩, hx', hrest⟩ := Option.map_eq_some_iff.1 hother
          cases hrest
          exact Or.inr (Or.inl ⟨hsource.trans hs, ⟨q, List.mem_cons_of_mem _ hq, hin⟩, x', rest, hx', ha⟩)
        · rw [hx] at hother
          refine Or.inr (Or.inr ⟨hsource.trans hs, ?_, Option.map_eq_none_iff.1 hother⟩)
          exact List.forall_mem_cons.2 ⟨hclean, hall⟩
      | some r =>
        -- the value imitates a header
        obtain ⟨y, q⟩ := r
        rw [hvalue] at hother
        obtain ⟨⟨x', rest'⟩, hx', hrest⟩ := Option.map_eq_some_iff.1 hother
        cases hrest
        have hq := getLast_of_cut htrim.1 hvalue
        have hin : marker f.name <:+: p.value := ⟨y, q, (eq_of_cut hvalue).symm⟩
        cases hblank : cut blankLine q with
        | some r =>
          obtain ⟨z, w⟩ := r
          obtain ⟨t, ht⟩ := hbehind w later
          have hcut := cut_append hblank (crlf ++ FormEncoding.multipart b later)
          rw [← List.append_assoc, ← List.append_assoc, ht] at hcut
          refine Or.inl ⟨w, x', _, z, t, ?_, hx', hcut⟩
          simp only [source, if_neg h, hvalue, hblank]
        | none =>
          have hno := (cut_eq_none_iff (by decide)).1 hblank
          cases later with
          | nil =>
            refine Or.inr (Or.inl ⟨?_, ⟨p, List.mem_cons_self, hin⟩, x', _, hx', blankLine_last hq hno b⟩)
            simp only [source, if_neg h, hvalue, hblank, List.head?_nil, Option.map_none]
          | cons p' later =>
            obtain ⟨z, hz⟩ := blankLine_next (b := b) hq hno p' (FormEncoding.multipart b later)
            obtain ⟨t, ht⟩ := hbehind p'.value later
            rw [ht, ← multipart_cons] at hz
            refine Or.inl ⟨p'.value, x', _, z, t, ?_, hx', hz⟩
            simp only [source, if_neg h, hvalue, hblank, List.head?_cons, Option.map_some]

theorem formValue_marker {x rest : List Char} (h : cut (marker f.name) t = some (x, rest)) :
    formValue t f.name = (cut blankLine rest).map fun r => Text.trim (before delimiter r.2) := by
  rw [formValue, splitOnce_marker, h]
  show (Text.splitOnce blankLine rest).map _ = _
  rw [splitOnce_blankLine]

theorem formValue_no_marker (h : cut (marker f.name) t = none) :
    formValue t f.name = (cut (key f.name) t).map fun r => Text.trim (plusToSpace (before ['&'] r.2)) := by
  rw [formValue, splitOnce_marker, h]
  show (Text.splitOnce (key f.name) t).map _ = _
  rw [splitOnce_key]

theorem trim_before_iff {w v : List Char} (hv : Text.trim v = v) (t : List Char) :
    Text.trim (before delimiter (w ++ delimiter ++ t)) = v ↔ Shows w v := by
  have hne : delimiter ≠ [] := by decide
  have hin : ¬ cut delimiter (w ++ delimiter) = none := by
    rw [cut_eq_none_iff hne, not_not]
    exact List.infix_append' w delimiter []
  obtain ⟨⟨x, y⟩, hx⟩ := Option.ne_none_iff_exists'.1 hin
  rw [before_eq hne (cut_append hx t)]
  constructor
  · intro h
    obtain ⟨a, b, heq, ha, hb⟩ := Text.exists_trimMatches Text.isWhitespace x
    have hxv : x = a ++ v ++ b := by
      rw [← h]
      exact heq
    refine ⟨a, b, ha, hb, ?_, ?_⟩
    · rw [← hxv]
      exact not_infix_of_cut hne hx
    · rw [← hxv, eq_of_cut hx]
      exact List.prefix_append _ y
  · rintro ⟨a, b, ha, hb, hno, u, hu⟩
    have hwhole : cut delimiter (a ++ v ++ b ++ delimiter ++ u) = some (a ++ v ++ b, u) :=
      cut_whole (by decide) hno u
    rw [hu, hx] at hwhole
    cases hwhole
    exact Text.trimMatches_pad hv ha hb

theorem exists_of_lookup {name v : List Char} (h : lookup name fields = some v) :
    ∃ p ∈ fields, p.name = name ∧ p.value = v := by
  obtain ⟨p, hp, hv⟩ := Option.map_eq_some_iff.1 h
  exact ⟨p, List.mem_of_find?_eq_some hp, by simpa using List.find?_some hp, hv⟩

theorem lookup_eq_none_iff {name : List Char} : lookup name fields = none ↔ ∀ p ∈ fields, p.name ≠ name := by
  rw [lookup, Option.map_eq_none_iff, List.find?_eq_none]
  simp only [decide_eq_true_eq, ne_eq]

theorem lookup_eq_none_of_source (h : source f fields = none) : lookup f.name fields = none := by
  rw [lookup_eq_none_iff]
  induction fields with
  | nil => exact fun p hp => absurd hp List.not_mem_nil
  | cons p later ih =>
    rw [source] at h
    by_cases hname : p.name = f.name
    · rw [if_pos hname] at h
      cases h
    · rw [if_neg hname] at h
      refine List.forall_mem_cons.2 ⟨hname, ?_⟩
      cases hvalue : cut (marker f.name) p.value with
      | none =>
        rw [hvalue] at h
        exact ih h
      | some r =>
        obtain ⟨y, q⟩ := r
        cases hblank : cut blankLine q with
        | some r =>
          obtain ⟨z, w⟩ := r
          simp only [hvalue, hblank] at h
          cases h
        | none =>
          simp only [hvalue, hblank] at h
          rw [Option.map_eq_none_iff, List.head?_eq_none_iff] at h
          rw [h]
          exact fun p hp => absurd hp List.not_mem_nil

theorem key_plain : '\r' ∉ key f.name ∧ '\n' ∉ key f.name ∧ '"' ∉ key f.name ∧ '-' ∉ key f.name := by
  cases f <;> decide

theorem key_boundary_iff (b : Multipart.Boundary) :
    key f.name <:+: dashes ++ boundaryText b ↔ key f.name <:+: boundaryText b := by
  have hne : key f.name ≠ [] := by simp [key]
  show key f.name <:+: [] ++ '-' :: ([] ++ '-' :: boundaryText b) ↔ _
  rw [infix_append_cons_iff key_plain.2.2.2, infix_append_cons_iff key_plain.2.2.2, List.infix_nil, or_iff_right hne,
    or_iff_right hne]

theorem key_headerLine_iff : key f.name <:+: headerLine p ↔ key f.name <:+: writtenName p.name := by
  have hne : key f.name ≠ [] := by simp [key]
  have hstart : ¬ key f.name <:+: disposition ++ nameWord := by
    cases f <;> decide
  show key f.name <:+: disposition ++ nameWord ++ '"' :: (writtenName p.name ++ '"' :: []) ↔ _
  rw [infix_append_cons_iff key_plain.2.2.1, infix_append_cons_iff key_plain.2.2.1, List.infix_nil, or_iff_right hstart,
    or_iff_left hne]

theorem key_multipart_iff (b : Multipart.Boundary) (fields : List Field) :
    key f.name <:+: FormEncoding.multipart b fields ↔ Mentions b fields f := by
  have hne : key f.name ≠ [] := by simp [key]
  obtain ⟨hcr, hlf, -, hdash⟩ := key_plain (f := f)
  induction fields with
  | nil =>
    have hend : FormEncoding.multipart b [] = dashes ++ boundaryText b ++ '-' :: ([] ++ '-' :: ([] ++ '\r' ::
        ([] ++ '\n' :: []))) := by
      rw [multipart_nil]
      simp only [dashes, crlf, List.append_assoc, List.cons_append, List.nil_append]
    rw [hend, infix_append_cons_iff hdash, infix_append_cons_iff hdash, infix_append_cons_iff hcr,
      infix_append_cons_iff hlf, List.infix_nil, key_boundary_iff]
    simp only [Mentions, hne, or_false, List.not_mem_nil, false_and, exists_false]
  | cons p later ih =>
    have hpart : FormEncoding.multipart b (p :: later) =
        dashes ++ boundaryText b ++ '\r' :: ([] ++ '\n' :: (headerLine p ++ '\r' :: ([] ++ '\n' :: ([] ++ '\r' ::
          ([] ++ '\n' :: (p.value ++ '\r' :: ([] ++ '\n' :: FormEncoding.multipart b later))))))) := by
      rw [multipart_cons, part_eq, front]
      simp only [crlf, List.append_assoc, List.cons_append, List.nil_append]
    have hlater : key f.name <:+: FormEncoding.multipart b later ↔ Mentions b later f := ih
    rw [hpart, infix_append_cons_iff hcr, infix_append_cons_iff hlf, infix_append_cons_iff hcr,
      infix_append_cons_iff hlf, infix_append_cons_iff hcr, infix_append_cons_iff hlf, infix_append_cons_iff hcr,
      infix_append_cons_iff hlf, hlater, key_boundary_iff, key_headerLine_iff, List.infix_nil]
    simp only [Mentions, hne, false_or, List.exists_mem_cons_iff]
    -- the boundary is in every part
    constructor
    · rintro (h | h | h | h | h)
      · exact Or.inl h
      · exact Or.inr (Or.inl (Or.inl h))
      · exact Or.inr (Or.inl (Or.inr h))
      · exact Or.inl h
      · exact Or.inr (Or.inr h)
    · rintro (h | (h | h) | h)
      · exact Or.inl h
      · exact Or.inr (Or.inl h)
      · exact Or.inr (Or.inr (Or.inl h))
      · exact Or.inr (Or.inr (Or.inr (Or.inr h)))

/-- Among parts, the value is what the text shows where it is looked for. -/
theorem formValue_multipart_iff (b : Multipart.Boundary) (htrim : ∀ p ∈ fields, Text.trim p.value = p.value) :
    formValue (FormEncoding.multipart b fields) f.name = lookup f.name fields ↔
      (Encoding.multipart b).Reads f fields := by
  have hlookup : ∀ v, lookup f.name fields = some v → Text.trim v = v := by
    intro v hv
    obtain ⟨p, hp, -, rfl⟩ := exists_of_lookup hv
    exact htrim p hp
  rcases marker_cases (f := f) b fields htrim with
    ⟨w, x, rest, a, t, hs, hx, ha⟩ | ⟨hs, hin, x, rest, hx, ha⟩ | ⟨hs, hall, hx⟩
  · rw [formValue_marker hx, ha, Encoding.Reads, hs]
    show some (Text.trim (before delimiter (w ++ delimiter ++ t))) = _ ↔ ∃ v, lookup f.name fields = some v ∧ Shows w v
    constructor
    · intro h
      exact ⟨_, h.symm, (trim_before_iff (hlookup _ h.symm) t).1 rfl⟩
    · rintro ⟨v, hv, hshows⟩
      rw [hv, (trim_before_iff (hlookup v hv) t).2 hshows]
  · rw [formValue_marker hx, ha, Encoding.Reads, hs, lookup_eq_none_of_source hs]
    exact iff_of_true rfl (Or.inl hin)
  · rw [formValue_no_marker hx, Encoding.Reads, hs, lookup_eq_none_of_source hs, Option.map_eq_none_iff,
      cut_eq_none_iff (by simp [key]), key_multipart_iff]
    constructor
    · intro h
      exact Or.inr h
    · rintro (⟨p, hp, hin⟩ | h)
      · exact absurd hin (hall p hp)
      · exact h

theorem formValue_urlencoded_iff (htrim : ∀ p ∈ fields, Text.trim p.value = p.value) :
    formValue (urlencoded fields) f.name = lookup f.name fields ↔ Encoding.urlencoded.Reads f fields := by
  rw [formValue_urlencoded htrim, Encoding.Reads]
  cases hfind : fields.find? fun p => decide (f.name <:+ p.name) with
  | some p =>
    constructor
    · intro h q hq
      cases hq
      exact h.symm
    · intro h
      exact (h p rfl).symm
  | none =>
    have hnone : lookup f.name fields = none := by
      rw [lookup_eq_none_iff]
      intro p hp hname
      have hsuffix := List.find?_eq_none.1 hfind p hp
      rw [hname] at hsuffix
      simp at hsuffix
    rw [hnone]
    refine iff_of_true rfl ?_
    intro p hp
    cases hp

/-- A field whose name ends no other one is read from its pair if its value is plain. -/
theorem reads_urlencoded_iff (hown : ∀ q ∈ fields, f.name <:+ q.name → q = p) (hp : p ∈ fields)
    (hname : p.name = f.name) :
    Encoding.urlencoded.Reads f fields ↔ IsPlain p.value := by
  have hfind : fields.find? (fun p => decide (f.name <:+ p.name)) = some p := by
    cases h : fields.find? fun p => decide (f.name <:+ p.name) with
    | none =>
      have hsuffix := List.find?_eq_none.1 h p hp
      rw [hname] at hsuffix
      simp at hsuffix
    | some q =>
      rw [hown q (List.mem_of_find?_eq_some h) (by simpa using List.find?_some h)]
  have hlookup : lookup f.name fields = some p.value := by
    rw [lookup]
    cases h : fields.find? fun p => decide (p.name = f.name) with
    | none => exact absurd hname (by simpa using List.find?_eq_none.1 h p hp)
    | some q =>
      have hq : q.name = f.name := by simpa using List.find?_some h
      rw [hown q (List.mem_of_find?_eq_some h) (by rw [hq])]
      rfl
  rw [Encoding.Reads, hfind, hlookup]
  constructor
  · intro h
    exact written_eq_self_iff.1 (Option.some.inj (h p rfl)).symm
  · intro h q hq
    cases hq
    rw [written_eq_self_iff.2 h]

end Reading

/-- Exactly when a field of a form is read as it was sent. -/
theorem formValue_encode_iff (form : Form) (e : Encoding) (f : VideoField) :
    formValue (e.encode form.fields) f.name = lookup f.name form.fields ↔ e.Reads f form.fields := by
  cases e with
  | multipart b => exact formValue_multipart_iff b form.trimmed
  | urlencoded => exact formValue_urlencoded_iff form.trimmed

/-- A form with one field. -/
def sampleForm : Form where
  fields := [⟨"prompt".toList, "été".toList⟩]
  distinct := by decide
  trimmed := by decide

/-- An accent stays escaped. -/
theorem formValue_not_encode :
    ¬ ∀ (form : Form) (e : Encoding) (f : VideoField), e.Fits form.fields →
      formValue (e.encode form.fields) f.name = lookup f.name form.fields := by
  intro h
  have hsample := h sampleForm .urlencoded .prompt trivial
  revert hsample
  decide +kernel

end Portal.VideoForm
