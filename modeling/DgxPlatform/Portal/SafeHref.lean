import DgxPlatform.Portal.SafeNext

/-! # The links of a model's answer

`safeHref` strips a link of its control characters and refuses what then names a scheme
that runs or reads something. The browser opens links by its own rules: it drops tabs and
line breaks inside a scheme, whose letters may have any case. `harmless`: a link passes
exactly if the browser reads no such scheme in what passes, and a link in which it would
have read one as it was written is refused.
-/

namespace Portal.Url

open Text

/-! ## The filter -/

/-- The schemes never legitimate in an answer of the model. -/
def DANGEROUS_SCHEME : List (List Char) :=
  ["javascript", "data", "vbscript", "file"].map String.toList

/-- `/[\u0000-\u001f\u007f]/`. -/
def isControl (c : Char) : Bool := c.toNat ≤ 0x1f || c.toNat == 0x7f

/-- `/^(?:…):/i` for one scheme. -/
def namesScheme (scheme url : List Char) : Bool := (scheme ++ [':']).isPrefixOf (url.map Char.toLower)

/-- The URL judged: without controls, and trimmed. -/
def cleanedHref (raw : Option (List Char)) : List Char :=
  trimMatches isJsSpace ((raw.getD []).filter fun c => !isControl c)

def safeHref (raw : Option (List Char)) : Option (List Char) :=
  let url := cleanedHref raw
  if url.isEmpty || DANGEROUS_SCHEME.any (namesScheme · url) then none else some url

/-! ## The browser -/

/-- What a browser parses of a link. -/
def browserText (t : List Char) : List Char :=
  (trimMatches isC0OrSpace t).filter fun c => !isTabOrNewline c

def browserScheme (t : List Char) : Option (List Char) := (schemeOf (browserText t)).map Prod.fst

/-! ## A scheme and its letters -/

variable {c : Char} {t scheme : List Char}

theorem toLower_cases (c : Char) :
    (c.isAlpha = true ∧ 97 ≤ c.toLower.toNat) ∨ c.toLower = c := by
  unfold Char.toLower
  split
  · next h =>
      obtain ⟨hlow, hhigh⟩ := h
      refine .inl ⟨?_, ?_⟩
      · have hupper : c.isUpper = true := decide_eq_true ⟨hlow, hhigh⟩
        exact Bool.or_eq_true_iff.2 (.inl hupper)
      · have h1 : 65 ≤ c.val.toNat := hlow
        have h2 : c.val.toNat ≤ 90 := hhigh
        show 97 ≤ (c.val + ('a'.val - 'A'.val)).toNat
        rw [UInt32.toNat_add, show ('a'.val - 'A'.val).toNat = 32 from rfl]
        omega
  · exact .inr rfl

theorem toLower_eq_colon (h : c.toLower = ':') : c = ':' := by
  rcases toLower_cases c with ⟨-, hletter⟩ | hsame
  · rw [h] at hletter
    exact absurd hletter (by decide)
  · rw [← hsame, h]

theorem isAlpha_of_toLower (h : c.toLower.isAlpha = true) : c.isAlpha = true := by
  rcases toLower_cases c with ⟨halpha, -⟩ | hsame
  · exact halpha
  · rwa [hsame] at h

theorem dangerous_letters (h : scheme ∈ DANGEROUS_SCHEME) :
    scheme ≠ [] ∧ ∀ c ∈ scheme, c.isAlpha = true := by
  have hall : (DANGEROUS_SCHEME.all fun s => !s.isEmpty && s.all Char.isAlpha) = true := by decide
  have hscheme := List.all_eq_true.1 hall scheme h
  rw [Bool.and_eq_true, List.all_eq_true] at hscheme
  exact ⟨by simpa using hscheme.1, hscheme.2⟩

theorem ne_colon_of_isAlpha (h : c.isAlpha = true) : c ≠ ':' := by
  rintro rfl
  exact absurd h (by decide)

/-- A text that names a scheme is the scheme in some case, a colon, and a rest. -/
theorem exists_of_namesScheme (h : namesScheme scheme t = true) :
    ∃ p r, t = p ++ ':' :: r ∧ p.map Char.toLower = scheme := by
  obtain ⟨w, hw⟩ := List.isPrefixOf_iff_prefix.1 h
  rw [List.append_assoc, List.singleton_append] at hw
  obtain ⟨p, rest, rfl, hp, hrest⟩ := List.map_eq_append_iff.1 hw.symm
  obtain ⟨d, r, rfl, hd, -⟩ := List.map_eq_cons_iff.1 hrest
  exact ⟨p, r, by rw [toLower_eq_colon hd], hp⟩

theorem namesScheme_of_map {p r : List Char} (h : p.map Char.toLower = scheme) :
    namesScheme scheme (p ++ ':' :: r) = true := by
  refine List.isPrefixOf_iff_prefix.2 ⟨r.map Char.toLower, ?_⟩
  simp [← h, show Char.toLower ':' = ':' from rfl]

theorem letters_of_map {p : List Char} (hs : scheme ∈ DANGEROUS_SCHEME)
    (hp : p.map Char.toLower = scheme) : p ≠ [] ∧ ∀ c ∈ p, c.isAlpha = true := by
  obtain ⟨hne, hletters⟩ := dangerous_letters hs
  subst hp
  refine ⟨fun hnil => hne (by rw [hnil]; rfl), fun c hc => ?_⟩
  exact isAlpha_of_toLower (hletters _ (List.mem_map_of_mem hc))

/-- The test of the filter finds the scheme that the browser finds. -/
theorem schemeOf_iff (hs : scheme ∈ DANGEROUS_SCHEME) :
    (schemeOf t).map Prod.fst = some scheme ↔ namesScheme scheme t = true := by
  constructor
  · intro h
    obtain ⟨⟨s, rest⟩, hsome, rfl⟩ := Option.map_eq_some_iff.1 h
    simp only [schemeOf, Option.ite_none_right_eq_some, Bool.and_eq_true, decide_eq_true_eq,
      Option.some.injEq, Prod.mk.injEq] at hsome
    obtain ⟨⟨-, hlen⟩, rfl, -⟩ := hsome
    -- the colon that ends the scheme is there
    have hcut := List.takeWhile_append_dropWhile (p := fun c => c != ':') (l := t)
    cases hdrop : t.dropWhile fun c => c != ':' with
    | nil =>
      rw [hdrop, List.append_nil] at hcut
      rw [hcut] at hlen
      exact absurd hlen (Nat.lt_irrefl _)
    | cons d r =>
      have hd : d = ':' := by
        have hhead := List.head_dropWhile_not (fun c => c != ':') (l := t)
          (by rw [hdrop]; exact List.cons_ne_nil d r)
        simpa [hdrop] using hhead
      have hnames := namesScheme_of_map (p := t.takeWhile fun c => c != ':') (r := r) rfl
      rw [hd] at hdrop
      rwa [← hdrop, hcut] at hnames
  · intro h
    obtain ⟨p, r, rfl, hp⟩ := exists_of_namesScheme h
    obtain ⟨hne, hletters⟩ := letters_of_map hs hp
    have htake : (p ++ ':' :: r).takeWhile (fun c => c != ':') = p := by
      rw [List.takeWhile_append_of_pos fun c hc => bne_iff_ne.2 (ne_colon_of_isAlpha (hletters c hc)),
        List.takeWhile_cons_of_neg (by simp), List.append_nil]
    have hscheme : isScheme p = true := by
      cases p with
      | nil => exact absurd rfl hne
      | cons a p =>
        refine Bool.and_eq_true _ _ ▸ ⟨hletters a List.mem_cons_self, List.all_eq_true.2 fun c hc => ?_⟩
        rw [Char.isAlphanum, hletters c hc, Bool.true_or, Bool.true_or, Bool.true_or, Bool.true_or]
    rw [schemeOf, htake, hscheme]
    simp [hp]

/-! ## The cleaned link -/

variable {raw : Option (List Char)}

theorem isControl_eq_false (h : 0x20 ≤ c.toNat) (h' : c.toNat ≠ 0x7f) : isControl c = false := by
  simp only [isControl, Bool.or_eq_false_iff, decide_eq_false_iff_not, beq_eq_false_iff_ne]
  omega

theorem isControl_of_tabOrNewline (h : isTabOrNewline c = true) : isControl c = true := by
  simp only [isTabOrNewline, Bool.or_eq_true, beq_iff_eq] at h
  rcases h with (rfl | rfl) | rfl <;> rfl

theorem not_isControl_of_mem (h : c ∈ cleanedHref raw) : isControl c = false := by
  obtain ⟨a, b, heq, -, -⟩ := exists_trimMatches isJsSpace ((raw.getD []).filter fun c => !isControl c)
  have hmem : c ∈ (raw.getD []).filter fun c => !isControl c := by
    rw [heq]
    exact List.mem_append_left _ (List.mem_append_right _ h)
  simpa using (List.mem_filter.1 hmem).2

/-- The browser parses the cleaned link as it is. -/
theorem browserText_cleanedHref (raw : Option (List Char)) :
    browserText (cleanedHref raw) = cleanedHref raw := by
  have hends := trimMatches_eq_self_iff.1
    (trimMatches_idem isJsSpace ((raw.getD []).filter fun c => !isControl c))
  -- a character of the link that the browser trims is a space, and no space stands at an end
  have hplain : ∀ c ∈ cleanedHref raw, isJsSpace c = false → isC0OrSpace c = false := by
    intro c hc hjs
    by_contra hspace
    have hcontrol := not_isControl_of_mem hc
    simp only [isC0OrSpace, Bool.not_eq_false, decide_eq_true_eq] at hspace
    simp only [isControl, Bool.or_eq_false_iff, decide_eq_false_iff_not] at hcontrol
    simp [isJsSpace, isWhitespace, show c.toNat = 0x20 by omega] at hjs
  have htrim : trimMatches isC0OrSpace (cleanedHref raw) = cleanedHref raw :=
    trimMatches_eq_self_iff.2
      ⟨fun c hc => hplain c (List.mem_of_mem_head? hc) (hends.1 c hc),
        fun c hc => hplain c (List.mem_of_mem_getLast? hc) (hends.2 c hc)⟩
  rw [browserText, htrim, List.filter_eq_self]
  intro c hc
  rw [Bool.not_eq_true', Bool.eq_false_iff]
  intro htab
  have hcontrol := not_isControl_of_mem hc
  rw [isControl_of_tabOrNewline htab] at hcontrol
  cases hcontrol

/-- A scheme that the browser reads in the link as it was written is found in the cleaned link. -/
theorem namesScheme_cleanedHref (hs : scheme ∈ DANGEROUS_SCHEME)
    (h : browserScheme (raw.getD []) = some scheme) : namesScheme scheme (cleanedHref raw) = true := by
  obtain ⟨a, b, heq, ha, -⟩ := exists_trimMatches isC0OrSpace (raw.getD [])
  obtain ⟨p, r, htext, hp⟩ := exists_of_namesScheme ((schemeOf_iff hs).1 h)
  obtain ⟨hne, hletters⟩ := letters_of_map hs hp
  have halpha : ∀ c, c.isAlpha = true → isControl c = false ∧ isJsSpace c = false := by
    intro c hc
    have hrange := toNat_of_isAlphanum (c := c) (by rw [Char.isAlphanum, hc, Bool.true_or])
    refine ⟨isControl_eq_false (by omega) (by omega), ?_⟩
    simp only [isJsSpace, isWhitespace, Bool.or_eq_false_iff, Bool.and_eq_false_iff,
      decide_eq_false_iff_not, beq_eq_false_iff_ne]
    omega
  -- the controls that the browser drops are some of those the filter drops
  have hfilter : (trimMatches isC0OrSpace (raw.getD [])).filter (fun c => !isControl c) =
      p ++ ':' :: r.filter fun c => !isControl c := by
    have hboth : (browserText (raw.getD [])).filter (fun c => !isControl c) =
        (trimMatches isC0OrSpace (raw.getD [])).filter fun c => !isControl c := by
      rw [browserText, List.filter_filter]
      refine List.filter_congr fun c _ => ?_
      cases htab : isTabOrNewline c with
      | false => simp
      | true => simp [isControl_of_tabOrNewline htab]
    rw [← hboth, htext, List.filter_append, List.filter_cons_of_pos (by decide),
      List.filter_eq_self.2 fun c hc => by simp [(halpha c (hletters c hc)).1]]
  have hlead : ∀ c ∈ a.filter (fun c => !isControl c), isJsSpace c = true := by
    intro c hc
    obtain ⟨hmem, hcontrol⟩ := List.mem_filter.1 hc
    have hspace := ha c hmem
    simp only [isC0OrSpace, decide_eq_true_eq] at hspace
    simp only [isControl, Bool.not_eq_true', Bool.or_eq_false_iff, decide_eq_false_iff_not] at hcontrol
    simp [isJsSpace, isWhitespace, show c.toNat = 0x20 by omega]
  have hstart : ∀ w, (p ++ w).dropWhile isJsSpace = p ++ w := by
    intro w
    obtain ⟨d, p, rfl⟩ := List.exists_cons_of_ne_nil hne
    exact List.dropWhile_cons_of_neg (by simp [(halpha d (hletters d List.mem_cons_self)).2])
  rw [cleanedHref, heq, List.filter_append, List.filter_append, hfilter, List.append_assoc, trimMatches,
    List.dropWhile_append_of_pos hlead, List.append_assoc, hstart, List.cons_append,
    trimEndMatches_append_cons (by decide)]
  exact namesScheme_of_map hp

/-! ## What is opened -/

/-- A link passes, as it is cleaned, exactly if the browser finds no dangerous scheme in what
passes; and where it would have found one in the link as written, the link is refused. -/
theorem harmless (raw : Option (List Char)) :
    (∀ url, safeHref raw = some url ↔ url = cleanedHref raw ∧ url ≠ [] ∧
      ∀ scheme, browserScheme url = some scheme → scheme ∉ DANGEROUS_SCHEME) ∧
    ∀ scheme ∈ DANGEROUS_SCHEME, browserScheme (raw.getD []) = some scheme → safeHref raw = none := by
  have hsame : ∀ scheme ∈ DANGEROUS_SCHEME,
      browserScheme (cleanedHref raw) = some scheme ↔ namesScheme scheme (cleanedHref raw) = true := by
    intro scheme hs
    rw [browserScheme, browserText_cleanedHref, schemeOf_iff hs]
  refine ⟨fun url => ?_, fun scheme hs hread => ?_⟩
  · simp only [safeHref, Option.ite_none_left_eq_some, Option.some.injEq, Bool.or_eq_true,
      List.isEmpty_iff, List.any_eq_true, not_or, not_exists, not_and]
    constructor
    · rintro ⟨⟨hne, hnone⟩, rfl⟩
      exact ⟨rfl, hne, fun scheme hread hs => hnone scheme hs ((hsame scheme hs).1 hread)⟩
    · rintro ⟨rfl, hne, hnone⟩
      exact ⟨⟨hne, fun scheme hs hname => hnone scheme ((hsame scheme hs).2 hname) hs⟩, rfl⟩
  · have hany : DANGEROUS_SCHEME.any (namesScheme · (cleanedHref raw)) = true :=
      List.any_eq_true.2 ⟨scheme, hs, namesScheme_cleanedHref hs hread⟩
    simp only [safeHref, hany, Bool.or_true, if_true]

/-- A line break inside the scheme, and a control in front of it. -/
example : safeHref (some "java\nscript:x".toList) = none ∧ safeHref (some "\x01DATA:x".toList) = none ∧
    safeHref (some " /a?b=data:c\n".toList) = some "/a?b=data:c".toList := by decide

end Portal.Url
