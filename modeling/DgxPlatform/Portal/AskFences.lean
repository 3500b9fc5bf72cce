import DgxPlatform.Portal.AskBlocks

/-! # Opening lines and fences

What the two regular expressions over fenced blocks read at one place.

* `artifactOpener_eq_some`, `fileOpener_eq_some`: both take a fence, a text and a
  line feed; the one lets the text be anything without a backtick, the other a
  label of letters, digits and `+`, `-`, `_`, and blanks.
-/

namespace Portal.Ask

open Text

/-! ## Opening lines -/

/-- A text that starts with a fence, `w` and a line feed. -/
def Opens (t w : List Char) : Prop :=
  '\x60' ∉ w ∧ '\n' ∉ w ∧ ∃ s, t = fence ++ w ++ '\n' :: s

theorem drop_length_takeWhile (p : Char → Bool) (t : List Char) :
    t.drop (t.takeWhile p).length = t.dropWhile p :=
  (congrArg (List.drop _) List.takeWhile_append_dropWhile).symm.trans List.drop_left

theorem takeWhile_stop {p : Char → Bool} {w : List Char} {c : Char} (hw : ∀ x ∈ w, p x = true)
    (hc : p c = false) (t : List Char) : (w ++ c :: t).takeWhile p = w := by
  rw [List.takeWhile_append_of_pos hw, List.takeWhile_cons_of_neg (by simp [hc]), List.append_nil]

variable {o : List Char × Nat}

theorem lineEnd_eq_some {label t : List Char} : lineEnd label t = some o ↔ ∃ blanks s, t = blanks ++ '\n' :: s ∧
      (∀ c ∈ blanks, isBlank c = true) ∧ o = (label, 3 + label.length + blanks.length + 1) := by
  constructor
  · intro h
    have hsplit := List.takeWhile_append_dropWhile (p := isBlank) (l := t)
    simp only [lineEnd, drop_length_takeWhile] at h
    cases hr : t.dropWhile isBlank with
    | nil => simp [hr] at h
    | cons c s =>
      rw [hr] at h hsplit
      split at h
      · next heq =>
          cases heq
          exact ⟨_, _, hsplit.symm, fun c hc => List.mem_takeWhile_imp hc,
            (Option.some.inj h).symm⟩
      · cases h
  · rintro ⟨blanks, s, rfl, hblanks, rfl⟩
    simp [lineEnd, takeWhile_stop hblanks (c := '\n') (by decide)]

variable {t : List Char}

theorem eq_fence_append (h : fence <+: t) : t = fence ++ t.drop 3 := by
  obtain ⟨s, rfl⟩ := h
  rfl

theorem isInfo_of_blank {c : Char} (h : isBlank c = true) : c ≠ '\n' ∧ c ≠ '\x60' := by
  constructor <;> rintro rfl <;> exact absurd h (by decide)

theorem isInfo_of_label {c : Char} (h : isLabelChar c = true) : c ≠ '\n' ∧ c ≠ '\x60' := by
  constructor <;> rintro rfl <;> exact absurd h (by decide)

theorem artifactOpener_eq_some : artifactOpener t = some o ↔ Opens t o.1 ∧ o.2 = o.1.length + 4 := by
  obtain ⟨info, head⟩ := o
  constructor
  · intro h
    unfold artifactOpener at h
    split at h
    · next hf =>
        simp only [drop_length_takeWhile] at h
        split at h
        · next s hs =>
            cases h
            refine ⟨⟨fun hm => ?_, fun hm => ?_, s, ?_⟩, by simp only; omega⟩
            · exact absurd (List.mem_takeWhile_imp hm) (by decide)
            · exact absurd (List.mem_takeWhile_imp hm) (by decide)
            · rw [List.append_assoc, ← hs, List.takeWhile_append_dropWhile]
              exact eq_fence_append hf
        · cases h
    · cases h
  · rintro ⟨⟨htick, hline, s, rfl⟩, hhead⟩
    dsimp only at htick hline hhead ⊢
    subst hhead
    have hinfo : ∀ c ∈ info, (c ≠ '\n' && c ≠ '\x60') = true := by
      intro c hc
      have h1 : c ≠ '\n' := fun h => hline (h ▸ hc)
      have h2 : c ≠ '\x60' := fun h => htick (h ▸ hc)
      simp [h1, h2]
    have hf : fence <+: fence ++ info ++ '\n' :: s := ⟨info ++ '\n' :: s, by simp⟩
    have hdrop : (fence ++ info ++ '\n' :: s).drop 3 = info ++ '\n' :: s := rfl
    simp only [artifactOpener, if_pos hf, hdrop, takeWhile_stop hinfo (c := '\n') (by decide),
      List.drop_left]
    rw [show 3 + info.length + 1 = info.length + 4 by omega]

/-- A label that `fileBounds` knows: letters, digits, `+`, `-`, `_`, then blanks. -/
def plain (w : List Char) : Bool := (w.dropWhile isLabelChar).all isBlank

theorem not_label_of_blank {c : Char} (h : isBlank c = true) : isLabelChar c = false := by
  rcases (Bool.or_eq_true _ _).mp h with h | h <;> rw [of_decide_eq_true h] <;> decide

/-- A label ends where the blanks, or the line feed behind them, begin. -/
theorem takeWhile_label {label blanks : List Char} (hlabel : ∀ c ∈ label, isLabelChar c = true)
    (hblanks : ∀ c ∈ blanks, isBlank c = true) (s : List Char) :
    (label ++ (blanks ++ '\n' :: s)).takeWhile isLabelChar = label := by
  cases blanks with
  | nil => exact takeWhile_stop hlabel (by decide) s
  | cons c blanks =>
    exact takeWhile_stop hlabel (not_label_of_blank (hblanks c List.mem_cons_self)) _

theorem takeWhile_label' {label blanks : List Char} (hlabel : ∀ c ∈ label, isLabelChar c = true)
    (hblanks : ∀ c ∈ blanks, isBlank c = true) :
    (label ++ blanks).takeWhile isLabelChar = label := by
  cases blanks with
  | nil => rw [List.append_nil, List.takeWhile_eq_self_iff.2 hlabel]
  | cons c blanks =>
    exact takeWhile_stop hlabel (not_label_of_blank (hblanks c List.mem_cons_self)) _

theorem fileOpener_eq_some : fileOpener t = some o ↔
      ∃ w, Opens t w ∧ plain w = true ∧ o = (w.takeWhile isLabelChar, w.length + 4) := by
  constructor
  · intro h
    unfold fileOpener at h
    split at h
    · next hf =>
        obtain ⟨blanks, s, ht, hblanks, rfl⟩ := lineEnd_eq_some.1 h
        have hlabel : ∀ c ∈ (t.drop 3).takeWhile isLabelChar, isLabelChar c = true :=
          fun c hc => List.mem_takeWhile_imp hc
        have hsplit := List.takeWhile_append_dropWhile (p := isLabelChar) (l := t.drop 3)
        rw [drop_length_takeWhile] at ht
        rw [ht] at hsplit
        generalize (t.drop 3).takeWhile isLabelChar = label at hlabel hsplit ⊢
        have htake := takeWhile_label' hlabel hblanks
        refine ⟨label ++ blanks, ⟨fun hm => ?_, fun hm => ?_, s, ?_⟩, ?_, ?_⟩
        · rcases List.mem_append.1 hm with hm | hm
          · exact (isInfo_of_label (hlabel _ hm)).2 rfl
          · exact (isInfo_of_blank (hblanks _ hm)).2 rfl
        · rcases List.mem_append.1 hm with hm | hm
          · exact (isInfo_of_label (hlabel _ hm)).1 rfl
          · exact (isInfo_of_blank (hblanks _ hm)).1 rfl
        · rw [List.append_assoc, List.append_assoc, hsplit]
          exact eq_fence_append hf
        · rw [plain, ← drop_length_takeWhile, htake, List.drop_left, List.all_eq_true]
          exact hblanks
        · rw [htake, List.length_append]
          exact congrArg _ (by omega)
    · cases h
  · rintro ⟨w, ⟨htick, hline, s, rfl⟩, hplain, rfl⟩
    have hlabel : ∀ c ∈ w.takeWhile isLabelChar, isLabelChar c = true :=
      fun c hc => List.mem_takeWhile_imp hc
    have hblanks : ∀ c ∈ w.dropWhile isLabelChar, isBlank c = true := List.all_eq_true.1 hplain
    have hw := List.takeWhile_append_dropWhile (p := isLabelChar) (l := w)
    generalize w.takeWhile isLabelChar = label at hlabel hw ⊢
    generalize w.dropWhile isLabelChar = blanks at hblanks hw
    subst hw
    have hf : fence <+: fence ++ (label ++ blanks) ++ '\n' :: s := ⟨label ++ blanks ++ '\n' :: s, by simp⟩
    have hdrop : (fence ++ (label ++ blanks) ++ '\n' :: s).drop 3 = label ++ (blanks ++ '\n' :: s) := by
      simp [fence]
    simp only [fileOpener, if_pos hf, hdrop, takeWhile_label hlabel hblanks s, List.drop_left]
    rw [lineEnd_eq_some]
    refine ⟨blanks, s, rfl, hblanks, ?_⟩
    rw [List.length_append]
    exact congrArg _ (by omega)

/-! ## Where the fences are -/

def FenceAt (t : List Char) (p : Nat) : Prop := fence <+: t.drop p

theorem fence_ne_nil : fence ≠ [] := List.cons_ne_nil _ _

theorem FenceAt.get {p : Nat} (h : FenceAt t p) {i : Nat} (hi : i < 3) : t[p + i]? = some '\x60' := by
  obtain ⟨s, hs⟩ := h
  rw [← List.getElem?_drop, ← hs]
  match i with
  | 0 | 1 | 2 => rfl

theorem Opens.not_fenceAt {t w : List Char} {a q : Nat} (h : Opens (t.drop a) w) (haq : a < q)
    (hq : q < a + (w.length + 4)) : ¬ FenceAt t q := by
  intro hf
  obtain ⟨htick, -, s, hs⟩ := h
  -- the first place of the fence at `q` that is behind the fence at `a`
  obtain ⟨i, hi, j, hj⟩ : ∃ i, i < 3 ∧ ∃ j, q + i = a + (3 + j) ∧ j ≤ w.length := by
    rcases Nat.lt_or_ge q (a + 3) with hlt | hge
    · exact ⟨a + 3 - q, by omega, 0, by omega, by omega⟩
    · exact ⟨0, by omega, q - (a + 3), by omega, by omega⟩
  have hget := hf.get hi
  rw [hj.1, ← List.getElem?_drop, hs, List.append_assoc,
    List.getElem?_append_right (by simp [fence])] at hget
  have hj3 : 3 + j - fence.length = j := by simp [fence]
  rw [hj3] at hget
  have hmem : '\x60' ∈ w ++ ['\n'] := by
    refine List.mem_iff_getElem?.2 ⟨j, ?_⟩
    rcases Nat.lt_or_ge j w.length with hlt | hge
    · rw [List.getElem?_append_left hlt] at hget ⊢
      exact hget
    · have hjw : j = w.length := by omega
      rw [hjw, List.getElem?_append_right (Nat.le_refl _), Nat.sub_self] at hget ⊢
      exact hget
  rcases List.mem_append.1 hmem with hmem | hmem
  · exact htick hmem
  · exact absurd (List.mem_singleton.1 hmem) (by decide)

/-! ## A block as it is read -/

variable {b : Block}

theorem Block.length_of_closed (h : b.closed = true) : b.length = b.head + b.body.length + 3 := by
  rw [Block.length, if_pos h]

theorem Block.length_of_open (h : b.closed = false) : b.length = b.head + b.body.length := by
  rw [Block.length, if_neg (by simp [h])]
  rfl

/-- What a match is: an opening line and a body that the first fence closes, or none. -/
theorem blockAt_eq_some {opener : List Char → Option (List Char × Nat)} {toEnd : Bool} :
    blockAt opener toEnd t = some b ↔ opener t = some (b.label, b.head) ∧
      ((b.closed = true ∧ ∃ rest, Framing.cut fence (t.drop b.head) = some (b.body, rest)) ∨
        (b.closed = false ∧ toEnd = true ∧ Framing.cut fence (t.drop b.head) = none ∧
          b.body = t.drop b.head)) := by
  obtain ⟨label, head, body, closed⟩ := b
  unfold blockAt
  cases ho : opener t with
  | none => simp
  | some o =>
    obtain ⟨label', head'⟩ := o
    simp only [Option.bind_some]
    cases hc : Framing.cut fence (t.drop head') with
    | none =>
      cases toEnd with
      | false =>
        constructor
        · intro h
          cases h
        · rintro ⟨heq, ⟨-, rest, hcut⟩ | ⟨-, hend, -⟩⟩
          · cases heq
            rw [hc] at hcut
            cases hcut
          · cases hend
      | true =>
        constructor
        · intro h
          cases h
          exact ⟨rfl, Or.inr ⟨rfl, rfl, hc, rfl⟩⟩
        · rintro ⟨heq, ⟨-, rest, hcut⟩ | ⟨hclosed, -, -, hbody⟩⟩
          · cases heq
            rw [hc] at hcut
            cases hcut
          · cases heq
            subst hclosed hbody
            rfl
    | some r =>
      obtain ⟨body', rest'⟩ := r
      constructor
      · intro h
        cases h
        exact ⟨rfl, Or.inl ⟨rfl, rest', hc⟩⟩
      · rintro ⟨heq, ⟨hclosed, rest, hcut⟩ | ⟨-, -, hcut, -⟩⟩
        · cases heq
          rw [hc] at hcut
          cases hcut
          subst hclosed
          rfl
        · cases heq
          rw [hc] at hcut
          cases hcut

theorem length_le_of_blockAt {opener : List Char → Option (List Char × Nat)} {toEnd : Bool}
    (h : blockAt opener toEnd t = some b) (hb : b.body ≠ []) :
    b.length ≤ t.length := by
  have hpos := List.length_pos_iff.2 hb
  rcases (blockAt_eq_some.1 h).2 with ⟨hclosed, rest, hcut⟩ | ⟨hclosed, -, -, hbody⟩
  · have hlen := congrArg List.length (Framing.eq_of_cut hcut)
    simp only [List.length_drop, List.length_append, fence, List.length_cons,
      List.length_nil] at hlen
    rw [Block.length_of_closed hclosed]
    omega
  · have hlen := congrArg List.length hbody
    rw [List.length_drop] at hlen
    rw [Block.length_of_open hclosed]
    omega

/-- Behind the start of a match, the first fence is the closing one. -/
theorem fence_behind {q p : Nat}
    (h : blockAt fileOpener true (t.drop q) = some b) (hp : FenceAt t p) (hqp : q < p) :
    q + b.head + b.body.length ≤ p := by
  obtain ⟨hopen, hcase⟩ := blockAt_eq_some.1 h
  obtain ⟨w, hw, -, ho⟩ := fileOpener_eq_some.1 hopen
  have hhead : b.head = w.length + 4 := (Prod.mk.inj ho).2
  by_contra hlt
  rcases Nat.lt_or_ge p (q + b.head) with hin | hout
  · exact hw.not_fenceAt hqp (by omega) hp
  · have hdrop : t.drop p = ((t.drop q).drop b.head).drop (p - (q + b.head)) := by
      rw [List.drop_drop, List.drop_drop]
      congr 1
      omega
    rw [FenceAt, hdrop] at hp
    rcases hcase with ⟨-, rest, hcut⟩ | ⟨-, -, hcut, -⟩
    · exact Framing.not_prefix_of_cut hcut (by omega) hp
    · exact Framing.not_prefix_of_cut_none fence_ne_nil hcut _ hp

/-! ## Closing by force -/

/-- What is put behind an answer to close its last block. -/
def forced : List Char := '\n' :: fence

theorem closedContent_eq (content : List Char) :
    ∃ z, (z = [] ∨ z = forced) ∧ closedContent content = content ++ z := by
  unfold closedContent
  split
  · exact ⟨forced, Or.inr rfl, rfl⟩
  · exact ⟨[], Or.inl rfl, (List.append_nil _).symm⟩

theorem FenceAt.of_forced {p : Nat} (h : FenceAt (t ++ forced) p) (hp : p < t.length) : FenceAt t p := by
  rcases Nat.lt_or_ge t.length (p + 3) with hlt | hge
  · -- the line feed would be a backtick
    have hget := h.get (i := t.length - p) (by omega)
    rw [show p + (t.length - p) = t.length by omega,
      List.getElem?_append_right (Nat.le_refl _), Nat.sub_self] at hget
    exact absurd (Option.some.inj hget) (by decide)
  · rw [FenceAt, List.drop_append_of_le_length (by omega)] at h
    exact List.prefix_of_prefix_length_le h (List.prefix_append _ _)
      (by simp only [fence, List.length_cons, List.length_nil, List.length_drop]; omega)

theorem cut_forced {s : List Char} (h : Framing.cut fence s = none) :
    Framing.cut fence (s ++ forced) = some (s ++ ['\n'], []) := by
  induction s with
  | nil => rfl
  | cons x s ih =>
    have hno : ¬ fence <+: x :: (s ++ forced) := fun hf =>
      Framing.not_prefix_of_cut_none fence_ne_nil h 0
        (FenceAt.of_forced (t := x :: s) hf (by simp))
    rw [Framing.cut] at h
    split at h
    · cases h
    · rw [List.cons_append, Framing.cut, if_neg hno, ih (Option.map_eq_none_iff.1 h)]
      rfl

/-- Where an opening line of an answer that is closed by force stands: inside the answer,
or it is the answer's last line. -/
theorem opens_append {t z w : List Char} (hz : z = [] ∨ z = forced) (h : Opens (t ++ z) w) : Opens t w ∨ (z = forced ∧ t = fence ++ w) := by
  obtain ⟨htick, hline, s, hs⟩ := h
  rcases List.append_eq_append_iff.1 hs with ⟨a, ha, hza⟩ | ⟨b, hb, hsb⟩
  · -- the opening line is as long as the answer, or longer
    rcases hz with rfl | rfl
    · cases a <;> simp at hza
    · cases a with
      | nil => exact Or.inr ⟨rfl, by simpa using ha.symm⟩
      | cons c a =>
        have hc : c = '\n' := (List.cons.inj hza).1.symm
        have hmem : '\n' ∈ fence ++ w := by
          rw [ha, hc]
          simp
        rcases List.mem_append.1 hmem with hmem | hmem
        · exact absurd hmem (by decide)
        · exact absurd hmem hline
  · cases b with
    | nil =>
      rw [List.append_nil] at hb
      rw [List.nil_append] at hsb
      rcases hz with rfl | rfl
      · cases hsb
      · exact Or.inr ⟨rfl, hb⟩
    | cons c b =>
      rw [List.cons_append] at hsb
      obtain ⟨rfl, hsb⟩ := List.cons.inj hsb
      exact Or.inl ⟨htick, hline, b, hb⟩

theorem Opens.length_le {t w : List Char} (h : Opens t w) : w.length + 4 ≤ t.length := by
  obtain ⟨-, -, s, rfl⟩ := h
  simp only [fence, List.length_append, List.length_cons, List.length_nil]
  omega

theorem artifactOpener_head (h : blockAt artifactOpener false t = some b) :
    Opens t b.label ∧ b.head = b.label.length + 4 ∧ b.closed = true := by
  obtain ⟨hopen, hcase⟩ := blockAt_eq_some.1 h
  refine ⟨(artifactOpener_eq_some.1 hopen).1, (artifactOpener_eq_some.1 hopen).2, ?_⟩
  rcases hcase with ⟨hclosed, -⟩ | ⟨-, hend, -⟩
  · exact hclosed
  · cases hend

/-- What `fileBounds` reads in the text `t` where `parseArtifacts` reads `b`: the same, or
all that there is, without the line feed of the forced end. -/
structure Same (t : List Char) (b b' : Block) : Prop where
  label : b'.label = b.label.takeWhile isLabelChar
  head : b'.head = b.head
  body : (b'.closed = true ∧ b'.body = b.body ∧ b'.length = b.length ∧ b.length ≤ t.length) ∨
    (b'.closed = false ∧ b.body = b'.body ++ ['\n'] ∧ b'.length = t.length ∧
      t.length < b.length)

/-- What both expressions read at an opening line that is all in the answer. -/
theorem file_at {t z : List Char} (hz : z = [] ∨ z = forced)
    (hb : blockAt artifactOpener false (t ++ z) = some b) (hw : Opens t b.label)
    (hplain : plain b.label = true) :
    ∃ b', blockAt fileOpener true t = some b' ∧ Same t b b' := by
  obtain ⟨-, hhead, hclosed⟩ := artifactOpener_head hb
  have hfile : fileOpener t = some (b.label.takeWhile isLabelChar, b.label.length + 4) :=
    fileOpener_eq_some.2 ⟨b.label, hw, hplain, rfl⟩
  have hle := hw.length_le
  rcases (blockAt_eq_some.1 hb).2 with ⟨-, rest, hcut⟩ | ⟨-, hend, -⟩
  · rw [hhead, List.drop_append_of_le_length hle] at hcut
    cases hc : Framing.cut fence (t.drop (b.label.length + 4)) with
    | some r =>
      obtain ⟨body, rest'⟩ := r
      rw [Framing.cut_append hc z] at hcut
      have hbody : body = b.body := (Prod.mk.inj (Option.some.inj hcut)).1
      have hlen := congrArg List.length (Framing.eq_of_cut hc)
      refine ⟨⟨_, _, body, true⟩, blockAt_eq_some.2 ⟨hfile, Or.inl ⟨rfl, rest', hc⟩⟩,
        ⟨rfl, hhead.symm, Or.inl ⟨rfl, hbody, ?_, ?_⟩⟩⟩
      · simp only [Block.length, hhead, hbody, hclosed]
      · simp only [List.length_drop, List.length_append, fence, List.length_cons,
          List.length_nil] at hlen
        rw [Block.length_of_closed hclosed, hhead, ← hbody]
        omega
    | none =>
      rcases hz with rfl | rfl
      · rw [List.append_nil, hc] at hcut
        cases hcut
      · rw [cut_forced hc] at hcut
        have hbody : t.drop (b.label.length + 4) ++ ['\n'] = b.body :=
          (Prod.mk.inj (Option.some.inj hcut)).1
        refine ⟨⟨_, _, t.drop (b.label.length + 4), false⟩,
          blockAt_eq_some.2 ⟨hfile, Or.inr ⟨rfl, rfl, hc, rfl⟩⟩,
          ⟨rfl, hhead.symm, Or.inr ⟨rfl, hbody.symm, ?_, ?_⟩⟩⟩
        · rw [Block.length_of_open rfl, List.length_drop]
          dsimp only
          omega
        · have hlen := congrArg List.length hbody
          simp only [List.length_append, List.length_drop, List.length_cons,
            List.length_nil] at hlen
          rw [Block.length_of_closed hclosed]
          omega
  · cases hend

end Portal.Ask
