import DgxPlatform.Portal.VoiceText
import Mathlib.Data.List.Chain

/-! # Sentences of a growing text

What has been cut stays when the text grows, and a text that is cut in several calls is cut
completely.

* `prefix_nextSentences`: a longer text gives the same sentences first.
-/

namespace Portal.Voice

open Rejoin (JsText isSpace trim units lineFeed)

variable {p s t u text : JsText} {a b c : Nat} {ss : List Sentence}

/-! ## Boundaries -/

theorem split_append {q : UInt16 → Bool} (h : t.dropWhile q ≠ []) (u : JsText) :
    (t ++ u).takeWhile q = t.takeWhile q ∧ (t ++ u).dropWhile q = t.dropWhile q ++ u := by
  induction t with
  | nil => exact absurd rfl h
  | cons x t ih =>
    cases hx : q x with
    | false => simp [hx]
    | true =>
      rw [List.dropWhile_cons_of_pos hx] at h
      simp [hx, ih h]

/-- If something stands behind the points and the marks, nothing further behind matters. -/
theorem boundary_append_of_rest (h : (t.dropWhile isPoint).dropWhile isClosing ≠ []) (u : JsText) :
    boundary (t ++ u) = boundary t := by
  have hpoints : t.dropWhile isPoint ≠ [] := by
    intro hnil
    rw [hnil] at h
    exact h rfl
  have hne : t ≠ [] := by
    rintro rfl
    exact h rfl
  rcases split_append hpoints u with ⟨htake, hdrop⟩
  rcases split_append h u with ⟨htake', hdrop'⟩
  unfold boundary
  dsimp only
  rw [htake, hdrop, htake', hdrop', List.head?_append_of_ne_nil _ h, List.head?_append_of_ne_nil _ hne]

/-- More text behind: nothing changes, unless the boundary reaches the end. -/
theorem boundary_append (hne : t ≠ []) (hend : ∀ n, boundary t = some n → n < t.length) (u : JsText) :
    boundary (t ++ u) = boundary t := by
  by_cases hrest : (t.dropWhile isPoint).dropWhile isClosing = []
  · -- the text is points and marks only
    by_cases hpoints : t.takeWhile isPoint = []
    · -- no points: it begins with a mark
      cases t with
      | nil => exact absurd rfl hne
      | cons x t =>
        have hx : isPoint x = false := by
          cases hp : isPoint x with
          | false => rfl
          | true =>
            rw [List.takeWhile_cons_of_pos hp] at hpoints
            cases hpoints
        have hmark : isClosing x = true := by
          rw [List.dropWhile_cons_of_neg (by simp [hx]), List.dropWhile_eq_nil_iff] at hrest
          exact hrest x List.mem_cons_self
        have hfeed : x ≠ lineFeed := by
          rintro rfl
          exact absurd hmark (by decide)
        simp [boundary, hx, hfeed]
    · exfalso
      have hlen : (t.takeWhile isPoint).length + ((t.dropWhile isPoint).takeWhile isClosing).length = t.length := by
        have hmarks := List.takeWhile_append_dropWhile (p := isClosing) (l := t.dropWhile isPoint)
        rw [hrest, List.append_nil] at hmarks
        rw [hmarks, ← List.length_append, List.takeWhile_append_dropWhile]
      have hsome : boundary t = some t.length := by
        unfold boundary
        dsimp only
        rw [hrest, hlen, if_pos ⟨hpoints, rfl⟩]
      exact Nat.lt_irrefl _ (hend _ hsome)
  · exact boundary_append_of_rest hrest u

/-! ## A longer text -/

theorem cutLoop_extends (text : JsText) (final : Bool) (fuel pos b : Nat) (ss : List Sentence) :
    ss <+: (cutLoop text final fuel pos b ss).1 := by
  induction fuel generalizing pos b ss with
  | zero => exact List.prefix_refl ss
  | succ fuel ih =>
    rw [cutLoop]
    cases boundary (text.drop pos) with
    | none => exact ih (pos + 1) b ss
    | some n =>
      dsimp only
      split_ifs with hwait hshort hpiece
      · exact List.prefix_refl ss
      · exact ih (pos + n) b ss
      · exact (List.prefix_append ss _).trans (ih (pos + n) (pos + n) _)
      · exact ih (pos + n) (pos + n) ss

theorem cutLoop_end (final : Bool) (fuel b : Nat) (ss : List Sentence) {pos : Nat} (hpos : text.length ≤ pos) :
    cutLoop text final fuel pos b ss = (ss, b) := by
  induction fuel generalizing pos with
  | zero => rfl
  | succ fuel ih =>
    have hnone : boundary (text.drop pos) = none := by
      rw [List.drop_eq_nil_of_le hpos]
      decide
    rw [cutLoop, hnone]
    exact ih (Nat.le_succ_of_le hpos)

/-- The two loops go the same way until the first one waits for what follows. -/
theorem cutLoop_prefix (u : JsText) {fuel fuel' : Nat} (hfuel : fuel ≤ fuel') (pos b : Nat) (ss : List Sentence) :
    (cutLoop p false fuel pos b ss).1 <+: (cutLoop (p ++ u) false fuel' pos b ss).1 := by
  induction fuel generalizing fuel' pos b ss with
  | zero => exact cutLoop_extends (p ++ u) false fuel' pos b ss
  | succ fuel ih =>
    rcases Nat.lt_or_ge pos p.length with hin | hout
    · cases fuel' with
      | zero => exact absurd hfuel (Nat.not_succ_le_zero fuel)
      | succ fuel' =>
        have hfuel' := Nat.le_of_succ_le_succ hfuel
        have hdrop : (p ++ u).drop pos = p.drop pos ++ u := List.drop_append_of_le_length hin.le
        have hne : p.drop pos ≠ [] := by
          intro hnil
          rw [List.drop_eq_nil_iff] at hnil
          omega
        cases hb : boundary (p.drop pos) with
        | none =>
          have hsame : boundary ((p ++ u).drop pos) = none := by
            rw [hdrop, boundary_append hne (by simp [hb]), hb]
          rw [cutLoop, hb, cutLoop, hsame]
          exact ih hfuel' (pos + 1) b ss
        | some n =>
          by_cases hwait : p.length ≤ pos + n
          · -- the end of the text may be no boundary: the first loop stops here
            have hstop : (cutLoop p false (fuel + 1) pos b ss).1 = ss := by
              rw [cutLoop, hb]
              dsimp only
              rw [if_pos (by simpa using hwait)]
            rw [hstop]
            exact cutLoop_extends (p ++ u) false (fuel' + 1) pos b ss
          · have hsame : boundary ((p ++ u).drop pos) = some n := by
              rw [hdrop, boundary_append hne, hb]
              intro m hm
              rw [hb, Option.some.injEq] at hm
              rw [List.length_drop]
              omega
            have hwait' : ¬ (p ++ u).length ≤ pos + n := by
              rw [List.length_append]
              omega
            have hgo : ¬ (!false && decide (p.length ≤ pos + n)) = true := by simpa using hwait
            have hgo' : ¬ (!false && decide ((p ++ u).length ≤ pos + n)) = true := by simpa using hwait'
            have htake : p.take (pos + n) = (p ++ u).take (pos + n) :=
              (List.take_append_of_le_length (by omega)).symm
            have hpiece : slice (p ++ u) b (pos + n) = slice p b (pos + n) :=
              (slice_congr htake (Nat.le_refl _)).symm
            rw [cutLoop, hb, cutLoop, hsame]
            dsimp only
            rw [if_neg hgo, if_neg hgo', hpiece]
            by_cases hshort : (decide ((trim (slice p b (pos + n))).length < MIN_CHARS) && !false) = true
            · rw [if_pos hshort, if_pos hshort]
              exact ih hfuel' (pos + n) b ss
            · rw [if_neg hshort, if_neg hshort]
              exact ih hfuel' (pos + n) (pos + n) _
    · rw [cutLoop_end false (fuel + 1) b ss hout]
      exact cutLoop_extends (p ++ u) false fuel' pos b ss

theorem nextSentences_eq (text : JsText) (start : Nat) :
    nextSentences text start false = cutLoop text false text.length start start [] := by
  simp [nextSentences]

theorem prefix_nextSentences (h : p <+: s) (start : Nat) :
    (nextSentences p start false).1 <+: (nextSentences s start false).1 := by
  rcases h with ⟨u, rfl⟩
  rw [nextSentences_eq, nextSentences_eq]
  exact cutLoop_prefix u (by simp) start start []

/-! ## Several calls -/

/-- The calls on growing texts, each one from where the one before ended. -/
def cutGrowing (start : Nat) : List JsText → List Sentence × Nat
  | [] => ([], start)
  | t :: ts =>
      let r := nextSentences t start false
      let rest := cutGrowing r.2 ts
      (r.1 ++ rest.1, rest.2)

/-- They and the final call. -/
def cutChain (start : Nat) (texts : List JsText) (last : JsText) : List Sentence :=
  let r := cutGrowing start texts
  r.1 ++ (nextSentences last r.2 true).1

theorem cutChain_cons (start : Nat) (t : JsText) (texts : List JsText) (last : JsText) :
    cutChain start (t :: texts) last =
      (nextSentences t start false).1 ++ cutChain (nextSentences t start false).2 texts last :=
  List.append_assoc _ _ _

/-- The sentences of all calls lie one behind the other in the last text, and nothing is left. -/
theorem cutChain_pieces {start : Nat} {texts : List JsText} {last : JsText}
    (hgrow : (texts ++ [last]).IsChain (· <+: ·)) (hstart : ∀ t ∈ (texts ++ [last]).head?, start ≤ t.length) :
    Pieces last start (cutChain start texts last) last.length := by
  induction texts generalizing start with
  | nil => exact nextSentences_final start (hstart last rfl)
  | cons t texts ih =>
    have hlen : start ≤ t.length := hstart t rfl
    rcases nextSentences_pieces start false hlen with ⟨hpieces, hend⟩
    rw [List.cons_append] at hgrow
    -- every later text begins with this one
    have hfirst : ∀ t' ∈ texts ++ [last], t <+: t' := by
      have hpair := List.isChain_iff_pairwise.1 hgrow
      exact (List.pairwise_cons.1 hpair).1
    have hlast : t <+: last := hfirst last (by simp)
    have hnext : ∀ t' ∈ (texts ++ [last]).head?, (nextSentences t start false).2 ≤ t'.length := by
      intro t' ht'
      exact hend.trans (hfirst t' (List.mem_of_mem_head? ht')).length_le
    have htake : t.take (nextSentences t start false).2 = last.take (nextSentences t start false).2 := by
      rcases hlast with ⟨u, rfl⟩
      exact (List.take_append_of_le_length hend).symm
    rw [cutChain_cons]
    exact (hpieces.congr htake).append (ih hgrow.tail hnext)

/-! ## What pieces are -/

namespace Pieces

theorem range (h : Pieces text a ss b) :
    ∀ x ∈ ss, (a ≤ x.start ∧ x.start < x.stop ∧ x.stop ≤ b) ∧ x.text = trim (slice text x.start x.stop) := by
  induction h with
  | rest hle hblank => exact List.forall_mem_nil _
  | piece s hle hblank hlt htext hne h ih =>
    rw [List.forall_mem_cons]
    refine ⟨⟨⟨hle, hlt, h.le⟩, htext⟩, ?_⟩
    intro x hx
    rcases ih x hx with ⟨⟨hstart, hstop⟩, hx⟩
    exact ⟨⟨by omega, hstop⟩, hx⟩

theorem increasing (h : Pieces text a ss b) : ss.Pairwise fun x y => x.stop ≤ y.start := by
  induction h with
  | rest hle hblank => exact List.Pairwise.nil
  | piece s hle hblank hlt htext hne h ih => exact List.pairwise_cons.2 ⟨fun x hx => (h.range x hx).1.1, ih⟩

theorem blank_at (hblank : Blank (slice text a b)) {i : Nat} (ha : a ≤ i) (hb : i < b) :
    ∀ x ∈ text[i]?, isSpace x = true := by
  intro x hx
  have hin : (slice text a b)[i - a]? = some x := by
    rw [slice, List.getElem?_take_of_lt (by omega), List.getElem?_drop, Nat.add_sub_cancel' ha]
    exact hx
  exact hblank x (List.mem_of_getElem? hin)

theorem outside (h : Pieces text a ss b) {i : Nat} (ha : a ≤ i) (hb : i < b)
    (hout : ∀ x ∈ ss, ¬ (x.start ≤ i ∧ i < x.stop)) : ∀ x ∈ text[i]?, isSpace x = true := by
  induction h with
  | rest hle hblank => exact blank_at hblank ha hb
  | piece s hle hblank hlt htext hne h ih =>
    rw [List.forall_mem_cons] at hout
    rcases Nat.lt_or_ge i s.start with hbefore | hafter
    · exact blank_at hblank ha hbefore
    · rcases Nat.lt_or_ge i s.stop with hin | hbehind
      · exact absurd ⟨hafter, hin⟩ hout.1
      · exact ih hbehind hb hout.2

end Pieces

/-- Cutting is stable when the text grows, and loses nothing: `p` and `s` are two stages of a text,
`texts` and `last` the stages of a chain of calls. -/
theorem nextSentences_growing {offset start : Nat} {texts : List JsText} {last : JsText} (hp : p <+: s)
    (hgrow : (texts ++ [last]).IsChain (· <+: ·)) (hstart : ∀ t ∈ (texts ++ [last]).head?, start ≤ t.length) :
    (nextSentences p offset false).1 <+: (nextSentences s offset false).1 ∧
      ((cutChain start texts last).Pairwise fun x y => x.stop ≤ y.start) ∧
      (∀ x ∈ cutChain start texts last, (start ≤ x.start ∧ x.start < x.stop ∧ x.stop ≤ last.length) ∧
        x.text = trim (slice last x.start x.stop)) ∧
      ∀ i, start ≤ i → i < last.length → (∀ x ∈ cutChain start texts last, ¬ (x.start ≤ i ∧ i < x.stop)) →
        ∀ c ∈ last[i]?, isSpace c = true := by
  have hpieces := cutChain_pieces hgrow hstart
  refine ⟨prefix_nextSentences hp offset, hpieces.increasing, hpieces.range, ?_⟩
  intro i hlow hhigh hout
  exact hpieces.outside hlow hhigh hout

/-- The first text ends in the middle of a number. -/
def sampleTexts : List JsText := [units "Elle pese 3.", units "Elle pese 3.5 kilos. Vous la"]

def sampleLast : JsText := units "Elle pese 3.5 kilos. Vous la voulez ?"

theorem nextSentences_sample :
    (nextSentences (units "Elle pese 3.") 0 false).1 <+: (nextSentences sampleLast 0 false).1 ∧
      ((cutChain 0 sampleTexts sampleLast).Pairwise fun x y => x.stop ≤ y.start) ∧
      (∀ x ∈ cutChain 0 sampleTexts sampleLast, (0 ≤ x.start ∧ x.start < x.stop ∧ x.stop ≤ sampleLast.length) ∧
        x.text = trim (slice sampleLast x.start x.stop)) ∧
      ∀ i, 0 ≤ i → i < sampleLast.length →
        (∀ x ∈ cutChain 0 sampleTexts sampleLast, ¬ (x.start ≤ i ∧ i < x.stop)) →
          ∀ c ∈ sampleLast[i]?, isSpace c = true := by
  refine nextSentences_growing ?_ ?_ ?_
  · decide +kernel
  · unfold sampleTexts sampleLast
    decide +kernel
  · intro t _
    exact Nat.zero_le _

end Portal.Voice
