import DgxPlatform.Lib.Regex
import DgxPlatform.Portal.Rejoin

/-! # What is said of an answer

`speakable` takes the markup out of a model's answer, and `nextSentences` cuts what is left into the
sentences that go to the voice one by one. Texts are lists of UTF-16 units, as the offsets count them.

* `spoken_of_pieces`: they say what the text says there.
-/

namespace Portal.Voice

open Rejoin (JsText isSpace lowerUnit units trim trimEnd lineFeed)

/-! ## The text to be said -/

abbrev Rule := Rx UInt16 Nat

def oneOf (cs : String) (u : UInt16) : Bool := (units cs).contains u

def noneOf (cs : String) (u : UInt16) : Bool := !oneOf cs u

def word (s : String) : List Rule := Rx.letters (units s)

/-- With the flag `i`. -/
def wordAnyCase (s : String) : List Rule := (units s).map fun c => Rx.one fun u => decide (lowerUnit u = c)

/-- `[\s\S]*?` -/
def anything : Rule := .chars none (fun _ => true) 0 none true

/-- `$1`, `$2`. -/
def captured (n : Nat) (caps : List (Nat × JsText)) : JsText := (caps.lookup n).getD []

def space (_ : List (Nat × JsText)) : JsText := units " "

def lineBreak (_ : List (Nat × JsText)) : JsText := units "\n"

def nothing (_ : List (Nat × JsText)) : JsText := []

/-- A thought written into the answer. -/
def thought : Rule :=
  Rx.seqs ([Rx.many isSpace] ++ wordAnyCase "<think>" ++ [anything, .alt (Rx.seqs (wordAnyCase "</think>")) .eot])

def codeBlock : Rule :=
  Rx.seqs (word "\x60\x60\x60" ++ [anything, .alt (Rx.seqs (word "\x60\x60\x60")) .eot])

def image : Rule :=
  Rx.seqs (word "![" ++ [Rx.many (noneOf "]")] ++ word "](" ++ [Rx.many (noneOf ")"), Rx.one (oneOf ")")])

def link : Rule :=
  Rx.seqs (word "[" ++ [.chars (some 1) (noneOf "]") 1 none false] ++ word "](" ++
    [Rx.many (noneOf ")"), Rx.one (oneOf ")")])

def bareUrl : Rule :=
  Rx.seqs (word "http" ++ [Rx.opt (oneOf "s")] ++ word "://" ++ [Rx.many1 fun u => !isSpace u])

def inlineCode : Rule :=
  Rx.seqs (word "\x60" ++ [.chars (some 1) (noneOf "\x60") 0 none false] ++ word "\x60")

def heading : Rule :=
  Rx.seqs [.chars none isSpace 0 (some 3) false, .chars none (oneOf "#") 1 (some 6) false, Rx.many1 isSpace]

def quoteMark : Rule :=
  Rx.seqs [.chars none isSpace 0 (some 3) false, Rx.one (oneOf ">"), Rx.opt isSpace]

def listMarker : Rule :=
  Rx.seqs [Rx.many isSpace,
    .alt (Rx.one (oneOf "-*+")) (.seq (Rx.many1 (oneOf "0123456789")) (Rx.one (oneOf ".)"))),
    Rx.many1 isSpace]

/-- The lookahead `(?=\S)` is about the first character of the group. -/
def emphasisOf (mark : String) : Rule :=
  Rx.seqs (word mark ++
    [.group 2 (.seq (Rx.one fun u => noneOf "*_~\n" u && !isSpace u) (.chars none (noneOf "*_~\n") 0 none true))] ++
    word mark)

def emphasis : Rule :=
  .alt (emphasisOf "**") (.alt (emphasisOf "__") (.alt (emphasisOf "*") (.alt (emphasisOf "_") (emphasisOf "~~"))))

def pipe : Rule := Rx.one (oneOf "|")

def blanks : Rule := Rx.many1 (oneOf " \t")

def breaks : Rule := .chars none (oneOf "\n") 2 none false

/-- What `^` with the flag `m` may stand behind. -/
def isLineEnd (u : UInt16) : Bool := u == 10 || u == 13 || u == 0x2028 || u == 0x2029

def speakable (md : JsText) : JsText :=
  let t := Rx.replaceStart thought space md
  let t := Rx.replaceAll codeBlock space t
  let t := Rx.replaceAll image space t
  let t := Rx.replaceAll link (captured 1) t
  let t := Rx.replaceAll bareUrl space t
  let t := Rx.replaceAll inlineCode (captured 1) t
  let t := Rx.replaceLines isLineEnd heading nothing t
  let t := Rx.replaceLines isLineEnd quoteMark nothing t
  let t := Rx.replaceLines isLineEnd listMarker nothing t
  let t := Rx.replaceAll emphasis (captured 2) t
  let t := Rx.replaceAll pipe space t
  let t := Rx.replaceAll blanks space t
  let t := Rx.replaceAll breaks lineBreak t
  trim t

/-! ## The sentences -/

def MIN_CHARS : Nat := 14

structure Sentence where
  text : JsText
  start : Nat
  stop : Nat
deriving DecidableEq

def isPoint : UInt16 → Bool := oneOf ".!?…"

def isClosing : UInt16 → Bool := oneOf "\"»”')]"

/-- The length of a boundary at the head of a text. With fewer points or closing marks, one of
them would stand where white space has to. -/
def boundary (t : JsText) : Option Nat :=
  let points := t.takeWhile isPoint
  let marks := (t.dropWhile isPoint).takeWhile isClosing
  let rest := (t.dropWhile isPoint).dropWhile isClosing
  if points ≠ [] ∧ rest.head?.all isSpace = true then some (points.length + marks.length)
  else if t.head? = some lineFeed then some 1
  else none

def slice (text : JsText) (start stop : Nat) : JsText := (text.drop start).take (stop - start)

/-- The loop over the boundaries; the search goes on at `pos`. -/
def cutLoop (text : JsText) (final : Bool) : Nat → Nat → Nat → List Sentence → List Sentence × Nat
  | 0, _, start, sentences => (sentences, start)
  | fuel + 1, pos, start, sentences =>
      match boundary (text.drop pos) with
      | none => cutLoop text final fuel (pos + 1) start sentences
      | some n =>
          if !final && decide (text.length ≤ pos + n) then (sentences, start)
          else
            let piece := trim (slice text start (pos + n))
            if decide (piece.length < MIN_CHARS) && !final then cutLoop text final fuel (pos + n) start sentences
            else
              cutLoop text final fuel (pos + n) (pos + n)
                (if piece ≠ [] then sentences ++ [⟨piece, start, pos + n⟩] else sentences)

/-- The sentences, and where the next call starts. -/
def nextSentences (text : JsText) (start : Nat) (final : Bool) : List Sentence × Nat :=
  -- every round goes forward in the text
  let r := cutLoop text final text.length start start []
  let rest := trim (text.drop r.2)
  if final && decide (rest ≠ []) then (r.1 ++ [⟨rest, r.2, text.length⟩], text.length) else r

/-! ## Consecutive pieces -/

def Blank (t : JsText) : Prop := ∀ u ∈ t, isSpace u = true

/-- Sentences that lie one behind the other in the text, from `a` to `b`, with only white space
around them. -/
inductive Pieces (text : JsText) : Nat → List Sentence → Nat → Prop
  | rest {a b : Nat} (hle : a ≤ b) (hblank : Blank (slice text a b)) : Pieces text a [] b
  | piece {a b : Nat} (s : Sentence) {ss : List Sentence} (hle : a ≤ s.start) (hblank : Blank (slice text a s.start))
      (hlt : s.start < s.stop) (htext : s.text = trim (slice text s.start s.stop)) (hne : s.text ≠ [])
      (h : Pieces text s.stop ss b) : Pieces text a (s :: ss) b

/-- What is not white space. -/
def spoken (t : JsText) : JsText := t.filter fun u => !isSpace u

variable {text text' t : JsText} {a b c : Nat} {s : Sentence} {ss ss' : List Sentence} {final : Bool}

theorem slice_append (hab : a ≤ b) (hbc : b ≤ c) : slice text a c = slice text a b ++ slice text b c := by
  have hlen : c - a = (b - a) + (c - b) := by omega
  have hdrop : (text.drop a).drop (b - a) = text.drop b := by
    rw [List.drop_drop]
    congr 1
    omega
  rw [slice, hlen, List.take_add, hdrop]
  rfl

theorem slice_self (text : JsText) (a : Nat) : slice text a a = [] := by
  rw [slice, Nat.sub_self, List.take_zero]

theorem slice_length (text : JsText) (a : Nat) : slice text a text.length = text.drop a := by
  rw [slice, ← List.length_drop, List.take_length]

theorem slice_congr (h : text.take c = text'.take c) (hbc : b ≤ c) : slice text a b = slice text' a b := by
  have hslice : ∀ t : JsText, slice t a b = ((t.take c).drop a).take (b - a) := by
    intro t
    rw [slice, List.drop_take, List.take_take, Nat.min_eq_left (by omega)]
  rw [hslice, hslice, h]

theorem blank_append {u v : JsText} : Blank (u ++ v) ↔ Blank u ∧ Blank v := List.forall_mem_append

theorem trimEnd_eq_nil_iff : trimEnd t = [] ↔ Blank t := List.rdropWhile_eq_nil_iff

theorem trim_eq_nil_iff : trim t = [] ↔ Blank t := by
  rw [trim, trimEnd_eq_nil_iff]
  constructor
  · intro h u hu
    rw [← List.takeWhile_append_dropWhile (p := isSpace) (l := t)] at hu
    rcases List.mem_append.1 hu with hu | hu
    · exact List.mem_takeWhile_imp hu
    · exact h u hu
  · intro h u hu
    exact h u ((List.dropWhile_suffix isSpace).subset hu)

theorem spoken_append (u v : JsText) : spoken (u ++ v) = spoken u ++ spoken v := List.filter_append u v

theorem spoken_of_blank (h : Blank t) : spoken t = [] := by
  rw [spoken, List.filter_eq_nil_iff]
  intro u hu
  rw [h u hu]
  decide

theorem spoken_trim (t : JsText) : spoken (trim t) = spoken t := by
  have hend : ∀ t : JsText, spoken (trimEnd t) = spoken t := by
    intro t
    have hblank : Blank (t.rtakeWhile isSpace) := fun u hu => List.mem_rtakeWhile_imp hu
    have hsplit : trimEnd t ++ t.rtakeWhile isSpace = t := List.rdropWhile_append_rtakeWhile ..
    conv_rhs => rw [← hsplit, spoken_append, spoken_of_blank hblank, List.append_nil]
  have hblank : Blank (t.takeWhile isSpace) := fun u hu => List.mem_takeWhile_imp hu
  rw [trim, hend]
  conv_rhs => rw [← List.takeWhile_append_dropWhile (p := isSpace) (l := t), spoken_append, spoken_of_blank hblank]
  rfl

namespace Pieces

theorem le (h : Pieces text a ss b) : a ≤ b := by
  induction h with
  | rest hle hblank => exact hle
  | piece s hle hblank hlt htext hne h ih => omega

theorem of_blank (hle : a ≤ b) (hblank : Blank (slice text a b)) (h : Pieces text b ss c) : Pieces text a ss c := by
  cases h with
  | rest hle' hblank' =>
    refine .rest (hle.trans hle') ?_
    rw [slice_append hle hle', blank_append]
    exact ⟨hblank, hblank'⟩
  | piece s hle' hblank' hlt htext hne h =>
    refine .piece s (hle.trans hle') ?_ hlt htext hne h
    rw [slice_append hle hle', blank_append]
    exact ⟨hblank, hblank'⟩

theorem append (h : Pieces text a ss b) (h' : Pieces text b ss' c) : Pieces text a (ss ++ ss') c := by
  induction h with
  | rest hle hblank => exact of_blank hle hblank h'
  | piece s hle hblank hlt htext hne h ih => exact .piece s hle hblank hlt htext hne (ih h')

theorem congr (h : Pieces text a ss b) (htake : text.take b = text'.take b) : Pieces text' a ss b := by
  induction h with
  | rest hle hblank =>
    rw [slice_congr htake (Nat.le_refl _)] at hblank
    exact .rest hle hblank
  | piece s hle hblank hlt htext hne h ih =>
    have hstop := h.le
    rw [slice_congr htake (by omega)] at hblank htext
    exact .piece s hle hblank hlt htext hne (ih htake)

theorem spoken_eq (h : Pieces text a ss b) : spoken (ss.flatMap Sentence.text) = spoken (slice text a b) := by
  induction h with
  | rest hle hblank => exact (spoken_of_blank hblank).symm
  | piece s hle hblank hlt htext hne h ih =>
    rw [List.flatMap_cons, spoken_append, ih, htext, spoken_trim, slice_append hle (hlt.le.trans h.le),
      spoken_append, spoken_of_blank hblank, slice_append hlt.le h.le, spoken_append]
    rfl

end Pieces

theorem pieces_cut (h : Pieces text a ss b) (hbc : b < c) :
    Pieces text a
      (if trim (slice text b c) ≠ [] then ss ++ [⟨trim (slice text b c), b, c⟩] else ss) c := by
  have hnil : Blank (slice text b b) := by
    rw [slice_self]
    exact List.forall_mem_nil _
  have hend : Pieces text c [] c := by
    refine .rest (Nat.le_refl c) ?_
    rw [slice_self]
    exact List.forall_mem_nil _
  split
  · next hne => exact h.append (.piece ⟨_, b, c⟩ (Nat.le_refl b) hnil hbc rfl hne hend)
  · next hblank =>
      have hrest : Pieces text b [] c := .rest hbc.le (trim_eq_nil_iff.1 (not_not.1 hblank))
      simpa using h.append hrest

theorem boundary_pos {n : Nat} (h : boundary t = some n) : 0 < n := by
  unfold boundary at h
  dsimp only at h
  split_ifs at h with hpoints
  · have hpos := List.length_pos_iff.2 hpoints.1
    cases h
    omega
  · cases h
    exact Nat.one_pos

theorem boundary_le {n : Nat} (h : boundary t = some n) : n ≤ t.length := by
  unfold boundary at h
  dsimp only at h
  split_ifs at h with hpoints hfeed
  · cases h
    have hwhole := congrArg List.length (List.takeWhile_append_dropWhile (p := isPoint) (l := t))
    have hmarks := (List.takeWhile_prefix isClosing (l := t.dropWhile isPoint)).length_le
    rw [List.length_append] at hwhole
    omega
  · cases h
    cases t with
    | nil => cases hfeed
    | cons u t => exact Nat.succ_pos _

theorem cutLoop_pieces (fuel pos b : Nat) (hpos : b ≤ pos) (hlen : b ≤ text.length) (h : Pieces text a ss b) :
    Pieces text a (cutLoop text final fuel pos b ss).1 (cutLoop text final fuel pos b ss).2 ∧
      (cutLoop text final fuel pos b ss).2 ≤ text.length := by
  induction fuel generalizing pos b ss with
  | zero => exact ⟨h, hlen⟩
  | succ fuel ih =>
    rw [cutLoop]
    cases hb : boundary (text.drop pos) with
    | none => exact ih (pos + 1) b (by omega) hlen h
    | some n =>
      have hn := boundary_pos hb
      have hle := boundary_le hb
      rw [List.length_drop] at hle
      have hcut : Pieces text a _ (pos + n) := pieces_cut h (by omega)
      dsimp only
      by_cases hwait : (!final && decide (text.length ≤ pos + n)) = true
      · rw [if_pos hwait]
        exact ⟨h, hlen⟩
      · rw [if_neg hwait]
        by_cases hshort : (decide ((trim (slice text b (pos + n))).length < MIN_CHARS) && !final) = true
        · rw [if_pos hshort]
          exact ih (pos + n) b (by omega) hlen h
        · rw [if_neg hshort]
          exact ih (pos + n) (pos + n) (Nat.le_refl _) (by omega) hcut

/-- What is cut lies one behind the other, up to where the next call starts. -/
theorem nextSentences_pieces (start : Nat) (final : Bool) (hstart : start ≤ text.length) :
    Pieces text start (nextSentences text start final).1 (nextSentences text start final).2 ∧
      (nextSentences text start final).2 ≤ text.length := by
  have hnil : Pieces text start [] start := by
    refine .rest (Nat.le_refl start) ?_
    rw [slice_self]
    exact List.forall_mem_nil _
  obtain ⟨hloop, hlen⟩ : Pieces text start (cutLoop text final text.length start start []).1
      (cutLoop text final text.length start start []).2 ∧ (cutLoop text final text.length start start []).2 ≤ text.length :=
    cutLoop_pieces text.length start start (Nat.le_refl start) hstart hnil
  unfold nextSentences
  dsimp only
  split_ifs with htail
  · rw [Bool.and_eq_true, decide_eq_true_eq] at htail
    have hlt : (cutLoop text final text.length start start []).2 < text.length := by
      by_contra hge
      rw [List.drop_eq_nil_of_le (by omega)] at htail
      exact htail.2 rfl
    have hcut := pieces_cut hloop hlt
    rw [slice_length, if_pos htail.2] at hcut
    exact ⟨hcut, Nat.le_refl _⟩
  · exact ⟨hloop, hlen⟩

theorem nextSentences_final (start : Nat) (hstart : start ≤ text.length) :
    Pieces text start (nextSentences text start true).1 text.length := by
  obtain ⟨hpieces, hlen⟩ := nextSentences_pieces start true hstart
  have hrest : Blank (slice text (nextSentences text start true).2 text.length) := by
    rw [slice_length]
    unfold nextSentences
    dsimp only
    split_ifs with htail
    · rw [List.drop_length]
      exact List.forall_mem_nil _
    · rw [Bool.true_and, decide_eq_true_eq, not_not] at htail
      exact trim_eq_nil_iff.1 htail
  have hwhole := hpieces.append (.rest hlen hrest)
  rwa [List.append_nil] at hwhole

end Portal.Voice
