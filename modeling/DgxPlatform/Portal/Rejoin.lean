import DgxPlatform.Lib.CommonRun
import DgxPlatform.Lib.Lines
import DgxPlatform.Lib.Text

/-! # A file and its continuation

`rejoin` glues a continuation onto a file that was cut. What the continuation repeats is looked
for as a run of lines that the end of the file and the start of the continuation have in common,
else as a piece of the cut line. Texts are lists of UTF-16 units here, since the two windows are
cut by their number.
-/

namespace Portal.Rejoin

open Text (isJsSpace)

abbrev JsText := List UInt16

def lineFeed : UInt16 := 10

/-- White space: all of it is in the basic plane. -/
def isSpace (u : UInt16) : Bool := isJsSpace (Char.ofNat u.toNat)

def trimEnd (t : JsText) : JsText := t.rdropWhile isSpace

def trim (t : JsText) : JsText := trimEnd (t.dropWhile isSpace)

def units (s : String) : JsText := s.toList.map fun c => UInt16.ofNat c.toNat

/-! ## A document that is written anew -/

/-- A letter without its case. -/
def lowerUnit (u : UInt16) : UInt16 := if 65 ≤ u ∧ u ≤ 90 then u + 32 else u

def startsWith (word t : JsText) : Bool := (t.take word.length).map lowerUnit = word

/-- `<!DOCTYPE|<html[\s>]` at the head of a text. -/
def opensHtml (t : JsText) : Bool :=
  startsWith (units "<!doctype") t ||
    (startsWith (units "<html") t && (t[5]?).any fun u => isSpace u || u = 62)

/-- `<\/html\s*>` at the head of a text. -/
def closesHtml (t : JsText) : Bool :=
  startsWith (units "</html") t && ((t.drop 6).dropWhile isSpace).head? = some 62

/-- The continuation goes all the way and pulls its weight. -/
def rewrites (base continuation : JsText) : Bool :=
  opensHtml (continuation.dropWhile isSpace) && base.tails.any opensHtml && continuation.tails.any closesHtml &&
    decide (base.length ≤ 2 * continuation.length)

/-! ## Common lines -/

@[irreducible] def REJOIN_TAIL : Nat := 6000

@[irreducible] def REJOIN_HEAD : Nat := 6000

def REJOIN_MIN_LINES : Nat := 3

def REJOIN_MIN_CHARS : Nat := 60

def REJOIN_MAX_REMOVED : Nat := 2000

structure Line where
  text : JsText
  pos : Nat
deriving DecidableEq

def placeLines (pos : Nat) : List JsText → List Line
  | [] => []
  | l :: ls => ⟨trimEnd l, pos⟩ :: placeLines (pos + (l.length + 1)) ls

/-- `splitLines`. -/
def splitLines (text : JsText) (startPos : Nat) : List Line := placeLines startPos (text.splitOn lineFeed)

/-- A common run of lines: where it begins, its lines, their characters, and how many of them
are long. -/
structure Run where
  base : Nat
  continuation : Nat
  lines : Nat
  charCount : Nat
  useful : Nat
deriving DecidableEq

/-- The loop over `k`, from one line of each. -/
def runFrom (i j : Nat) : List Line → List Line → Run
  | a :: as, b :: bs =>
      if a.text = b.text then
        let t := trim a.text
        let r := runFrom i j as bs
        ⟨i, j, r.lines + 1, t.length + r.charCount, (if 10 ≤ t.length then 1 else 0) + r.useful⟩
      else ⟨i, j, 0, 0, 0⟩
  | _, _ => ⟨i, j, 0, 0, 0⟩

/-- The run counts. -/
def Run.Counts (r : Run) : Prop :=
  REJOIN_MIN_LINES ≤ r.lines ∧ 1 ≤ r.useful ∧ REJOIN_MIN_CHARS ≤ r.charCount

instance (r : Run) : Decidable r.Counts := inferInstanceAs (Decidable (_ ∧ _))

/-- The runs in the order of the two loops. -/
def runs (lb ls : List Line) : List Run :=
  lb.tails.flatMap fun as =>
    ls.tails.filterMap fun bs =>
      match as, bs with
      | a :: _, b :: _ => some (runFrom a.pos b.pos as bs)
      | _, _ => none

/-- One round of the loops. -/
def better (found : Option Run) (r : Run) : Option Run :=
  if r.Counts ∧ (found.all fun b => decide (b.charCount < r.charCount)) = true then some r else found

/-- `best` behind the loops. -/
def best (l : List Run) : Option Run := l.foldl better none

/-- The windows in which runs are looked for. -/
def tailLines (base : JsText) : List Line :=
  splitLines (base.drop (base.length - REJOIN_TAIL)) (base.length - REJOIN_TAIL)

def headLines (continuation : JsText) : List Line := splitLines (continuation.take REJOIN_HEAD) 0

def bestRun (base continuation : JsText) : Option Run := best (runs (tailLines base) (headLines continuation))

/-! ## The splice -/

/-- The last line of a text. -/
def lastLine (t : JsText) : JsText := t.rtakeWhile (· ≠ lineFeed)

def firstLine (t : JsText) : JsText := t.takeWhile (· ≠ lineFeed)

/-- How much of the continuation repeats the cut line. -/
def repeated (base continuation : JsText) : Nat :=
  if trim (lastLine base) = [] then 0
  else
    ((List.range (min (lastLine base).length (firstLine continuation).length + 1)).reverse.find? fun k =>
      decide (3 ≤ k) && ((firstLine continuation).take k).isSuffixOf (lastLine base)).getD 0

/-- `joinLine`. -/
def joinLine (base continuation : JsText) : JsText := base ++ continuation.drop (repeated base continuation)

/-- `rejoin`. -/
def rejoin (base continuation : JsText) : JsText :=
  if rewrites base continuation then continuation
  else
    match (bestRun base continuation).filter fun r => decide (base.length - r.base ≤ REJOIN_MAX_REMOVED) with
    | some r => base.take r.base ++ continuation.drop r.continuation
    | none => joinLine base continuation

/-! ## The run that is taken -/

/-- Of the runs that count, the first of those with the most characters. -/
def First (l : List Run) (r : Run) : Prop :=
  r.Counts ∧ ∃ before behind, l = before ++ r :: behind ∧
    (∀ r' ∈ before, r'.Counts → r'.charCount < r.charCount) ∧
    ∀ r' ∈ behind, r'.Counts → r'.charCount ≤ r.charCount

theorem First.le {l : List Run} {r r' : Run} (h : First l r) (hr' : r' ∈ l) (hcounts : r'.Counts) :
    r'.charCount ≤ r.charCount := by
  obtain ⟨-, before, behind, rfl, hbefore, hbehind⟩ := h
  rcases List.mem_append.1 hr' with hmem | hmem
  · exact (hbefore r' hmem hcounts).le
  · rcases List.mem_cons.1 hmem with rfl | hmem
    · exact le_refl _
    · exact hbehind r' hmem hcounts

theorem First.unique {l : List Run} {r r' : Run} (h : First l r) (h' : First l r') : r = r' := by
  have hle := @First.le l r r' h
  have hle' := @First.le l r' r h'
  obtain ⟨hcounts, before, behind, rfl, hbefore, -⟩ := h
  obtain ⟨hcounts', before', behind', heq, hbefore', -⟩ := h'
  have hr := hle' (by simp) hcounts
  have hr' := hle (by rw [heq]; simp) hcounts'
  -- neither stands in front of the other
  rcases List.append_eq_append_iff.1 heq with ⟨a, ha, htail⟩ | ⟨a, ha, htail⟩
  · cases a with
    | nil => exact (List.cons.inj htail).1
    | cons x a =>
      obtain ⟨rfl, -⟩ := List.cons.inj htail
      have hlt := hbefore' r (by rw [ha]; simp) hcounts
      omega
  · cases a with
    | nil => exact (List.cons.inj htail).1.symm
    | cons x a =>
      obtain ⟨rfl, -⟩ := List.cons.inj htail
      have hlt := hbefore r' (by rw [ha]; simp) hcounts'
      omega

/-- What the two loops have found in the runs so far. -/
def Found (l : List Run) : Option Run → Prop
  | none => ∀ r ∈ l, ¬ r.Counts
  | some r => First l r

theorem found_best (l : List Run) : Found l (best l) := by
  unfold best
  induction l using List.reverseRecOn with
  | nil => exact fun r hr => absurd hr List.not_mem_nil
  | append_singleton l r ih =>
    rw [List.foldl_concat]
    cases hbest : l.foldl better none with
    | none =>
      rw [hbest] at ih
      unfold better
      split_ifs with hcounts
      · exact ⟨hcounts.1, l, [], rfl, fun r' hr' h => absurd h (ih r' hr'), nofun⟩
      · intro r' hr'
        rcases List.mem_append.1 hr' with hmem | hmem
        · exact ih r' hmem
        · rw [List.mem_singleton.1 hmem]
          exact fun h => hcounts ⟨h, Option.all_none⟩
    | some b =>
      rw [hbest] at ih
      unfold better
      split_ifs with hcounts
      · have hlt : b.charCount < r.charCount := of_decide_eq_true hcounts.2
        exact ⟨hcounts.1, l, [], rfl, fun r' hr' h => lt_of_le_of_lt (ih.le hr' h) hlt, nofun⟩
      · obtain ⟨hb, before, behind, rfl, hbefore, hbehind⟩ := ih
        refine ⟨hb, before, behind ++ [r], by simp, hbefore, ?_⟩
        intro r' hr' h
        rcases List.mem_append.1 hr' with hmem | hmem
        · exact hbehind r' hmem h
        · rw [List.mem_singleton.1 hmem] at h ⊢
          by_contra hlt
          exact hcounts ⟨h, decide_eq_true (not_le.1 hlt)⟩

/-- The run that `rejoin` takes, if it takes one. -/
def IsBest (base continuation : JsText) (r : Run) : Prop :=
  First (runs (tailLines base) (headLines continuation)) r

variable {base continuation : JsText} {r : Run}

theorem bestRun_eq_some_iff : bestRun base continuation = some r ↔ IsBest base continuation r := by
  have hfound : Found (runs (tailLines base) (headLines continuation)) (bestRun base continuation) :=
    found_best (runs (tailLines base) (headLines continuation))
  constructor
  · intro h
    rw [h] at hfound
    exact hfound
  · intro h
    cases hbest : bestRun base continuation with
    | none =>
      rw [hbest] at hfound
      obtain ⟨hcounts, before, behind, heq, -⟩ := h
      exact absurd hcounts (hfound r (by rw [heq]; simp))
    | some r' =>
      rw [hbest] at hfound
      exact congrArg some (First.unique hfound h)

theorem bestRun_eq_none
    (h : ∀ r ∈ runs (tailLines base) (headLines continuation), ¬ r.Counts) : bestRun base continuation = none := by
  rw [Option.eq_none_iff_forall_ne_some]
  intro r hr
  obtain ⟨hcounts, before, behind, heq, -⟩ := bestRun_eq_some_iff.1 hr
  exact h r (by rw [heq]; simp) hcounts

/-! ## The lines of a run -/

theorem tail_placeLines {pos : Nat} {ls : List JsText} {as : List Line} (h : as <:+ placeLines pos ls) :
    ∃ pre post, ls = pre ++ post ∧ as = placeLines (pos + (pre.map (·.length + 1)).sum) post := by
  induction ls generalizing pos with
  | nil => exact ⟨[], [], rfl, List.suffix_nil.1 h⟩
  | cons l ls ih =>
    rcases List.suffix_cons_iff.1 h with heq | htail
    · exact ⟨[], l :: ls, rfl, heq⟩
    · obtain ⟨pre, post, rfl, has⟩ := ih htail
      refine ⟨l :: pre, post, rfl, ?_⟩
      rw [has, List.map_cons, List.sum_cons, Nat.add_assoc]

theorem map_text_placeLines (pos : Nat) (ls : List JsText) : (placeLines pos ls).map Line.text = ls.map trimEnd := by
  induction ls generalizing pos with
  | nil => rfl
  | cons l ls ih =>
    rw [placeLines, List.map_cons, List.map_cons, ih]

/-- A part of a text in lines, as one of the two loops comes to it. -/
theorem exists_part {text : JsText} {start : Nat} {a : Line} {as : List Line}
    (h : a :: as <:+ splitLines text start) :
    ∃ front rest, text = front ++ rest ∧ Lines.LineStart lineFeed front ∧ a.pos = start + front.length ∧
      (a :: as).map Line.text = (rest.splitOn lineFeed).map trimEnd := by
  obtain ⟨pre, post, hlines, has⟩ := tail_placeLines h
  have hpost : post ≠ [] := by
    rintro rfl
    cases has
  obtain ⟨front, rest, htext, hrest, hlen, hstart⟩ := Lines.exists_front hlines hpost
  refine ⟨front, rest, htext, hstart, ?_, ?_⟩
  · obtain ⟨l, post', rfl⟩ := List.exists_cons_of_ne_nil hpost
    rw [placeLines] at has
    rw [(List.cons.inj has).1, hlen]
  · rw [has, map_text_placeLines, hrest]

theorem runFrom_lines (i j : Nat) (as bs : List Line) :
    (runFrom i j as bs).base = i ∧ (runFrom i j as bs).continuation = j ∧
      (runFrom i j as bs).lines ≤ bs.length ∧
      (as.map Line.text).take (runFrom i j as bs).lines = (bs.map Line.text).take (runFrom i j as bs).lines := by
  induction as generalizing bs with
  | nil => cases bs <;> exact ⟨rfl, rfl, Nat.zero_le _, rfl⟩
  | cons a as ih =>
    cases bs with
    | nil => exact ⟨rfl, rfl, Nat.zero_le _, rfl⟩
    | cons b bs =>
      obtain ⟨-, -, hle, htake⟩ := ih bs
      rw [runFrom]
      split_ifs with heq
      · refine ⟨rfl, rfl, Nat.succ_le_succ hle, ?_⟩
        dsimp only
        rw [List.map_cons, List.map_cons, List.take_succ_cons, List.take_succ_cons, htake, heq]
      · exact ⟨rfl, rfl, Nat.zero_le _, rfl⟩

/-- Two texts with a run: what stands in front of it, and what begins with it. -/
structure Parts (queue head : JsText) (start : Nat) (r : Run) (front rest front' rest' : JsText) : Prop where
  queue_eq : queue = front ++ rest
  base_eq : r.base = start + front.length
  lineStart : Lines.LineStart lineFeed front
  head_eq : head = front' ++ rest'
  continuation_eq : r.continuation = front'.length
  lines_le : r.lines ≤ (rest'.splitOn lineFeed).length
  same : ((rest.splitOn lineFeed).map trimEnd).take r.lines = ((rest'.splitOn lineFeed).map trimEnd).take r.lines

theorem exists_parts {queue head : JsText} {start : Nat}
    (h : r ∈ runs (splitLines queue start) (splitLines head 0)) :
    ∃ front rest front' rest', Parts queue head start r front rest front' rest' := by
  obtain ⟨as, has, hr⟩ := List.mem_flatMap.1 h
  obtain ⟨bs, hbs, hrun⟩ := List.mem_filterMap.1 hr
  rw [List.mem_tails] at has hbs
  cases as with
  | nil => cases hrun
  | cons a as =>
    cases bs with
    | nil => cases hrun
    | cons b bs =>
      obtain rfl := Option.some.inj hrun
      obtain ⟨front, rest, hqueue, hstart, hpos, htexts⟩ := exists_part has
      obtain ⟨front', rest', hhead, -, hpos', htexts'⟩ := exists_part hbs
      obtain ⟨hbase, hcontinuation, hlines, hsame⟩ := runFrom_lines a.pos b.pos (a :: as) (b :: bs)
      have hlen := congrArg List.length htexts'
      rw [List.length_map, List.length_map] at hlen
      refine ⟨front, rest, front', rest', hqueue, ?_, hstart, hhead, ?_, ?_, ?_⟩
      · rw [hbase, hpos]
      · rw [hcontinuation, hpos', Nat.zero_add]
      · rw [← hlen]
        exact hlines
      · rw [← htexts, ← htexts']
        exact hsame

/-! ## What a splice takes away -/

/-- Where the two texts are cut. -/
def splice (base continuation : JsText) : Nat × Nat :=
  match (bestRun base continuation).filter fun r => decide (base.length - r.base ≤ REJOIN_MAX_REMOVED) with
  | some r => (r.base, r.continuation)
  | none => (base.length, repeated base continuation)

theorem rejoin_eq_splice (h : rewrites base continuation = false) : rejoin base continuation =
      base.take (splice base continuation).1 ++ continuation.drop (splice base continuation).2 := by
  rw [rejoin, if_neg (by rw [h]; exact Bool.false_ne_true), splice]
  cases (bestRun base continuation).filter fun r => decide (base.length - r.base ≤ REJOIN_MAX_REMOVED) with
  | none => rw [joinLine, List.take_length]
  | some r => rfl

/-- Up to the white space at its end, the line is one of these. -/
def Stands (line : JsText) (lines : List JsText) : Prop := ∃ l ∈ lines, trimEnd l = trimEnd line

instance (line : JsText) (lines : List JsText) : Decidable (Stands line lines) :=
  inferInstanceAs (Decidable (∃ l ∈ lines, trimEnd l = trimEnd line))

/-- The two texts are glued at two places, and no line is lost there. -/
structure Lossless (base continuation : JsText) (p q : Nat) : Prop where
  glued : rejoin base continuation = base.take p ++ continuation.drop q
  removed_le : base.length - p ≤ REJOIN_MAX_REMOVED
  base_stands : ∀ line ∈ Lines.complete lineFeed (base.drop p),
    Stands line ((rejoin base continuation).splitOn lineFeed)
  continuation_stands : ∀ line ∈ Lines.complete lineFeed (continuation.take q),
    Stands line ((rejoin base continuation).splitOn lineFeed)

/-- What a splice at this run takes away beside the run itself also stands in front of it in the
file, or from it on in the continuation. -/
def Spares (base continuation : JsText) (r : Run) : Prop :=
  ∀ line ∈ (Lines.complete lineFeed (base.drop r.base)).drop (r.lines - 1) ++
      Lines.complete lineFeed (continuation.take r.continuation),
    Stands line (Lines.complete lineFeed (base.take r.base) ++ (continuation.drop r.continuation).splitOn lineFeed)

theorem lineStart_take {base head front rest front' rest' : JsText}
    (h : Parts (base.drop (base.length - REJOIN_TAIL)) head (base.length - REJOIN_TAIL) r front rest front' rest')
    (hle : base.length - r.base ≤ REJOIN_MAX_REMOVED) :
    base.drop r.base = rest ∧ Lines.LineStart lineFeed (base.take r.base) := by
  have hbase : base = (base.take (base.length - REJOIN_TAIL) ++ front) ++ rest := by
    rw [List.append_assoc, ← h.queue_eq, List.take_append_drop]
  have hlen : (base.take (base.length - REJOIN_TAIL) ++ front).length = r.base := by
    rw [h.base_eq, List.length_append, List.length_take, Nat.min_eq_left (Nat.sub_le _ _)]
  have htake : base.take r.base = base.take (base.length - REJOIN_TAIL) ++ front := by
    conv_lhs => rw [hbase, ← hlen, List.take_left]
  refine ⟨?_, ?_⟩
  · conv_lhs => rw [hbase, ← hlen, List.drop_left]
  rw [htake]
  rcases h.lineStart with rfl | ⟨x, rfl⟩
  · -- the window begins in the middle of a line, but too far from the end
    have hbegin := h.base_eq
    rw [List.length_nil, Nat.add_zero] at hbegin
    have hzero : base.length - REJOIN_TAIL = 0 := by
      rw [hbegin] at hle
      unfold REJOIN_TAIL REJOIN_MAX_REMOVED at *
      omega
    exact .inl (by rw [hzero, List.take_zero, List.nil_append])
  · exact .inr ⟨base.take (base.length - REJOIN_TAIL) ++ x, (List.append_assoc _ _ _).symm⟩

/-- The lines of a run, but for its last one, stand whole in the continuation. -/
theorem stands_of_run {queue head front rest front' rest' more : JsText} {start : Nat}
    (h : Parts queue head start r front rest front' rest') {line : JsText}
    (hline : line ∈ (Lines.complete lineFeed rest).take (r.lines - 1)) :
    Stands line ((rest' ++ more).splitOn lineFeed) := by
  have hqueue : line ∈ (rest.splitOn lineFeed).take (r.lines - 1) :=
    ((List.dropLast_prefix _).take _).subset hline
  have hsame : ((rest.splitOn lineFeed).take (r.lines - 1)).map trimEnd =
      ((rest'.splitOn lineFeed).take (r.lines - 1)).map trimEnd := by
    have htake := congrArg (List.take (r.lines - 1)) h.same
    rw [List.take_take, List.take_take, Nat.min_eq_left (Nat.sub_le _ _)] at htake
    rw [List.map_take, List.map_take, htake]
  have hmem := List.mem_map_of_mem (f := trimEnd) hqueue
  rw [hsame] at hmem
  obtain ⟨l, hl, htrim⟩ := List.mem_map.1 hmem
  refine ⟨l, (Lines.dropLast_splitOn_prefix rest' more).subset ?_, htrim⟩
  rw [Lines.complete, List.dropLast_eq_take]
  have hlines := h.lines_le
  exact (List.take_prefix_take_left (by omega)).subset hl

theorem lossless_of_spares (hr : r ∈ runs (tailLines base) (headLines continuation))
    (hle : base.length - r.base ≤ REJOIN_MAX_REMOVED)
    (hglued : rejoin base continuation = base.take r.base ++ continuation.drop r.continuation) :
    Lossless base continuation r.base r.continuation ↔ Spares base continuation r := by
  obtain ⟨front, rest, front', rest', h⟩ := exists_parts hr
  obtain ⟨hrest, hstart⟩ := lineStart_take h hle
  have hdrop : continuation.drop r.continuation = rest' ++ continuation.drop REJOIN_HEAD := by
    have hcut := List.take_append_drop REJOIN_HEAD continuation
    rw [h.head_eq, List.append_assoc] at hcut
    conv_lhs => rw [← hcut, h.continuation_eq, List.drop_left]
  have hlines := Lines.splitOn_append hstart (continuation.drop r.continuation)
  rw [← hglued] at hlines
  constructor
  · intro hlossless line hline
    rw [← hlines]
    rcases List.mem_append.1 hline with hline | hline
    · exact hlossless.base_stands line (List.mem_of_mem_drop hline)
    · exact hlossless.continuation_stands line hline
  · intro hspares
    refine ⟨hglued, hle, ?_, ?_⟩
    · intro line hline
      rw [hlines]
      rw [← List.take_append_drop (r.lines - 1) (Lines.complete lineFeed (base.drop r.base))] at hline
      rcases List.mem_append.1 hline with hline | hline
      · rw [hrest] at hline
        obtain ⟨l, hl, htrim⟩ := stands_of_run h hline
        rw [← hdrop] at hl
        exact ⟨l, List.mem_append_right _ hl, htrim⟩
      · exact hspares line (List.mem_append_left _ hline)
    · intro line hline
      rw [hlines]
      exact hspares line (List.mem_append_right _ hline)

/-! ## Without a splice -/

theorem repeated_le (base continuation : JsText) : repeated base continuation ≤ (firstLine continuation).length := by
  unfold repeated
  split_ifs
  · exact Nat.zero_le _
  · cases hfind : (List.range (min (lastLine base).length (firstLine continuation).length + 1)).reverse.find? fun k =>
      decide (3 ≤ k) && ((firstLine continuation).take k).isSuffixOf (lastLine base) with
    | none => exact Nat.zero_le _
    | some k =>
      have hmem := List.mem_range.1 (List.mem_reverse.1 (List.mem_of_find?_eq_some hfind))
      rw [Option.getD_some]
      omega

theorem complete_repeated (base continuation : JsText) :
    Lines.complete lineFeed (continuation.take (repeated base continuation)) = [] := by
  have hpre : continuation.take (repeated base continuation) <+: firstLine continuation :=
    List.prefix_of_prefix_length_le (List.take_prefix _ _) (List.takeWhile_prefix _)
      ((List.length_take_le _ _).trans (repeated_le base continuation))
  have hno : lineFeed ∉ continuation.take (repeated base continuation) := by
    intro hmem
    have hne := List.mem_takeWhile_imp (hpre.subset hmem)
    simp at hne
  rw [Lines.complete, List.splitOn_eq_singleton hno, List.dropLast_singleton]

theorem repeated_eq_zero
    (h : ∀ k, 3 ≤ k → k ≤ (firstLine continuation).length → ¬ (firstLine continuation).take k <:+ lastLine base) :
    repeated base continuation = 0 := by
  unfold repeated
  split_ifs
  · rfl
  · rw [List.find?_eq_none.2, Option.getD_none]
    intro k hk
    have hle := List.mem_range.1 (List.mem_reverse.1 hk)
    rw [Bool.not_eq_true, Bool.and_eq_false_iff, decide_eq_false_iff_not]
    rcases Nat.lt_or_ge k 3 with hlt | hge
    · exact .inl (Nat.not_le.2 hlt)
    · refine .inr (Bool.eq_false_iff.2 fun hsuffix => ?_)
      exact h k hge (by omega) (List.isSuffixOf_iff_suffix.1 hsuffix)

/-- Where the file is not written anew, what `rejoin` keeps of the two texts has every line that
ends in what it takes away, if and only if the splice spares them; and texts that have nothing in
common are put together whole. -/
theorem rejoin_lossless {base continuation : JsText} (h : rewrites base continuation = false) :
    (Lossless base continuation (splice base continuation).1 (splice base continuation).2 ↔
      ∀ r, IsBest base continuation r → base.length - r.base ≤ REJOIN_MAX_REMOVED → Spares base continuation r) ∧
    ((∀ r ∈ runs (tailLines base) (headLines continuation), ¬ r.Counts) →
      (∀ k, 3 ≤ k → k ≤ (firstLine continuation).length → ¬ (firstLine continuation).take k <:+ lastLine base) →
      rejoin base continuation = base ++ continuation) := by
  have hglued := rejoin_eq_splice h
  refine ⟨?_, ?_⟩
  · cases htaken : (bestRun base continuation).filter fun r => decide (base.length - r.base ≤ REJOIN_MAX_REMOVED) with
    | none =>
        have hsplice : splice base continuation = (base.length, repeated base continuation) := by
          rw [splice, htaken]
        rw [hsplice] at hglued ⊢
        refine iff_of_true ⟨hglued, by rw [Nat.sub_self]; exact Nat.zero_le _, ?_, ?_⟩ ?_
        · intro line hline
          rw [List.drop_length] at hline
          exact absurd hline List.not_mem_nil
        · intro line hline
          rw [complete_repeated] at hline
          exact absurd hline List.not_mem_nil
        · intro r hbest hle
          rw [bestRun_eq_some_iff.2 hbest, Option.filter_some, if_pos (decide_eq_true hle)] at htaken
          cases htaken
    | some r =>
        have hsplice : splice base continuation = (r.base, r.continuation) := by
          rw [splice, htaken]
        rw [hsplice] at hglued ⊢
        obtain ⟨hbest, hle⟩ := Option.filter_eq_some_iff.1 htaken
        have hfirst := bestRun_eq_some_iff.1 hbest
        have hmem : r ∈ runs (tailLines base) (headLines continuation) := by
          obtain ⟨-, before, behind, heq, -⟩ := hfirst
          rw [heq]
          exact List.mem_append_right _ List.mem_cons_self
        rw [lossless_of_spares hmem (of_decide_eq_true hle) hglued]
        constructor
        · intro hspares r' hbest' _
          rw [First.unique hbest' hfirst]
          exact hspares
        · intro hall
          exact hall r hfirst (of_decide_eq_true hle)
  · intro hnone hline
    have hsplice : splice base continuation = (base.length, 0) := by
      rw [splice, bestRun_eq_none hnone, repeated_eq_zero hline]
      rfl
    rw [hglued, hsplice, List.take_length, List.drop_zero]

/-! ### A file that was cut behind three functions -/

def functions : JsText :=
  units "function alpha() { return 1; }\nfunction beta() { return 22; }\nfunction gamma() { return 333; }\n"

def cutFile : JsText := units "let a = 1;\n" ++ functions ++ units "fun"

/-- The functions are written again, and a line that the cut had broken is put together. -/
theorem rejoin_lossless_functions : Lossless cutFile (functions ++ units "function delta() {}") 11 0 ∧
      rejoin cutFile (units "ction delta() {}") = cutFile ++ units "ction delta() {}" := by
  have hagain : rewrites cutFile (functions ++ units "function delta() {}") = false ∧
      bestRun cutFile (functions ++ units "function delta() {}") = some ⟨11, 0, 3, 92, 3⟩ ∧
      splice cutFile (functions ++ units "function delta() {}") = (11, 0) ∧
      ∀ line ∈ (Lines.complete lineFeed (cutFile.drop 11)).drop 2 ++
          Lines.complete lineFeed ((functions ++ units "function delta() {}").take 0),
        Stands line (Lines.complete lineFeed (cutFile.take 11) ++
          ((functions ++ units "function delta() {}").drop 0).splitOn lineFeed) := by
    decide +kernel
  have hcut : rewrites cutFile (units "ction delta() {}") = false ∧
      (∀ r ∈ runs (tailLines cutFile) (headLines (units "ction delta() {}")), ¬ r.Counts) ∧
      ∀ k < 17, 3 ≤ k → ¬ (firstLine (units "ction delta() {}")).take k <:+ lastLine cutFile := by
    decide +kernel
  obtain ⟨hrewrites, hbest, hsplice, hstands⟩ := hagain
  obtain ⟨hrewrites', hnone, hline⟩ := hcut
  constructor
  · have hlossless := (rejoin_lossless hrewrites).1.2 fun r hr _ => by
      obtain rfl := Option.some.inj (hbest.symm.trans (bestRun_eq_some_iff.2 hr))
      exact hstands
    rw [hsplice] at hlossless
    exact hlossless
  · exact (rejoin_lossless hrewrites').2 hnone fun k hk hle => hline k (Nat.lt_succ_of_le hle) hk

def resumed : JsText := units "// as asked\n" ++ functions ++ units "\x7d"

/-- A line behind the functions in the file, and one in front of them in the continuation: neither
stands in the result. -/
theorem not_lossless_functions :
    rejoin (functions ++ units "kept = true;\n") resumed = functions ++ units "\x7d" ∧
      ∀ p q, ¬ Lossless (functions ++ units "kept = true;\n") resumed p q := by
  have hall : rejoin (functions ++ units "kept = true;\n") resumed = functions ++ units "\x7d" ∧
      (functions ++ units "kept = true;\n").length = 108 ∧
      ¬ functions ++ units "kept = true;\n" <+: functions ++ units "\x7d" ∧
      ∀ p < 108, (functions ++ units "kept = true;\n").take p <+: functions ++ units "\x7d" →
        ∃ line ∈ Lines.complete lineFeed ((functions ++ units "kept = true;\n").drop p),
          ¬ Stands line ((functions ++ units "\x7d").splitOn lineFeed) := by
    decide +kernel
  obtain ⟨hrejoin, hlen, hwhole, hcut⟩ := hall
  refine ⟨hrejoin, fun p q hlossless => ?_⟩
  have hglued := hlossless.glued
  have hstands := hlossless.base_stands
  rw [hrejoin] at hglued hstands
  have hprefix : (functions ++ units "kept = true;\n").take p <+: functions ++ units "\x7d" := by
    rw [hglued]
    exact List.prefix_append _ _
  rcases Nat.lt_or_ge p 108 with hlt | hge
  · obtain ⟨line, hline, hno⟩ := hcut p hlt hprefix
    exact hno (hstands line hline)
  · rw [List.take_of_length_le (by rw [hlen]; exact hge)] at hprefix
    exact hwhole hprefix

end Portal.Rejoin
