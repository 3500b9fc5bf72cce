import DgxPlatform.Portal.FileTools

/-! # Paging through a file

A call of `view_file` shows at most 400 lines from `start_line` on, and names the line to go
on with. The window is computed in 64 bits: near the largest number the sum behind the start
overflows.

* `viewFile_eq`: the answer is the page and the hint.
-/

namespace Portal.FileTools

/-- Where a call starts. -/
def viewStart (args : Json) : Int := max (intArg args "start_line" 1) 1

/-- The last line of a window, with the sum as 64 bits give it. -/
def viewStop (n start asked : Int) : Int :=
  let limit := wrapI64 (start + VIEW_MAX_LINES - 1)
  min (min n (if asked ≥ start then asked else limit)) limit

/-- The lines that a call shows. -/
def viewSlice (content : List Char) (start asked : Int) : List Line :=
  let n : Int := (lines content).length
  let stop := viewStop n start asked
  if start ≤ n ∧ stop ≥ start then ((lines content).take stop.toNat).drop (start - 1).toNat else []

/-- The line of the hint. -/
def viewNext (content : List Char) (start asked : Int) : Option Int :=
  let n : Int := (lines content).length
  let stop := viewStop n start asked
  if stop < n then some (stop + 1) else none

/-- The text of the hint. -/
def hintText (n start next : Int) : List Char :=
  "\n[lines ".toList ++ (toString start).toList ++ "-".toList ++ (toString (next - 1)).toList ++
    " of ".toList ++ (toString n).toList ++ "; call again with start_line=".toList ++
    (toString next).toList ++ " for the rest]".toList

/-- A numbered line. -/
def rowText (l : Nat × Line) : List Char := (Nat.toDigits 10 l.1).leftpad 6 ' ' ++ '\t' :: l.2

/-- What a call shows, line by line. -/
def page (content : List Char) (start asked : Int) : List (Nat × Line) :=
  ((viewSlice content start asked).zipIdx start.toNat).map Prod.swap

section Answers

variable {content : List Char} {start asked : Int}

theorem elim_viewNext (f : Int → List Char) :
    (viewNext content start asked).elim [] f =
      if viewStop (lines content).length start asked < (lines content).length then
        f (viewStop (lines content).length start asked + 1)
      else [] := by
  unfold viewNext
  dsimp only
  split_ifs <;> rfl

theorem viewFile_eq (args : Json) (path content : List Char) :
    viewFile args path content =
      ⟨path ++ ":\n".toList ++
        numbered (['\n'].intercalate (viewSlice content (viewStart args) (intArg args "end_line" 0)))
          (viewStart args).toNat ++
        (viewNext content (viewStart args) (intArg args "end_line" 0)).elim []
          (hintText (lines content).length (viewStart args)), none⟩ := by
  rw [elim_viewNext]
  unfold hintText
  simp only [Int.add_sub_cancel]
  rfl

theorem newline_notMem_of_mem_lines {l : Line} (h : l ∈ lines content) : '\n' ∉ l := by
  intro hmem
  have hline := (Text.of_mem_splitOnP h '\n' hmem).2
  exact absurd hline (by decide)

theorem numbered_page (h : viewSlice content start asked ≠ []) :
    numbered (['\n'].intercalate (viewSlice content start asked)) start.toNat =
      ['\n'].intercalate ((page content start asked).map rowText) := by
  have hlines : ∀ l ∈ viewSlice content start asked, '\n' ∉ l := by
    intro l hl
    refine @newline_notMem_of_mem_lines content l ?_
    unfold viewSlice at hl
    dsimp only at hl
    split_ifs at hl
    · exact List.mem_of_mem_take (List.mem_of_mem_drop hl)
    · exact absurd hl List.not_mem_nil
  rw [numbered, lines, List.splitOn_intercalate '\n' hlines h, page,
    List.zipIdx_eq_map_add (i := start.toNat), List.map_map, List.map_map]
  refine congrArg _ (List.map_congr_left fun l _ => ?_)
  rfl

end Answers

/-! ## Room in 64 bits -/

def InI64 (n : Int) : Prop := -2 ^ 63 ≤ n ∧ n < 2 ^ 63

instance (n : Int) : Decidable (InI64 n) := inferInstanceAs (Decidable (_ ∧ _))

/-- A call neither overflows nor takes a slice that is not there. -/
structure Safe (content : List Char) (start asked : Int) : Prop where
  count : InI64 (lines content).length
  sum : InI64 (start + VIEW_MAX_LINES)
  limit : InI64 (start + VIEW_MAX_LINES - 1)
  slice : start ≤ (lines content).length → viewStop (lines content).length start asked ≥ start →
    0 ≤ start - 1 ∧ start - 1 ≤ viewStop (lines content).length start asked ∧
      viewStop (lines content).length start asked ≤ (lines content).length
  next : viewStop (lines content).length start asked < (lines content).length →
    InI64 (viewStop (lines content).length start asked + 1)

/-- The largest start that leaves room for the sum. -/
def LAST_START : Int := 2 ^ 63 - 1 - VIEW_MAX_LINES

section Window

variable {n start asked : Int}

theorem wrapI64_of_room (h1 : 1 ≤ start) (h : start ≤ LAST_START) :
    wrapI64 (start + VIEW_MAX_LINES - 1) = start + VIEW_MAX_LINES - 1 := by
  unfold LAST_START VIEW_MAX_LINES at *
  unfold wrapI64
  omega

theorem viewStop_le : viewStop n start asked ≤ n := by
  unfold viewStop
  dsimp only
  omega

theorem viewStop_of_room (h1 : 1 ≤ start) (h : start ≤ LAST_START) (hn : start ≤ n) :
    start ≤ viewStop n start asked := by
  unfold viewStop
  rw [wrapI64_of_room h1 h]
  unfold VIEW_MAX_LINES
  dsimp only
  split_ifs <;> omega

theorem viewStop_self (h1 : 1 ≤ start) (h : start ≤ LAST_START) (hn : start ≤ n) :
    viewStop n start start = start := by
  unfold viewStop
  rw [wrapI64_of_room h1 h]
  unfold VIEW_MAX_LINES
  dsimp only
  split_ifs <;> omega

theorem safe_iff {content : List Char} (h1 : 1 ≤ start) :
    Safe content start asked ↔ InI64 (lines content).length ∧ start ≤ LAST_START := by
  constructor
  · intro h
    refine ⟨h.count, ?_⟩
    have hsum := h.sum.2
    unfold LAST_START
    omega
  · rintro ⟨hcount, hroom⟩
    have hle := @viewStop_le (lines content).length start asked
    refine ⟨hcount, ?_, ?_, ?_, ?_⟩
    · unfold InI64 LAST_START VIEW_MAX_LINES at *
      omega
    · unfold InI64 LAST_START VIEW_MAX_LINES at *
      omega
    · intro hn hstop
      exact ⟨by omega, by omega, hle⟩
    · intro hlt
      -- the stop is one of three numbers, all of them above the smallest of 64 bits
      have hlow : -2 ^ 63 ≤ viewStop (lines content).length start asked := by
        unfold viewStop
        rw [wrapI64_of_room h1 hroom]
        unfold VIEW_MAX_LINES
        dsimp only
        split_ifs <;> omega
      unfold InI64 at *
      omega

end Window

/-! ## Following the hints -/

/-- The lines of a file with their numbers. -/
def allLines (content : List Char) : List (Nat × Line) := ((lines content).zipIdx 1).map Prod.swap

/-- Where each call starts: the first at line 1, the others where the hint says. What a call
asks for as its end is up to the caller. -/
def starts (content : List Char) (ends : Nat → Int) : Nat → Option Int
  | 0 => some 1
  | k + 1 => (starts content ends k).bind fun start => viewNext content start (ends k)

/-- What the first calls show. -/
def shown (content : List Char) (ends : Nat → Int) (k : Nat) : List (Nat × Line) :=
  (List.range k).flatMap fun i => (starts content ends i).elim [] fun start => page content start (ends i)

section Pages

variable {content : List Char} {start asked : Int} {ends : Nat → Int}

theorem length_lines_pos (content : List Char) : 0 < (lines content).length :=
  List.length_pos_iff.2 (List.splitOn_ne_nil _ _)

theorem zipIdx_slice (l : List Line) (a b : Nat) :
    ((l.take b).drop a).zipIdx (a + 1) = ((l.zipIdx 1).take b).drop a := by
  refine List.ext_getElem ?_ fun i _ _ => ?_
  · simp only [List.length_zipIdx, List.length_drop, List.length_take]
  · simp only [List.getElem_zipIdx, List.getElem_drop, List.getElem_take]
    refine Prod.ext rfl ?_
    show a + 1 + i = 1 + (a + i)
    omega

/-- A call within the file shows the lines from its start to its stop. -/
theorem page_eq (h1 : 1 ≤ start) (h : start ≤ LAST_START) (hn : start ≤ (lines content).length) :
    page content start asked =
      ((allLines content).take (viewStop (lines content).length start asked).toNat).drop (start - 1).toNat := by
  have hstop : viewStop (lines content).length start asked ≥ start := viewStop_of_room h1 h hn
  have hstart : start.toNat = (start - 1).toNat + 1 := by omega
  have hslice : viewSlice content start asked =
      ((lines content).take (viewStop (lines content).length start asked).toNat).drop (start - 1).toNat :=
    if_pos ⟨hn, hstop⟩
  rw [page, hslice, hstart, zipIdx_slice, allLines, List.map_drop, List.map_take]

theorem length_allLines : (allLines content).length = (lines content).length := by
  rw [allLines, List.length_map, List.length_zipIdx]

theorem shown_succ (k : Nat) :
    shown content ends (k + 1) =
      shown content ends k ++ (starts content ends k).elim [] fun start => page content start (ends k) := by
  unfold shown
  rw [List.range_succ, List.flatMap_append, List.flatMap_singleton]

/-- Each call starts behind the lines that those before it have shown. -/
theorem shown_of_starts (hfit : (lines content).length ≤ LAST_START) (k : Nat) :
    (∀ start, starts content ends k = some start →
      1 ≤ start ∧ start ≤ (lines content).length ∧ k < start ∧
        shown content ends k = (allLines content).take (start - 1).toNat) ∧
      (starts content ends k = none → shown content ends k = allLines content) := by
  induction k with
  | zero =>
    constructor
    · intro start h
      obtain rfl := Option.some.inj h
      have hpos := length_lines_pos content
      exact ⟨Int.le_refl 1, by omega, by omega, rfl⟩
    · intro h
      cases h
  | succ k ih =>
    rw [shown_succ, starts]
    cases hstart : starts content ends k with
    | none =>
      constructor
      · intro start h
        cases h
      · intro _
        rw [ih.2 hstart]
        exact List.append_nil _
    | some start =>
      obtain ⟨h1, hn, hk, hshown⟩ := ih.1 start hstart
      have hstop : start ≤ viewStop (lines content).length start (ends k) :=
        viewStop_of_room h1 (Int.le_trans hn hfit) hn
      have hle := @viewStop_le (lines content).length start (ends k)
      -- the new page goes on where the others end
      have hpage : shown content ends k ++ page content start (ends k) =
          (allLines content).take (viewStop (lines content).length start (ends k)).toNat := by
        rw [hshown, page_eq h1 (Int.le_trans hn hfit) hn]
        have hsplit := List.take_append_drop (start - 1).toNat
          ((allLines content).take (viewStop (lines content).length start (ends k)).toNat)
        rwa [List.take_take, Nat.min_eq_left (by omega)] at hsplit
      rw [Option.bind_some, Option.elim_some, hpage, viewNext]
      constructor
      · intro next h
        split_ifs at h with hlt
        obtain rfl := Option.some.inj h
        refine ⟨by omega, by omega, by omega, ?_⟩
        rw [Int.add_sub_cancel]
      · intro h
        split_ifs at h with hlt
        refine List.take_of_length_le ?_
        rw [length_allLines]
        omega

end Pages

/-- What paging through a file promises, whatever ends the calls ask for: each call is safe and its
answer is its page and the hint, there are at most as many calls as lines, and the pages together
are the lines of the file. -/
structure Paged (content : List Char) (ends : Nat → Int) : Prop where
  safe : ∀ k start, starts content ends k = some start → Safe content start (ends k)
  answer : ∀ k start, starts content ends k = some start → ∀ args path,
    viewStart args = start → intArg args "end_line" 0 = ends k →
      viewFile args path content =
        ⟨path ++ ":\n".toList ++ ['\n'].intercalate ((page content start (ends k)).map rowText) ++
          (viewNext content start (ends k)).elim [] (hintText (lines content).length start), none⟩
  ended : starts content ends (lines content).length = none
  whole : shown content ends (lines content).length = allLines content

theorem paged_of_fits {content : List Char} (hfit : (lines content).length ≤ LAST_START)
    (ends : Nat → Int) : Paged content ends := by
  have hbound : ∀ k start, starts content ends k = some start →
      1 ≤ start ∧ start ≤ LAST_START ∧ start ≤ (lines content).length := by
    intro k start h
    have hreached := (shown_of_starts hfit k).1 start h
    exact ⟨hreached.1, Int.le_trans hreached.2.1 hfit, hreached.2.1⟩
  have hended : starts content ends (lines content).length = none := by
    rw [Option.eq_none_iff_forall_ne_some]
    intro start h
    have hreached := (shown_of_starts hfit _).1 start h
    omega
  constructor
  · intro k start h
    obtain ⟨h1, hroom, -⟩ := hbound k start h
    refine (safe_iff h1).2 ⟨?_, hroom⟩
    unfold InI64 LAST_START VIEW_MAX_LINES at *
    omega
  · rintro k start h args path rfl hasked
    obtain ⟨h1, hroom, hn⟩ := hbound k _ h
    have hstop : viewStop (lines content).length (viewStart args) (ends k) ≥ viewStart args :=
      viewStop_of_room h1 hroom hn
    have hne : viewSlice content (viewStart args) (ends k) ≠ [] := by
      have hle := @viewStop_le (lines content).length (viewStart args) (ends k)
      have hslice : viewSlice content (viewStart args) (ends k) =
          ((lines content).take (viewStop (lines content).length (viewStart args) (ends k)).toNat).drop
            (viewStart args - 1).toNat := if_pos ⟨hn, hstop⟩
      rw [hslice, ← List.length_pos_iff, List.length_drop, List.length_take]
      omega
    rw [viewFile_eq, hasked, numbered_page hne]
  · exact hended
  · exact (shown_of_starts hfit _).2 hended

/-- With one line a call, a file that is too long is read up to where the sum overflows. -/
theorem starts_by_one {content : List Char} {ends : Nat → Int} {k : Nat}
    (hends : ∀ i : Nat, i < k → ends i = i + 1) (hk : (k : Int) ≤ LAST_START)
    (hn : (k : Int) < (lines content).length) : starts content ends k = some ((k : Int) + 1) := by
  induction k with
  | zero => rfl
  | succ k ih =>
    have hprev := ih (fun i hi => hends i (by omega)) (by omega) (by omega)
    have hstop : viewStop (lines content).length (k + 1) (k + 1) = k + 1 := by
      refine viewStop_self ?_ ?_ ?_ <;> omega
    rw [starts, hprev, Option.bind_some, hends k (by omega), viewNext, hstop, if_pos (by omega)]
    rfl

/-- A call and the paging from line 1 on are as they should be exactly if the start of the call
and the length of the file leave room for 400 more lines. -/
theorem paged_iff (content : List Char) (args : Json) :
    (Safe content (viewStart args) (intArg args "end_line" 0) ∧
      ∀ ends : Nat → Int, (∀ k, InI64 (ends k)) → Paged content ends) ↔
        viewStart args ≤ LAST_START ∧ (lines content).length ≤ LAST_START := by
  have h1 : 1 ≤ viewStart args := Int.le_max_right _ _
  constructor
  · rintro ⟨hsafe, hpaged⟩
    refine ⟨((safe_iff h1).1 hsafe).2, ?_⟩
    by_contra hlong
    -- every call shows one line
    let ends : Nat → Int := fun k => min (k + 1) (2 ^ 63 - 1)
    have hends : ∀ k, InI64 (ends k) := by
      intro k
      show -2 ^ 63 ≤ min ((k : Int) + 1) (2 ^ 63 - 1) ∧ min ((k : Int) + 1) (2 ^ 63 - 1) < 2 ^ 63
      omega
    have hlast : ((LAST_START.toNat : Nat) : Int) = LAST_START := by decide
    have hstarts : starts content ends LAST_START.toNat = some (LAST_START.toNat + 1) := by
      refine starts_by_one (fun i hi => ?_) (by omega) (by omega)
      show min ((i : Int) + 1) (2 ^ 63 - 1) = i + 1
      unfold LAST_START VIEW_MAX_LINES at *
      omega
    have hcall := (safe_iff (by omega)).1 ((hpaged ends hends).safe _ _ hstarts)
    omega
  · rintro ⟨hstart, hfit⟩
    refine ⟨(safe_iff h1).2 ⟨?_, hstart⟩, fun ends _ => paged_of_fits hfit ends⟩
    unfold InI64 LAST_START VIEW_MAX_LINES at *
    omega

/-- The largest `start_line`: the sum overflows, and of a file of one line the answer promises
a rest before its first line. -/
theorem not_safe_largest :
    ¬ Safe "x".toList (viewStart (.obj [("start_line", .num (2 ^ 63 - 1))])) 0 ∧
      viewNext "x".toList (viewStart (.obj [("start_line", .num (2 ^ 63 - 1))])) 0 =
        some (-2 ^ 63 + 399) := by
  constructor
  · intro h
    exact absurd h.sum (by decide +kernel)
  · decide +kernel

end Portal.FileTools
