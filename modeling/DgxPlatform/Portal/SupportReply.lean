import DgxPlatform.Lib.Trim
import DgxPlatform.Portal.Accounts

/-! # The reply of the support assistant

A turn of the assistant asks the model up to five times. Each answer comes in chunks and
is shown through a filter that looks at its start, holds a `<think>` section back until
it is closed, and cleans one that never is. What is kept of the turn, in the thread and
for the memory, is put together from the chunks themselves.

The two agree for every turn in which the filter has dropped nothing but white space
around the whole reply (`Plain`), and for no other one whose reply is not cut
(`reply_shown_iff`).
-/

namespace Portal.Support

open Accounts (pyIsSpace pyStrip)
open Text

/-! ## Cleaning -/

/-- A character of the pattern, whatever its case: `(?i)` folds the Kelvin sign and the
long s too. -/
def foldEq (pat c : Char) : Bool :=
  c.toLower == pat || (pat == 'k' && c == '\u212a') || (pat == 's' && c == '\u017f')

/-- What follows the pattern at the start of the text. -/
def afterFold : List Char → List Char → Option (List Char)
  | [], t => some t
  | _ :: _, [] => none
  | p :: ps, c :: t => if foldEq p c then afterFold ps t else none

/-- What follows the first occurrence of the pattern. -/
def skipTo (pat : List Char) : List Char → Option (List Char)
  | [] => none
  | c :: t =>
      match afterFold pat (c :: t) with
      | some rest => some rest
      | none => skipTo pat t

/-- What follows the block `<tag>…</tag>` at the start of the text. -/
def afterBlock (tag t : List Char) : Option (List Char) :=
  (afterFold ('<' :: tag ++ ['>']) t).bind (skipTo ("</".toList ++ tag ++ ['>']))

/-- `(?is)<think>.*?</think>|<reasoning>.*?</reasoning>` at the start of the text. -/
def afterReasoning (t : List Char) : Option (List Char) :=
  match afterBlock "think".toList t with
  | some rest => some rest
  | none => afterBlock "reasoning".toList t

/-- `replace_all` of these blocks, from the left; each turn drops a character at least. -/
def dropBlocks : Nat → List Char → List Char
  | 0, t => t
  | _ + 1, [] => []
  | fuel + 1, c :: t =>
      match afterReasoning (c :: t) with
      | some rest => dropBlocks fuel rest
      | none => c :: dropBlocks fuel t

/-- The text without its reasoning blocks. -/
def withoutBlocks (t : List Char) : List Char := dropBlocks t.length t

/-- The markers of a final answer. -/
def MARKERS : List (List Char) :=
  ["### Réponse".toList, "Réponse finale :".toList, "Final answer:".toList,
    "Voici ma réponse".toList]

/-- What follows the last occurrence of a marker, if there is one. -/
def afterMarker (t marker : List Char) : List Char :=
  ((rsplitOnceText marker t).map Prod.snd).getD t

/-- `clean_reply`. -/
def cleanReply (t : List Char) : List Char :=
  pyStrip ((pyStrip (MARKERS.foldl afterMarker (withoutBlocks t))).dropWhile (· == ':'))

/-- The conditions under which `clean_reply` only strips. -/
def Unmarked (t : List Char) : Prop :=
  withoutBlocks t = t ∧ (∀ m ∈ MARKERS, contains t m = false) ∧ (pyStrip t).head? ≠ some ':'

/-! ## The filter -/

/-- The filter's state: whether it has decided, whether it is hiding, and what it holds. -/
structure Display where
  decided : Bool
  thinking : Bool
  pending : List Char
  thinkBuf : List Char
deriving DecidableEq, Repr

def Display.init : Display := ⟨false, false, [], []⟩

/-- `trim_start_matches(py_is_space)`. -/
def trimStart (t : List Char) : List Char := t.dropWhile pyIsSpace

variable (L : Lowercase)

/-- The tag that ends a reasoning. -/
def thinkEnd : List Char := "</think>".toList

/-- The answer starts with a reasoning. -/
def looksThinking (head : List Char) : Bool := "<think".toList.isPrefixOf (L.lower head)

/-- The start is long enough to tell, or no `<think`. -/
def tells (head : List Char) : Bool :=
  decide (12 ≤ head.length) || !(L.lower (head.take 6)).isPrefixOf "<think".toList

/-- A chunk goes through the filter; the frames sent. -/
def Display.feed (d : Display) (chunk : List Char) : Display × List (List Char) :=
  if d.thinking then
    let buf := d.thinkBuf ++ chunk
    match splitOnce thinkEnd buf with
    | some (_, after) =>
        let rest := trimStart after
        ({ d with thinking := false, thinkBuf := [] }, if rest = [] then [] else [rest])
    | none => ({ d with thinkBuf := buf }, [])
  else if d.decided then (d, [chunk])
  else
    let pending := d.pending ++ chunk
    let head := trimStart pending
    if looksThinking L head then (⟨true, true, [], pending⟩, [])
    else if tells L head then
      ({ d with decided := true, pending := [] }, [trimStart (head.dropWhile (· == ':'))])
    else ({ d with pending }, [])

def Display.feedAll (d : Display) : List (List Char) → Display × List (List Char)
  | [] => (d, [])
  | chunk :: chunks =>
      let fed := d.feed L chunk
      let rest := fed.1.feedAll chunks
      (rest.1, fed.2 ++ rest.2)

/-- `chunks(96)`, `fuel` of them at most. -/
def framesOf : Nat → List Char → List (List Char)
  | 0, _ => []
  | fuel + 1, t => if t = [] then [] else t.take 96 :: framesOf fuel (t.drop 96)

/-- The text frames of an answer given by its chunks. -/
def shownFrames (chunks : List (List Char)) : List (List Char) :=
  let fed := Display.init.feedAll L chunks
  fed.2 ++
    if fed.1.thinking then
      let cleaned := cleanReply chunks.flatten
      framesOf cleaned.length cleaned
    else if fed.1.pending ≠ [] then [fed.1.pending]
    else []

/-! ## Answers of the model -/

/-- A piece of a tool call in a delta. -/
structure ToolDelta where
  index : Int
  id : List Char
  name : List Char
  arguments : List Char

/-- A delta of the stream; an absent or empty field is empty. -/
structure Delta where
  reasoning : List Char
  toolCalls : List ToolDelta
  content : List Char

/-- A tool call as it is gathered, under its index. -/
structure Slot where
  index : Int
  id : List Char
  name : List Char
  arguments : List Char

/-- The delta's fields over the slot's. -/
def Slot.add (s : Slot) (d : ToolDelta) : Slot where
  index := s.index
  id := if d.id = [] then s.id else d.id
  name := if d.name = [] then s.name else d.name
  arguments := s.arguments ++ d.arguments

/-- The slots, by increasing index. -/
def gather (d : ToolDelta) : List Slot → List Slot
  | [] => [Slot.add ⟨d.index, [], [], []⟩ d]
  | s :: rest =>
      if d.index = s.index then s.add d :: rest
      else if d.index < s.index then Slot.add ⟨d.index, [], [], []⟩ d :: s :: rest
      else s :: gather d rest

/-- The calls of an answer: the slots with a name. -/
def callsOf (deltas : List Delta) : List Slot :=
  ((deltas.flatMap Delta.toolCalls).foldl (fun slots d => gather d slots) []).filter
    fun s => !s.name.isEmpty

/-- The chunks of an answer. -/
def chunksOf (deltas : List Delta) : List (List Char) :=
  (deltas.map Delta.content).filter fun c => !c.isEmpty

/-- What `run_turn` meets: the client leaves, no connection, another status, a stream
that breaks, or a stream up to its end. -/
inductive Upstream where
  | left
  | unreachable
  | refused
  | broken
  | streamed (deltas : List Delta)

/-! ## The turn -/

/-- What a turn comes to: whether it has finished, the contents gathered, the frames
sent, and the answers it has read, each as its chunks. -/
structure Outcome where
  finished : Bool
  response : List (List Char)
  frames : List (List Char)
  answers : List (List (List Char))

/-- The turn ends here. -/
def Outcome.over (finished : Bool) : Outcome := ⟨finished, [], [], []⟩

/-- An answer before the rest of the turn. -/
def Outcome.after (o : Outcome) (chunks : List (List Char)) : Outcome where
  finished := o.finished
  response := (if chunks.flatten = [] then [] else [chunks.flatten]) ++ o.response
  frames := shownFrames L chunks ++ o.frames
  answers := chunks :: o.answers

/-- `turns`, with `rounds` rounds to come before the answer without tools: what each
request meets, and whether the client leaves during the tools of a round. -/
def turns : Nat → Bool → Bool → (Nat → Upstream) → (Nat → Bool) → Outcome
  | 0, _, _, up, _ =>
      match up 0 with
      | .streamed deltas =>
          let chunks := chunksOf deltas
          if pyStrip chunks.flatten = [] then ⟨false, [], shownFrames L chunks, [chunks]⟩
          else (Outcome.over true).after L chunks
      | _ => .over false
  | rounds + 1, useTools, streamedAny, up, leaves =>
      match up 0 with
      | .streamed deltas =>
          let streamed := streamedAny || decide (pyStrip (chunksOf deltas).flatten ≠ [])
          let rest :=
            if (callsOf deltas).isEmpty then .over streamed
            else if leaves 0 then .over false
            else turns rounds useTools streamed (fun i => up (i + 1)) fun i => leaves (i + 1)
          rest.after L (chunksOf deltas)
      | .refused =>
          if useTools then
            turns rounds false streamedAny (fun i => up (i + 1)) fun i => leaves (i + 1)
          else .over false
      | _ => .over false

/-- `run`: what is kept, in the thread and for the memory. -/
def saved (o : Outcome) : Option (List Char × List Char) :=
  let text := pyStrip o.response.flatten
  if text = [] ∨ o.finished = false then none else some (text.take 8000, text.take 4000)

/-! ## What is shown -/

/-- Where the filter decides: the text so far, and the chunks after it. -/
def decision : List Char → List (List Char) → Option (List Char × List (List Char))
  | _, [] => none
  | pending, chunk :: chunks =>
      let text := pending ++ chunk
      if looksThinking L (trimStart text) || tells L (trimStart text) then some (text, chunks)
      else decision text chunks

/-- How an answer is shown: it ends before the filter has decided, is streamed from its
`head` on, or starts with a reasoning that a later chunk closes, or none does. -/
inductive Mode where
  | undecided
  | streaming (head : List Char)
  | closed
  | unclosed
deriving DecidableEq, Repr

def modeOf (chunks : List (List Char)) : Mode :=
  match decision L [] chunks with
  | none => .undecided
  | some (text, rest) =>
      if looksThinking L (trimStart text) then
        if rest ≠ [] ∧ contains (text ++ rest.flatten) thinkEnd then .closed else .unclosed
      else .streaming (trimStart text)

/-- The answer's text frames together. -/
def shown (chunks : List (List Char)) : List Char := (shownFrames L chunks).flatten

/-- Of the answer nothing is dropped but white space at its ends. -/
def Plainly (chunks : List (List Char)) : Prop :=
  match modeOf L chunks with
  | .undecided => True
  | .streaming head => head.head? ≠ some ':'
  | .closed => False
  | .unclosed => Unmarked chunks.flatten

/-- A reasoning of the answer is not shown. -/
def Hides (chunks : List (List Char)) : Prop :=
  match modeOf L chunks with
  | .undecided => False
  | .streaming _ => False
  | .closed => True
  | .unclosed => withoutBlocks chunks.flatten ≠ chunks.flatten

/-- The white space that is dropped before the answer. -/
def lead (chunks : List (List Char)) : List Char :=
  match modeOf L chunks with
  | .undecided => []
  | _ => chunks.flatten.takeWhile pyIsSpace

/-- The white space that is dropped behind it. -/
def trail (chunks : List (List Char)) : List Char :=
  match modeOf L chunks with
  | .unclosed => (trimStart chunks.flatten).rtakeWhile pyIsSpace
  | _ => []

/-- Of the answers nothing is dropped but white space around all of them together:
`started` says that something other than white space has come before. -/
def Plain : Prop → List (List (List Char)) → Prop
  | _, [] => True
  | started, chunks :: rest =>
      Plainly L chunks ∧ (started → lead L chunks = []) ∧
        (trail L chunks ≠ [] → ∀ later ∈ rest, ¬ Solid pyIsSpace later.flatten) ∧
        Plain (started ∨ Solid pyIsSpace chunks.flatten) rest

/-- The turn keeps what it has shown, cut to the thread's and the memory's lengths, and
no reasoning that it has hidden. -/
structure Faithful (o : Outcome) : Prop where
  kept : saved o = some ((pyStrip o.frames.flatten).take 8000, (pyStrip o.frames.flatten).take 4000)
  visible : ∀ chunks ∈ o.answers, ¬ Hides L chunks

variable {L}

/-! ## The filter, chunk by chunk -/

theorem feedAll_streaming {d : Display} (hdecided : d.decided = true) (hthinking : d.thinking = false)
    (chunks : List (List Char)) : d.feedAll L chunks = (d, chunks) := by
  induction chunks with
  | nil => rfl
  | cons chunk chunks ih => simp [Display.feedAll, Display.feed, hdecided, hthinking, ih]

theorem feedAll_thinking (pending : List Char) {buf : List Char} {rest : List (List Char)}
    (h : rest ≠ [] ∧ contains (buf ++ rest.flatten) thinkEnd = true) :
    ∃ d frames u after more, Display.feedAll L ⟨true, true, pending, buf⟩ rest = (d, frames) ∧
      d.thinking = false ∧ d.pending = pending ∧
      buf ++ rest.flatten = u ++ thinkEnd ++ after ++ more ∧
      frames.flatten = trimStart after ++ more := by
  obtain ⟨hne, hclosed⟩ := h
  induction rest generalizing buf with
  | nil => exact absurd rfl hne
  | cons chunk rest ih =>
    simp only [Display.feedAll, Display.feed, if_true]
    cases hsplit : splitOnce thinkEnd (buf ++ chunk) with
    | some found =>
      obtain ⟨u, after⟩ := found
      simp only [feedAll_streaming (L := L) (d := ⟨true, false, pending, []⟩) rfl rfl]
      refine ⟨_, _, u, after, rest.flatten, rfl, rfl, rfl, ?_, ?_⟩
      · rw [List.flatten_cons, ← List.append_assoc, splitOnce_eq_some hsplit]
      · split
        · next hnil => simp [hnil]
        · simp
    | none =>
      have hnot := splitOnce_eq_none.1 hsplit
      have hrest : rest ≠ [] := by
        rintro rfl
        refine hnot ?_
        simpa [contains] using hclosed
      have hclosed' : contains (buf ++ chunk ++ rest.flatten) thinkEnd = true := by
        simpa using hclosed
      obtain ⟨d, frames, u, after, more, heq, ht, hp, htext, hframes⟩ := ih hrest hclosed'
      refine ⟨d, frames, u, after, more, ?_, ht, hp, ?_, hframes⟩
      · simp only [heq, List.nil_append]
      · simpa using htext

theorem feedAll_unclosed (pending : List Char) {buf : List Char} {rest : List (List Char)}
    (h : ¬ (rest ≠ [] ∧ contains (buf ++ rest.flatten) thinkEnd = true)) :
    ∃ buf', Display.feedAll L ⟨true, true, pending, buf⟩ rest
      = (⟨true, true, pending, buf'⟩, []) := by
  induction rest generalizing buf with
  | nil => exact ⟨buf, rfl⟩
  | cons chunk rest ih =>
    have hnot : ¬ thinkEnd <:+: buf ++ (chunk ++ rest.flatten) := by
      intro hin
      refine h ⟨List.cons_ne_nil _ _, ?_⟩
      simpa [contains] using hin
    have hsplit : splitOnce thinkEnd (buf ++ chunk) = none := by
      refine splitOnce_eq_none.2 fun hin => hnot (hin.trans ?_)
      rw [← List.append_assoc]
      exact (List.prefix_append _ _).isInfix
    have hrest : ¬ (rest ≠ [] ∧
        contains (buf ++ chunk ++ rest.flatten) thinkEnd = true) := by
      rintro ⟨-, hc⟩
      refine hnot ?_
      simpa [contains] using hc
    obtain ⟨buf', heq⟩ := ih hrest
    refine ⟨buf', ?_⟩
    simp only [Display.feedAll, Display.feed, if_true, hsplit, heq, List.nil_append]

theorem feedAll_of_decision {pending buf : List Char} {chunks : List (List Char)} :
    match decision L pending chunks with
    | none => Display.feedAll L ⟨false, false, pending, buf⟩ chunks
        = (⟨false, false, pending ++ chunks.flatten, buf⟩, [])
    | some (text, rest) => pending ++ chunks.flatten = text ++ rest.flatten ∧
        (looksThinking L (trimStart text) = true ∨ tells L (trimStart text) = true) ∧
        Display.feedAll L ⟨false, false, pending, buf⟩ chunks =
          if looksThinking L (trimStart text) then Display.feedAll L ⟨true, true, [], text⟩ rest
          else (⟨true, false, [], buf⟩,
            trimStart ((trimStart text).dropWhile (· == ':')) :: rest) := by
  induction chunks generalizing pending with
  | nil => simp [decision, Display.feedAll]
  | cons chunk chunks ih =>
    simp only [decision]
    by_cases hlooks : looksThinking L (trimStart (pending ++ chunk)) = true
    · simp [hlooks, Display.feedAll, Display.feed]
    · by_cases htells : tells L (trimStart (pending ++ chunk)) = true
      · simp [hlooks, htells, Display.feedAll, Display.feed,
          feedAll_streaming (L := L) (d := ⟨true, false, [], buf⟩) rfl rfl]
      · have hstep : Display.feedAll L ⟨false, false, pending, buf⟩ (chunk :: chunks)
            = Display.feedAll L ⟨false, false, pending ++ chunk, buf⟩ chunks := by
          simp [Display.feedAll, Display.feed, hlooks, htells]
        have hnext := @ih (pending ++ chunk)
        rw [if_neg (by simp [hlooks, htells]), hstep]
        cases hd : decision L (pending ++ chunk) chunks with
        | none => simpa [hd] using hnext
        | some found => simpa [hd] using hnext

variable {t : List Char}

theorem framesOf_flatten {fuel : Nat} (h : t.length ≤ fuel) : (framesOf fuel t).flatten = t := by
  induction fuel generalizing t with
  | zero =>
    have hnil : t = [] := List.eq_nil_of_length_eq_zero (by omega)
    rw [hnil]
    rfl
  | succ fuel ih =>
    unfold framesOf
    split
    · next hnil => simp [hnil]
    · next hne =>
        have hpos : 0 < t.length := List.length_pos_iff.2 hne
        rw [List.flatten_cons, ih (by rw [List.length_drop]; omega), List.take_append_drop]

theorem head_ne_nil {head : List Char} (h : looksThinking L head = true ∨ tells L head = true) : head ≠ [] := by
  rintro rfl
  have hlower : L.lower [] = [] := L.ascii [] fun c hc => absurd hc List.not_mem_nil
  rcases h with h | h
  · simp [looksThinking, hlower] at h
  · simp [tells, hlower] at h

variable {chunks : List (List Char)}

theorem shown_undecided (h : modeOf L chunks = .undecided) : shown L chunks = chunks.flatten := by
  have hfeed := @feedAll_of_decision L [] [] chunks
  unfold modeOf at h
  split at h
  · next hd =>
      rw [hd] at hfeed
      simp only [shown, shownFrames, Display.init, hfeed, List.nil_append, Bool.false_eq_true,
        if_false]
      split
      · simp
      · next hnil => simpa using hnil
  · split at h
    · split at h <;> cases h
    · cases h

theorem decided_of_mode (h : modeOf L chunks ≠ .undecided) :
    ∃ text rest, decision L [] chunks = some (text, rest) ∧
      chunks.flatten = text ++ rest.flatten ∧ trimStart text ≠ [] ∧
      Display.feedAll L .init chunks =
        if looksThinking L (trimStart text) then Display.feedAll L ⟨true, true, [], text⟩ rest
        else (⟨true, false, [], []⟩,
          trimStart ((trimStart text).dropWhile (· == ':')) :: rest) := by
  have hfeed := @feedAll_of_decision L [] [] chunks
  cases hd : decision L [] chunks with
  | none => simp [modeOf, hd] at h
  | some found =>
    obtain ⟨text, rest⟩ := found
    rw [hd] at hfeed
    exact ⟨text, rest, rfl, hfeed.1, head_ne_nil hfeed.2.1, hfeed.2.2⟩

theorem shown_streaming {head : List Char} (h : modeOf L chunks = .streaming head) :
    ∃ rest, trimStart chunks.flatten = head ++ rest ∧ head ≠ [] ∧
      shown L chunks = trimStart (head.dropWhile (· == ':')) ++ rest := by
  obtain ⟨text, rest, hd, htext, hne, hfeed⟩ := @decided_of_mode L chunks (by simp [h])
  unfold modeOf at h
  rw [hd] at h
  simp only at h
  split at h
  · split at h <;> cases h
  · next hlooks =>
      cases h
      refine ⟨rest.flatten, ?_, hne, ?_⟩
      · rw [htext]
        refine dropWhile_append_of_solid (solid_dropWhile.1 ?_)
        refine ⟨_, List.head_mem hne, ?_⟩
        have hnot := List.head_dropWhile_not pyIsSpace (l := text) hne
        simpa [trimStart] using hnot
      · simp only [shown, shownFrames, hfeed, if_neg hlooks]
        simp

theorem shown_closed (h : modeOf L chunks = .closed) :
    ∃ u after more, chunks.flatten = u ++ thinkEnd ++ after ++ more ∧
      shown L chunks = trimStart after ++ more := by
  obtain ⟨text, rest, hd, htext, -, hfeed⟩ := @decided_of_mode L chunks (by simp [h])
  unfold modeOf at h
  rw [hd] at h
  simp only at h
  split at h
  · next hlooks =>
      split at h
      · next hclosed =>
          obtain ⟨d, frames, u, after, more, heq, hthinking, hpending, hsplit, hframes⟩ :=
            feedAll_thinking (L := L) [] hclosed
          refine ⟨u, after, more, htext.trans hsplit, ?_⟩
          simp only [shown, shownFrames, hfeed, if_pos hlooks, heq, hthinking, hpending]
          simpa using hframes
      · cases h
  · cases h

theorem shown_unclosed (h : modeOf L chunks = .unclosed) :
    shown L chunks = cleanReply chunks.flatten ∧ trimStart chunks.flatten ≠ [] := by
  obtain ⟨text, rest, hd, htext, hne, hfeed⟩ := @decided_of_mode L chunks (by simp [h])
  unfold modeOf at h
  rw [hd] at h
  simp only at h
  split at h
  · next hlooks =>
      split at h
      · cases h
      · next hopen =>
          obtain ⟨buf, heq⟩ := feedAll_unclosed (L := L) [] hopen
          constructor
          · simp only [shown, shownFrames, hfeed, if_pos hlooks, heq, if_true, List.nil_append]
            exact framesOf_flatten (Nat.le_refl _)
          · intro hnil
            refine hne (List.dropWhile_eq_nil_iff.2 fun c hc => ?_)
            refine List.dropWhile_eq_nil_iff.1 hnil c ?_
            rw [htext]
            exact List.mem_append_left _ hc
  · cases h

/-! ## What is lost -/

/-- The number of characters that are no white space. -/
def ink (t : List Char) : Nat := t.countP fun c => !pyIsSpace c

theorem ink_append (a b : List Char) : ink (a ++ b) = ink a + ink b := List.countP_append

theorem ink_pyStrip (t : List Char) : ink (pyStrip t) = ink t := countP_trimMatches t

theorem ink_pos : 0 < ink t ↔ Solid pyIsSpace t := by
  simp [ink, List.countP_pos_iff, Solid]

theorem ink_trimStart (t : List Char) : ink (trimStart t) = ink t := by
  have hzero : ink (t.takeWhile pyIsSpace) = 0 := by
    refine List.countP_eq_zero.2 fun c hc => ?_
    simp [List.mem_takeWhile_imp hc]
  have hsplit := ink_append (t.takeWhile pyIsSpace) (t.dropWhile pyIsSpace)
  rw [List.takeWhile_append_dropWhile] at hsplit
  unfold trimStart
  omega

theorem ink_dropWhile_colon (t : List Char) : ink (t.dropWhile (· == ':')) ≤ ink t ∧
      (t.head? = some ':' → ink (t.dropWhile (· == ':')) < ink t) := by
  have hsplit := ink_append (t.takeWhile (· == ':')) (t.dropWhile (· == ':'))
  rw [List.takeWhile_append_dropWhile] at hsplit
  refine ⟨by omega, ?_⟩
  intro hhead
  have hpos : 0 < ink (t.takeWhile (· == ':')) := by
    cases t with
    | nil => cases hhead
    | cons c t =>
      obtain rfl : c = ':' := by simpa using hhead
      refine ink_pos.2 ⟨':', ?_, by decide⟩
      simp
  omega

theorem solid_of_mem_markers {m : List Char} (h : m ∈ MARKERS) : Solid pyIsSpace m := by
  have hall : (MARKERS.all fun m => m.any fun c => !pyIsSpace c) = true := by decide
  obtain ⟨c, hc, hspace⟩ := List.any_eq_true.1 (List.all_eq_true.1 hall m h)
  exact ⟨c, hc, by simpa using hspace⟩

theorem afterMarker_spec (t : List Char) {m : List Char} (hm : m ∈ MARKERS) :
    if contains t m then ink (afterMarker t m) < ink t else afterMarker t m = t := by
  have hsolid := solid_of_mem_markers hm
  have hne : m ≠ [] := by
    rintro rfl
    obtain ⟨c, hc, -⟩ := hsolid
    cases hc
  unfold afterMarker
  cases hsplit : rsplitOnceText m t with
  | none =>
    have hnot := (rsplitOnceText_eq_none hne).1 hsplit
    rw [if_neg (by simpa [contains] using hnot)]
    rfl
  | some found =>
    obtain ⟨a, b⟩ := found
    have htext := rsplitOnceText_eq_some hsplit
    have hin : contains t m = true := decide_eq_true ⟨a, b, htext.symm⟩
    have hpos := ink_pos.2 hsolid
    rw [if_pos hin, htext, ink_append, ink_append]
    simp only [Option.map_some, Option.getD_some]
    omega

theorem foldl_afterMarker {ms : List (List Char)} (hms : ∀ m ∈ ms, m ∈ MARKERS) (t : List Char) :
    ink (ms.foldl afterMarker t) ≤ ink t ∧
      ((∀ m ∈ ms, contains t m = false) → ms.foldl afterMarker t = t) ∧
      ((∃ m ∈ ms, contains t m = true) → ink (ms.foldl afterMarker t) < ink t) := by
  induction ms generalizing t with
  | nil => exact ⟨Nat.le_refl _, fun _ => rfl, by simp⟩
  | cons m ms ih =>
    obtain ⟨hle, hsame, hlt⟩ := ih (fun m hm => hms m (List.mem_cons_of_mem _ hm)) (afterMarker t m)
    have hspec := afterMarker_spec t (hms m List.mem_cons_self)
    simp only [List.foldl_cons, List.forall_mem_cons]
    cases hm : contains t m
    · rw [if_neg (by simp [hm])] at hspec
      rw [hspec] at hle hsame hlt ⊢
      refine ⟨hle, fun h => hsame h.2, ?_⟩
      rintro ⟨m', hm', hin⟩
      rcases List.mem_cons.1 hm' with rfl | hm'
      · rw [hm] at hin
        cases hin
      · exact hlt ⟨m', hm', hin⟩
    · rw [if_pos hm] at hspec
      refine ⟨by omega, fun h => absurd h.1 (by simp), fun _ => by omega⟩

theorem pyIsSpace_upper {c : Char} (h : 65 ≤ c.toNat ∧ c.toNat ≤ 90) : pyIsSpace c = false := by
  refine Bool.eq_false_iff.2 fun hspace => ?_
  simp only [pyIsSpace, isWhitespace, Bool.or_eq_true, Bool.and_eq_true, decide_eq_true_eq,
    beq_iff_eq] at hspace
  omega

theorem pyIsSpace_of_foldEq {c : Char} (h : foldEq '<' c = true) : pyIsSpace c = false := by
  have hlower : c.toLower = '<' := by simpa [foldEq] using h
  unfold Char.toLower at hlower
  split at hlower
  · next hup =>
      exact pyIsSpace_upper ⟨UInt32.le_iff_toNat_le.1 hup.1, UInt32.le_iff_toNat_le.1 hup.2⟩
  · rw [hlower]
    decide

theorem afterFold_suffix {pat t rest : List Char} (h : afterFold pat t = some rest) : ink rest ≤ ink t := by
  induction pat generalizing t with
  | nil =>
    cases h
    exact Nat.le_refl _
  | cons p ps ih =>
    cases t with
    | nil => cases h
    | cons c t =>
      unfold afterFold at h
      split at h
      · have hle := ih h
        have hcons := ink_append [c] t
        simp only [List.singleton_append] at hcons
        omega
      · cases h

theorem skipTo_le {pat t rest : List Char} (h : skipTo pat t = some rest) : ink rest ≤ ink t := by
  induction t with
  | nil => cases h
  | cons c t ih =>
    unfold skipTo at h
    split at h
    · next hfold =>
        cases h
        exact afterFold_suffix hfold
    · have hle := ih h
      have hcons := ink_append [c] t
      simp only [List.singleton_append] at hcons
      omega

theorem afterBlock_lt {tag t rest : List Char} (h : afterBlock tag t = some rest) : ink rest < ink t := by
  obtain ⟨body, hopen, hclose⟩ := Option.bind_eq_some_iff.1 h
  cases t with
  | nil => cases hopen
  | cons c t =>
    simp only [List.cons_append, afterFold] at hopen
    split at hopen
    · next hfold =>
        have hpos : 0 < ink [c] := ink_pos.2 ⟨c, List.mem_singleton_self c, pyIsSpace_of_foldEq hfold⟩
        have hcons := ink_append [c] t
        simp only [List.singleton_append] at hcons
        have hbody := afterFold_suffix hopen
        have hrest := skipTo_le hclose
        omega
    · cases hopen

theorem afterReasoning_lt {t rest : List Char} (h : afterReasoning t = some rest) : ink rest < ink t := by
  unfold afterReasoning at h
  split at h
  · next hblock =>
      cases h
      exact afterBlock_lt hblock
  · exact afterBlock_lt h

theorem dropBlocks_spec (fuel : Nat) (t : List Char) :
    ink (dropBlocks fuel t) ≤ ink t ∧ (dropBlocks fuel t ≠ t → ink (dropBlocks fuel t) < ink t) := by
  induction fuel generalizing t with
  | zero => exact ⟨Nat.le_refl _, fun h => absurd rfl h⟩
  | succ fuel ih =>
    cases t with
    | nil => exact ⟨Nat.le_refl _, fun h => absurd rfl h⟩
    | cons c t =>
      simp only [dropBlocks]
      split
      · next rest hblock =>
          have hlt := afterReasoning_lt hblock
          have hle := (ih rest).1
          exact ⟨by omega, fun _ => by omega⟩
      · obtain ⟨hle, hlt⟩ := ih t
        have hcons := ink_append [c] t
        have hcons' := ink_append [c] (dropBlocks fuel t)
        simp only [List.singleton_append] at hcons hcons'
        refine ⟨by omega, fun hne => ?_⟩
        have hne' : dropBlocks fuel t ≠ t := fun heq => hne (by rw [heq])
        have hstrict := hlt hne'
        omega

theorem cleanReply_of_unmarked (h : Unmarked t) : cleanReply t = pyStrip t := by
  obtain ⟨hblocks, hmarkers, hcolon⟩ := h
  have hfold := (foldl_afterMarker (fun _ hm => hm) t).2.1 hmarkers
  have hdrop : (pyStrip t).dropWhile (· == ':') = pyStrip t := by
    cases hs : pyStrip t with
    | nil => rfl
    | cons c u =>
      rw [hs] at hcolon
      refine List.dropWhile_cons_of_neg ?_
      simpa using hcolon
  unfold cleanReply
  rw [hblocks, hfold, hdrop]
  exact trimMatches_idem pyIsSpace t

theorem cleanReply_ink (t : List Char) :
    ink (cleanReply t) ≤ ink t ∧ (¬ Unmarked t → ink (cleanReply t) < ink t) := by
  obtain ⟨hblocks, hblocks'⟩ := dropBlocks_spec t.length t
  obtain ⟨hfold, hsame, hfold'⟩ := foldl_afterMarker (fun _ hm => hm) (withoutBlocks t)
  obtain ⟨hcolon, hcolon'⟩ :=
    ink_dropWhile_colon (pyStrip (MARKERS.foldl afterMarker (withoutBlocks t)))
  rw [ink_pyStrip] at hcolon hcolon'
  have hclean : ink (cleanReply t)
      = ink ((pyStrip (MARKERS.foldl afterMarker (withoutBlocks t))).dropWhile (· == ':')) :=
    ink_pyStrip _
  change ink (withoutBlocks t) ≤ ink t at hblocks
  refine ⟨by omega, fun hmarked => ?_⟩
  by_cases heq : withoutBlocks t = t
  · rw [heq] at hfold hsame hfold' hcolon hcolon' hclean
    by_cases hmarkers : ∀ m ∈ MARKERS, contains t m = false
    · rw [hsame hmarkers] at hcolon' hclean
      have hhead : (pyStrip t).head? = some ':' := by
        by_contra hne
        exact hmarked ⟨heq, hmarkers, hne⟩
      have hlt := hcolon' hhead
      omega
    · have hlt := hfold' (by simpa using hmarkers)
      omega
  · have hlt : ink (withoutBlocks t) < ink t := hblocks' heq
    omega

/-! ## One answer -/

theorem solid_of_trimStart (h : trimStart t ≠ []) : Solid pyIsSpace t := by
  by_contra hnot
  exact h (List.dropWhile_eq_nil_iff.2 fun c hc => not_solid.1 hnot c hc)

/-- The filter shows no more than there is, and less if the answer is not plain. -/
theorem shown_ink (L : Lowercase) (chunks : List (List Char)) : ink (shown L chunks) ≤ ink chunks.flatten ∧
      (¬ Plainly L chunks → ink (shown L chunks) < ink chunks.flatten) := by
  cases hm : modeOf L chunks with
  | undecided =>
    rw [shown_undecided hm]
    exact ⟨Nat.le_refl _, fun h => absurd (by simp [Plainly, hm]) h⟩
  | streaming head =>
    obtain ⟨rest, htext, -, hshown⟩ := shown_streaming hm
    obtain ⟨hle, hlt⟩ := ink_dropWhile_colon head
    have htotal : ink chunks.flatten = ink head + ink rest := by
      rw [← ink_trimStart, htext, ink_append]
    rw [hshown, ink_append, ink_trimStart, htotal]
    refine ⟨by omega, fun hplain => ?_⟩
    have hhead : head.head? = some ':' := by simpa [Plainly, hm] using hplain
    have hstrict := hlt hhead
    omega
  | closed =>
    obtain ⟨u, after, more, htext, hshown⟩ := shown_closed hm
    have htag : 0 < ink thinkEnd := by decide
    rw [hshown, htext]
    simp only [ink_append, ink_trimStart]
    exact ⟨by omega, fun _ => by omega⟩
  | unclosed =>
    rw [(shown_unclosed hm).1]
    obtain ⟨hle, hlt⟩ := cleanReply_ink chunks.flatten
    refine ⟨hle, fun hplain => hlt ?_⟩
    simpa [Plainly, hm] using hplain

/-- What a plain answer shows, and what is dropped around it. -/
def piece (L : Lowercase) (chunks : List (List Char)) : Piece :=
  ⟨lead L chunks, shown L chunks, trail L chunks⟩

theorem piece_of_plainly (h : Plainly L chunks) :
    (piece L chunks).whole = chunks.flatten ∧ (piece L chunks).Loose pyIsSpace := by
  have hspace : ∀ c ∈ chunks.flatten.takeWhile pyIsSpace, pyIsSpace c = true :=
    fun c hc => List.mem_takeWhile_imp hc
  cases hm : modeOf L chunks with
  | undecided =>
    have hlead : lead L chunks = [] := by simp [lead, hm]
    have htrail : trail L chunks = [] := by simp [trail, hm]
    refine ⟨by simp [piece, Piece.whole, hlead, htrail, shown_undecided hm], ?_, ?_, ?_⟩
    · simp [piece, hlead]
    · simp [piece, htrail]
    · simp [piece, hlead, htrail]
  | streaming head =>
    have hlead : lead L chunks = chunks.flatten.takeWhile pyIsSpace := by simp [lead, hm]
    have htrail : trail L chunks = [] := by simp [trail, hm]
    obtain ⟨rest, htext, hne, hshown⟩ := shown_streaming hm
    have hcolon : head.head? ≠ some ':' := by simpa [Plainly, hm] using h
    have hall : shown L chunks = trimStart chunks.flatten := by
      rw [hshown, htext]
      congr 1
      obtain ⟨c, t, rfl⟩ := List.exists_cons_of_ne_nil hne
      have hdrop : (c :: t).dropWhile (· == ':') = c :: t := by
        refine List.dropWhile_cons_of_neg ?_
        simpa using hcolon
      -- the head starts where the white space ends
      have hstart : chunks.flatten.dropWhile pyIsSpace = c :: (t ++ rest) := htext
      have hnot := List.head_dropWhile_not pyIsSpace (l := chunks.flatten)
        (by rw [hstart]; exact List.cons_ne_nil _ _)
      have hc : pyIsSpace c = false := by
        simpa [hstart] using hnot
      rw [hdrop]
      exact List.dropWhile_cons_of_neg (by simp [hc])
    have hsolid : Solid pyIsSpace (shown L chunks) := by
      rw [hall]
      refine solid_dropWhile.2 (solid_of_trimStart ?_)
      rw [htext]
      simp [hne]
    refine ⟨?_, by simpa [piece, hlead] using hspace, by simp [piece, htrail], fun _ => hsolid⟩
    simp only [piece, Piece.whole, hlead, htrail, hall, List.append_nil]
    exact List.takeWhile_append_dropWhile
  | closed => exact absurd h (by simp [Plainly, hm])
  | unclosed =>
    have hlead : lead L chunks = chunks.flatten.takeWhile pyIsSpace := by simp [lead, hm]
    have htrail : trail L chunks = (trimStart chunks.flatten).rtakeWhile pyIsSpace := by
      simp [trail, hm]
    obtain ⟨hshown, hne⟩ := shown_unclosed hm
    have hplain : Unmarked chunks.flatten := by simpa [Plainly, hm] using h
    rw [cleanReply_of_unmarked hplain] at hshown
    have hsolid : Solid pyIsSpace (shown L chunks) := by
      rw [hshown, ← ink_pos, ink_pyStrip, ink_pos]
      exact solid_of_trimStart hne
    refine ⟨?_, by simpa [piece, hlead] using hspace, ?_, fun _ => hsolid⟩
    · simp only [piece, Piece.whole, hlead, htrail, hshown]
      have hend : pyStrip chunks.flatten ++ (trimStart chunks.flatten).rtakeWhile pyIsSpace
          = trimStart chunks.flatten := List.rdropWhile_append_rtakeWhile
      rw [List.append_assoc, hend]
      exact List.takeWhile_append_dropWhile
    · intro c hc
      simp only [piece, htrail] at hc
      exact List.mem_rtakeWhile_imp hc

theorem solid_shown (h : Plainly L chunks) :
    Solid pyIsSpace (shown L chunks) ↔ Solid pyIsSpace chunks.flatten := by
  obtain ⟨hwhole, hloose⟩ := piece_of_plainly h
  rw [← hwhole]
  exact hloose.solid_whole.symm

/-! ## All answers of a turn -/

variable {answers : List (List (List Char))}

theorem plain_iff (hplain : ∀ chunks ∈ answers, Plainly L chunks) (started : Prop) :
    Plain L started answers ↔ Outer pyIsSpace started (answers.map (piece L)) := by
  induction answers generalizing started with
  | nil => exact Iff.rfl
  | cons chunks rest ih =>
    have hthis := hplain chunks List.mem_cons_self
    have hrest := fun later hl => hplain later (List.mem_cons_of_mem _ hl)
    have hlater : (∀ later ∈ rest, ¬ Solid pyIsSpace later.flatten) ↔
        ∀ y ∈ rest.map (piece L), ¬ Solid pyIsSpace y.kept := by
      rw [List.forall_mem_map]
      refine forall₂_congr fun later hl => not_congr ?_
      exact (solid_shown (hrest later hl)).symm
    have hstarted : (started ∨ Solid pyIsSpace chunks.flatten)
        = (started ∨ Solid pyIsSpace (piece L chunks).kept) := by
      rw [propext (solid_shown hthis).symm]
      rfl
    simp only [Plain, List.map_cons, Outer, hlater, hstarted, ih hrest, hthis, true_and]
    rfl

theorem plainly_of_plain {started : Prop} (h : Plain L started answers) :
    ∀ chunks ∈ answers, Plainly L chunks := by
  induction answers generalizing started with
  | nil => intro chunks hc; cases hc
  | cons chunks rest ih =>
    intro c hc
    rcases List.mem_cons.1 hc with rfl | hc
    · exact h.1
    · exact ih h.2.2.2 c hc

theorem ink_flatMap_shown (L : Lowercase) (answers : List (List (List Char))) :
    ink (answers.flatMap (shown L)) ≤ ink (answers.flatMap List.flatten) ∧
      ((∃ chunks ∈ answers, ¬ Plainly L chunks) →
        ink (answers.flatMap (shown L)) < ink (answers.flatMap List.flatten)) := by
  induction answers with
  | nil => exact ⟨Nat.le_refl _, by simp⟩
  | cons chunks rest ih =>
    obtain ⟨hle, hlt⟩ := shown_ink L chunks
    simp only [List.flatMap_cons, ink_append]
    refine ⟨by omega, ?_⟩
    rintro ⟨c, hc, hnot⟩
    rcases List.mem_cons.1 hc with rfl | hc
    · have hstrict := hlt hnot
      omega
    · have hstrict := ih.2 ⟨c, hc, hnot⟩
      omega

/-- The reply and what was shown agree, stripped, exactly for the plain answers. -/
theorem strip_eq_iff (L : Lowercase) (answers : List (List (List Char))) :
    pyStrip (answers.flatMap List.flatten) = pyStrip (answers.flatMap (shown L)) ↔
      Plain L False answers := by
  by_cases hplain : ∀ chunks ∈ answers, Plainly L chunks
  · have hloose : ∀ x ∈ answers.map (piece L), x.Loose pyIsSpace := by
      rw [List.forall_mem_map]
      exact fun chunks hc => (piece_of_plainly (hplain chunks hc)).2
    have hwhole : answers.flatMap List.flatten = (answers.map (piece L)).flatMap Piece.whole := by
      rw [List.flatMap_map]
      exact List.flatMap_congr fun chunks hc => (piece_of_plainly (hplain chunks hc)).1.symm
    have hkept : answers.flatMap (shown L) = (answers.map (piece L)).flatMap Piece.kept := by
      rw [List.flatMap_map]
      rfl
    rw [hwhole, hkept, plain_iff hplain]
    exact trim_whole_eq_iff hloose
  · refine iff_of_false (fun heq => ?_) fun h => hplain (plainly_of_plain h)
    have hlt := (ink_flatMap_shown L answers).2 (by simpa using hplain)
    rw [← ink_pyStrip, ← ink_pyStrip (answers.flatMap List.flatten), heq] at hlt
    omega

/-! ## The turn -/

theorem after_frames (o : Outcome) (h : o.frames.flatten = o.answers.flatMap (shown L)) :
    (o.after L chunks).frames.flatten = (o.after L chunks).answers.flatMap (shown L) := by
  simp [Outcome.after, shown, h]

theorem after_response (o : Outcome) (h : o.response.flatten = o.answers.flatMap List.flatten) :
    (o.after L chunks).response.flatten = (o.after L chunks).answers.flatMap List.flatten := by
  simp only [Outcome.after, List.flatMap_cons, List.flatten_append, h]
  split
  · next hnil => simp [hnil]
  · simp

/-- A finished turn has gathered and shown the answers that it has read, and one of them
is not blank. -/
theorem turns_spec {rounds : Nat} {useTools streamedAny : Bool} {up : Nat → Upstream}
    {leaves : Nat → Bool} (o : Outcome) (ho : turns L rounds useTools streamedAny up leaves = o)
    (hfin : o.finished = true) :
    o.response.flatten = o.answers.flatMap List.flatten ∧
      o.frames.flatten = o.answers.flatMap (shown L) ∧
      (streamedAny = true ∨ ∃ chunks ∈ o.answers, pyStrip chunks.flatten ≠ []) := by
  induction rounds generalizing useTools streamedAny up leaves o with
  | zero =>
    unfold turns at ho
    split at ho
    · next deltas hup =>
        simp only at ho
        split at ho
        · subst ho
          cases hfin
        · next hne =>
            subst ho
            exact ⟨after_response _ rfl, after_frames _ rfl,
              Or.inr ⟨_, List.mem_cons_self, hne⟩⟩
    · subst ho
      cases hfin
  | succ rounds ih =>
    unfold turns at ho
    split at ho
    · next deltas hup =>
        simp only at ho
        split at ho
        · subst ho
          have hany : (streamedAny || decide (pyStrip (chunksOf deltas).flatten ≠ [])) = true :=
            hfin
          refine ⟨after_response _ rfl, after_frames _ rfl, ?_⟩
          rcases Bool.or_eq_true_iff.1 hany with h | h
          · exact Or.inl h
          · exact Or.inr ⟨_, List.mem_cons_self, of_decide_eq_true h⟩
        · split at ho
          · subst ho
            cases hfin
          · subst ho
            obtain ⟨hresp, hframes, hany⟩ := ih _ rfl hfin
            refine ⟨after_response _ hresp, after_frames _ hframes, ?_⟩
            rcases hany with hany | ⟨c, hc, hne⟩
            · rcases Bool.or_eq_true_iff.1 hany with h | h
              · exact Or.inl h
              · exact Or.inr ⟨_, List.mem_cons_self, of_decide_eq_true h⟩
            · exact Or.inr ⟨c, List.mem_cons_of_mem _ hc, hne⟩
    · split at ho
      · exact ih o ho hfin
      · subst ho
        cases hfin
    · subst ho
      cases hfin

/-- A stripped text does not end in white space: cutting off white space alone cuts off
nothing. -/
theorem length_pyStrip_le {n : Nat} (h : ink ((pyStrip t).drop n) = 0) : (pyStrip t).length ≤ n := by
  have hblank : ∀ c ∈ (pyStrip t).drop n, pyIsSpace c = true :=
    not_solid.1 fun hs => absurd (ink_pos.2 hs) (by omega)
  have hend : trimEndMatches pyIsSpace (pyStrip t) = pyStrip t :=
    List.rdropWhile_idempotent pyIsSpace _
  rw [← hend, ← List.take_append_drop n (pyStrip t), trimEndMatches_append_of_all hblank]
  exact (trimEndMatches_isPrefix _ _).length_le.trans (List.length_take_le _ _)

theorem not_hides_of_plainly (h : Plainly L chunks) : ¬ Hides L chunks := by
  unfold Hides
  unfold Plainly at h
  split at h
  · next hm => simp
  · next hm => simp
  · exact h.elim
  · next hm => simp [h.1]

/-- For every sequence of model answers after which the turn has finished: what is kept
is what was shown, cut to length, with no reasoning that was hidden, if the answers are
plain; and if the reply is not cut, only then. -/
theorem reply_shown_iff (L : Lowercase) (up : Nat → Upstream) (leaves : Nat → Bool)
    (hfin : (turns L 4 true false up leaves).finished = true) :
    (Plain L False (turns L 4 true false up leaves).answers →
      Faithful L (turns L 4 true false up leaves)) ∧
    ((pyStrip (turns L 4 true false up leaves).response.flatten).length ≤ 8000 →
      Faithful L (turns L 4 true false up leaves) →
      Plain L False (turns L 4 true false up leaves).answers) := by
  generalize ho : turns L 4 true false up leaves = o at hfin ⊢
  obtain ⟨hresp, hframes, hany⟩ := turns_spec o ho hfin
  have hne : pyStrip o.response.flatten ≠ [] := by
    obtain ⟨chunks, hc, hblank⟩ := hany.resolve_left (by simp)
    have hpos : 0 < ink chunks.flatten := by
      rw [← ink_pyStrip]
      obtain ⟨c, t, hct⟩ := List.exists_cons_of_ne_nil hblank
      by_contra hzero
      have hle := length_pyStrip_le (t := chunks.flatten) (n := 0) (by
        rw [List.drop_zero]
        omega)
      rw [hct] at hle
      simp at hle
    have hsolid : Solid pyIsSpace o.response.flatten := by
      obtain ⟨c, hc', hp⟩ := ink_pos.1 hpos
      rw [hresp]
      exact ⟨c, List.mem_flatMap.2 ⟨chunks, hc, hc'⟩, hp⟩
    intro hnil
    have hink := ink_pos.2 hsolid
    rw [← ink_pyStrip, hnil] at hink
    cases hink
  have hsaved : saved o = some ((pyStrip o.response.flatten).take 8000,
      (pyStrip o.response.flatten).take 4000) := by
    simp [saved, hne, hfin]
  constructor
  · intro hplain
    have heq := (strip_eq_iff L o.answers).2 hplain
    rw [← hresp, ← hframes] at heq
    refine ⟨by rw [hsaved, heq], fun chunks hc => ?_⟩
    exact not_hides_of_plainly (plainly_of_plain hplain chunks hc)
  · intro hlen hfaithful
    have hkept := hfaithful.kept
    rw [hsaved] at hkept
    have hcut : pyStrip o.response.flatten = (pyStrip o.frames.flatten).take 8000 := by
      rw [← (Prod.mk.inj (Option.some.inj hkept)).1, List.take_of_length_le hlen]
    -- nothing that counts is left for the part that is cut off
    have hrest : ink ((pyStrip o.frames.flatten).drop 8000) = 0 := by
      have hsplit := ink_append ((pyStrip o.frames.flatten).take 8000)
        ((pyStrip o.frames.flatten).drop 8000)
      rw [List.take_append_drop, ink_pyStrip] at hsplit
      have hfirst : ink ((pyStrip o.frames.flatten).take 8000) = ink o.response.flatten := by
        rw [← hcut, ink_pyStrip]
      have hle : ink o.frames.flatten ≤ ink o.response.flatten := by
        rw [hresp, hframes]
        exact (ink_flatMap_shown L o.answers).1
      omega
    rw [List.take_of_length_le (length_pyStrip_le hrest), hresp, hframes] at hcut
    exact (strip_eq_iff L o.answers).1 hcut

/-- One answer without calls. -/
def oneAnswer (chunks : List (List Char)) : Nat → Upstream := fun _ =>
  .streamed (chunks.map fun c => ⟨[], [], c⟩)

theorem reply_shown_hello : (turns asciiLowercase 4 true false (oneAnswer ["Bonjour ".toList, "à tous".toList])
      fun _ => false).finished = true ∧
    saved (turns asciiLowercase 4 true false (oneAnswer ["Bonjour ".toList, "à tous".toList])
      fun _ => false) = some ("Bonjour à tous".toList, "Bonjour à tous".toList) ∧
    (Plain asciiLowercase False (turns asciiLowercase 4 true false
        (oneAnswer ["Bonjour ".toList, "à tous".toList]) fun _ => false).answers →
      Faithful asciiLowercase (turns asciiLowercase 4 true false
        (oneAnswer ["Bonjour ".toList, "à tous".toList]) fun _ => false)) :=
  ⟨by decide, by decide, (reply_shown_iff _ _ _ (by decide)).1⟩

/-- A reasoning in the content that is closed before the reply: it is hidden, and kept. -/
theorem hidden_reasoning_kept :
    (turns asciiLowercase 4 true false (oneAnswer ["<think>hm".toList, "</think>oui".toList])
      fun _ => false).finished = true ∧
    (turns asciiLowercase 4 true false (oneAnswer ["<think>hm".toList, "</think>oui".toList])
      fun _ => false).frames = ["oui".toList] ∧
    saved (turns asciiLowercase 4 true false (oneAnswer ["<think>hm".toList, "</think>oui".toList])
      fun _ => false) = some ("<think>hm</think>oui".toList, "<think>hm</think>oui".toList) ∧
    ¬ Faithful asciiLowercase (turns asciiLowercase 4 true false
      (oneAnswer ["<think>hm".toList, "</think>oui".toList]) fun _ => false) := by
  refine ⟨by decide, by decide, by decide, fun h => ?_⟩
  have hkept := h.kept
  revert hkept
  decide

end Portal.Support
