import DgxPlatform.Portal.ArtifactNames

/-! # The file that is being written

While an answer streams in, `openCodeFence` shows the block behind its last fence. When the
answer is cut there, `closedContent` closes that block and `parseArtifacts` makes a file of it.
-/

namespace Portal.Ask

open Text
open Playground (utf16Length fences)

/-- The block still open at the end of an answer. -/
structure OpenFence where
  lang : List Char
  body : List Char
  start : Nat
deriving DecidableEq

/-- `openCodeFence`. -/
def openCodeFence (L : Lowercase) (content : List Char) : Option OpenFence :=
  if fences content % 2 = 0 then none
  else
    (rsplitOnceText fence content).bind fun last =>
      let info := last.2.takeWhile (· ≠ '\n')
      match last.2.drop info.length with
      | '\n' :: body =>
          if isQuestionsBlock L (firstWord info) body then none
          else some ⟨if firstWord info = [] then "text".toList else firstWord info, body, last.1.length⟩
      | _ => none

/-- What `openCodeFence` has found: the last fence, an info string and a line feed. -/
structure Opened (L : Lowercase) (content : List Char) (f : OpenFence) (info : List Char) : Prop where
  odd : fences content % 2 = 1
  text : content.drop f.start = fence ++ info ++ '\n' :: f.body
  place : f.start + (info.length + 4) + f.body.length = content.length
  line : '\n' ∉ info
  last : Framing.cut fence f.body = none
  lang : f.lang = if firstWord info = [] then "text".toList else firstWord info
  file : isQuestionsBlock L (firstWord info) f.body = false

section Open

variable {L : Lowercase} {names : Names} {content : List Char}

theorem opened_of_open {f : OpenFence} (h : openCodeFence L content = some f) : ∃ info, Opened L content f info := by
  unfold openCodeFence at h
  split_ifs at h with heven
  obtain ⟨⟨before, rest⟩, hlast, h⟩ := Option.bind_eq_some_iff.1 h
  dsimp only at h
  split at h
  · next body hrest =>
      by_cases hquestions : isQuestionsBlock L (firstWord (rest.takeWhile (· ≠ '\n'))) body = true
      · rw [if_pos hquestions] at h
        cases h
      rw [if_neg hquestions] at h
      cases h
      have htext := rsplitOnceText_eq_some hlast
      have hinfo : rest = rest.takeWhile (· ≠ '\n') ++ '\n' :: body := by
        rw [← hrest, drop_length_takeWhile, List.takeWhile_append_dropWhile]
      refine ⟨rest.takeWhile (· ≠ '\n'), ?_, ?_, ?_, ?_, ?_, rfl, Bool.eq_false_iff.2 hquestions⟩
      · omega
      · dsimp only
        rw [htext, List.append_assoc, List.drop_left]
        conv_lhs => rw [hinfo]
        rw [List.append_assoc]
      · have hlen := congrArg List.length htext
        have hlen' := congrArg List.length hinfo
        simp only [List.length_append, List.length_cons, fence, List.length_nil] at hlen hlen'
        dsimp only
        omega
      · intro hmem
        exact absurd (List.mem_takeWhile_imp hmem) (by decide)
      · cases hcut : Framing.cut fence body with
        | none => rfl
        | some r =>
          refine absurd ?_ (rsplitOnceText_last fence_ne_nil hlast)
          have hbody := Framing.eq_of_cut (show Framing.cut fence body = some (r.1, r.2) from hcut)
          refine ⟨'\x60' :: '\x60' :: (rest.takeWhile (· ≠ '\n') ++ '\n' :: r.1), r.2, ?_⟩
          conv_rhs => rw [hinfo, hbody]
          simp [fence]
  · cases h

/-! ## The blocks in front of the last fence -/

/-- Reading the fences from left to right, as `parseArtifacts` does, the one at `start` opens
a block. -/
def Pairs (content : List Char) (start : Nat) : Prop := ∃ b, (start, b) ∈ blocks artifactOpener true content

theorem moves_artifact (toEnd : Bool) : Scan.Moves (fun _ : Nat => blockAt artifactOpener toEnd) Block.length := by
  intro pos t b hb
  have hhead := (artifactOpener_eq_some.1 (blockAt_eq_some.1 hb).1).2
  dsimp only at hhead
  unfold Block.length
  omega

/-- In front of a fence, a block is the same whether the answer goes on or is closed by force. -/
theorem blockAt_before {start q : Nat} (hfence : FenceAt content start) (hq : q < start) :
    blockAt artifactOpener true (content.drop q) = blockAt artifactOpener false (content.drop q ++ forced) := by
  have hdrop : ∀ k, (content.drop q).drop k = content.drop (q + k) := fun k => List.drop_drop
  cases hopen : artifactOpener (content.drop q) with
  | none =>
    have hopen' : artifactOpener (content.drop q ++ forced) = none := by
      rw [Option.eq_none_iff_forall_ne_some]
      intro o ho
      obtain ⟨hw, hhead⟩ := artifactOpener_eq_some.1 ho
      rcases opens_append (.inr rfl) hw with hw | ⟨-, hall⟩
      · rw [artifactOpener_eq_some.2 ⟨hw, hhead⟩] at hopen
        cases hopen
      · -- the fence would be inside the opening line
        have hget := hfence.get (i := 2) (by omega)
        rw [show start + 2 = q + (start + 2 - q) by omega, ← List.getElem?_drop, hall,
          List.getElem?_append_right (by simp [fence]; omega)] at hget
        exact hw.1 (List.mem_of_getElem? hget)
    rw [blockAt, hopen, blockAt, hopen']
    rfl
  | some o =>
    obtain ⟨hw, hhead⟩ := artifactOpener_eq_some.1 hopen
    have hopen' : artifactOpener (content.drop q ++ forced) = some o :=
      artifactOpener_eq_some.2 ⟨hw.append forced, hhead⟩
    have hbehind : q + o.2 ≤ start := by
      by_contra hlt
      exact hw.not_fenceAt hq (by omega) hfence
    rw [blockAt, hopen, blockAt, hopen', Option.bind_some, Option.bind_some,
      List.drop_append_of_le_length (by have := hw.length_le; omega)]
    cases hcut : Framing.cut fence ((content.drop q).drop o.2) with
    | none =>
      refine absurd hfence ?_
      have hno := Framing.not_prefix_of_cut_none fence_ne_nil hcut (start - (q + o.2))
      rwa [List.drop_drop, List.drop_drop, show q + (o.2 + (start - (q + o.2))) = start by omega] at hno
    | some r =>
      have happend := Framing.cut_append (show Framing.cut fence _ = some (r.1, r.2) from hcut) forced
      rw [happend]

/-- The block at the last fence, when the answer is closed by force. -/
def forcedBlock (f : OpenFence) (info : List Char) : Block := ⟨info, info.length + 4, f.body ++ ['\n'], true⟩

theorem forcedBlock_mem {f : OpenFence} {info : List Char} (h : Opened L content f info)
    (hpairs : Pairs content f.start) :
    (f.start, forcedBlock f info) ∈ blocks artifactOpener false (content ++ forced) := by
  have hplace := h.place
  have hlt : f.start < content.length := by omega
  have hfence : FenceAt content f.start := by
    rw [FenceAt, h.text, List.append_assoc]
    exact List.prefix_append _ _
  obtain ⟨b, hb⟩ := hpairs
  have hopens : Opens (content.drop f.start) info := by
    obtain ⟨hw, -⟩ := artifactOpener_eq_some.1 (blockAt_eq_some.1 (mem_blocks hb).2).1
    have hlabel : b.label = info := by
      obtain ⟨htick, hline, s, hs⟩ := hw
      dsimp only at htick hline hs
      rw [h.text, List.append_assoc, List.append_assoc] at hs
      have htails : info ++ '\n' :: f.body = b.label ++ '\n' :: s := List.append_cancel_left hs
      have hleft := congrArg (List.takeWhile (· ≠ '\n')) htails
      have hclean : ∀ w : List Char, '\n' ∉ w → ∀ x ∈ w, decide (x ≠ '\n') = true := by
        intro w hw x hx
        exact decide_eq_true fun heq => hw (heq ▸ hx)
      rw [takeWhile_stop (hclean info h.line) (c := '\n') (by decide),
        takeWhile_stop (hclean _ hline) (c := '\n') (by decide)] at hleft
      exact hleft.symm
    rw [← hlabel]
    exact hw
  have hdrop : (content ++ forced).drop f.start = content.drop f.start ++ forced :=
    List.drop_append_of_le_length hlt.le
  have hblock : blockAt artifactOpener false ((content ++ forced).drop f.start) = some (forcedBlock f info) := by
    rw [hdrop, blockAt_eq_some]
    refine ⟨artifactOpener_eq_some.2 ⟨hopens.append forced, rfl⟩, .inl ⟨rfl, [], ?_⟩⟩
    have hbody : (content.drop f.start ++ forced).drop (info.length + 4) = f.body ++ forced := by
      rw [List.drop_append_of_le_length hopens.length_le, h.text]
      congr 1
      simp [fence]
    exact (congrArg _ hbody).trans (cut_forced h.last)
  refine Scan.mem_scan_of (moves_artifact false) (Nat.zero_le _) ?_ hblock ?_
  · rw [List.length_append]
    omega
  · intro q b' hq hqlt
    have hagree : ∀ p < f.start, blockAt artifactOpener false ((content ++ forced).drop p) =
        blockAt artifactOpener true (content.drop p) := by
      intro p hp
      rw [List.drop_append_of_le_length (by omega)]
      exact (blockAt_before hfence hp).symm
    have hq' : (q, b') ∈ blocks artifactOpener true content :=
      (Scan.mem_scan_congr (moves_artifact false) (moves_artifact true) (by rw [List.length_append]; omega)
        hlt.le hagree hqlt).1 hq
    exact Scan.end_le_of_mem_scan hb hq' hqlt

/-! ## The last file -/

/-- The loop of `parseArtifacts` in front of a place. -/
def loopBefore (L : Lowercase) (names : Names) (content : List Char) (p : Nat) : Loop :=
  ((blocks artifactOpener false content).filter fun m => m.1 < p).foldl (Loop.next L names content)
    ⟨names.askedFileNames, 0, []⟩

/-- `parseArtifacts` leaves a block in the text, as an excerpt of the file that the prose names. -/
def isExcerptAt (names : Names) (content : List Char) (r : Loop) (p : Nat) (info body : List Char) : Bool :=
  let title := names.titleFromContext (content.take p)
  let earlier := ((r.files.reverse.find? fun f => f.2.2.title = title).map (·.2.2.content)).or (names.known title)
  infoTitle info = [] && title ≠ [] &&
    names.isExcerptOf title body ((content.take p).drop r.lastIndex) ((earlier.map utf16Length).getD 0)

/-- The block of a match becomes a file. -/
def Loop.Keeps (m : Nat × Block) (r r' : Loop) : Prop :=
  ∃ a : Artifact, r'.files = r.files ++ [(m.1, m.2, a)] ∧ a.content = dropLastNewline m.2.body

/-- The info string of the fence at a place. -/
def infoAt (content : List Char) (start : Nat) : List Char := (content.drop (start + 3)).takeWhile (· ≠ '\n')

/-- A block that is no protocol, no excerpt and long enough is a file. -/
theorem Loop.next_long (r : Loop) {m : Nat × Block} (hprotocol : isProtocol L m.2 = false)
    (hexcerpt : isExcerptAt names content r m.1 m.2.label (dropLastNewline m.2.body) = false)
    (hlong : 200 ≤ utf16Length (dropLastNewline m.2.body)) :
    Loop.Keeps m r (Loop.next L names content r m) := by
  unfold Loop.next
  refine iteInduction (fun h => absurd h (Bool.eq_false_iff.1 hprotocol)) fun _ => ?_
  refine iteInduction (fun h => ?_) fun _ => ?_
  · obtain ⟨hprose, hexcerpt'⟩ := h
    have hgiven : infoTitle m.2.label = [] := by
      by_contra hgiven
      exact hprose (if_neg hgiven)
    rw [if_pos hgiven] at hprose
    simp only [hgiven, if_true] at hexcerpt'
    have hyes : isExcerptAt names content r m.1 m.2.label (dropLastNewline m.2.body) = true := by
      unfold isExcerptAt
      simp only [hgiven, decide_true, Bool.true_and, Bool.and_eq_true, decide_eq_true_eq]
      exact ⟨hprose, hexcerpt'⟩
    rw [hexcerpt] at hyes
    cases hyes
  · refine iteInduction (fun h => absurd h.2.1 (not_lt.2 hlong)) fun _ => ?_
    exact ⟨_, rfl, rfl⟩

/-- Where the fences pair from left to right, the file that is kept is what was shown. -/
theorem lastArtifact_of_open {f : OpenFence} (hopen : openCodeFence L content = some f)
    (hpairs : Pairs content f.start) (hedit : f.lang ≠ "edit".toList) (hlong : 200 ≤ utf16Length f.body)
    (hexcerpt : isExcerptAt names (closedContent content)
      (loopBefore L names (closedContent content) f.start) f.start (infoAt content f.start) f.body = false) :
    ∃ a, (parseArtifacts L names (closedContent content)).artifacts.getLast? = some a ∧ a.content = f.body := by
  obtain ⟨info, h⟩ := opened_of_open hopen
  have hclosed : closedContent content = content ++ forced := if_pos h.odd
  rw [hclosed] at hexcerpt ⊢
  have hmem := forcedBlock_mem h hpairs
  have hplace := h.place
  have hbody : dropLastNewline (f.body ++ ['\n']) = f.body := by
    rw [dropLastNewline, List.getLast?_concat, if_pos rfl, List.dropLast_concat]
  have hinfo : infoAt content f.start = info := by
    have hclean : ∀ x ∈ info, decide (x ≠ '\n') = true := fun x hx => decide_eq_true fun heq => h.line (heq ▸ hx)
    rw [infoAt, ← List.drop_drop, h.text, List.append_assoc]
    exact takeWhile_stop hclean (by decide) f.body
  rw [hinfo] at hexcerpt
  have hend : (content ++ forced).length ≤ f.start + (forcedBlock f info).length := by
    rw [Block.length_of_closed rfl]
    simp only [forcedBlock, forced, fence, List.length_append, List.length_cons, List.length_nil]
    omega
  have hlist := Scan.scan_eq_concat (moves_artifact false) hmem hend
  have hprotocol : isProtocol L (forcedBlock f info) = false := by
    have hword : firstWord info ≠ "edit".toList := by
      intro hfirst
      refine hedit (h.lang.trans ?_)
      rw [hfirst]
      rfl
    have hfile : isQuestionsBlock L (firstWord info) (dropLastNewline (f.body ++ ['\n'])) = false := by
      rw [hbody]
      exact h.file
    exact Bool.or_eq_false_iff.2 ⟨decide_eq_false hword, hfile⟩
  have hfiles : fencedArtifacts L names (content ++ forced) = (Loop.next L names (content ++ forced)
      (loopBefore L names (content ++ forced) f.start) (f.start, forcedBlock f info)).files := by
    unfold fencedArtifacts blocks
    rw [hlist, List.foldl_concat]
    rfl
  have hbody' : dropLastNewline (forcedBlock f info).body = f.body := hbody
  obtain ⟨a, hkept, hcontent⟩ := Loop.next_long (L := L) (loopBefore L names (content ++ forced) f.start)
    (m := (f.start, forcedBlock f info)) hprotocol (by rw [hbody']; exact hexcerpt) (by rw [hbody']; exact hlong)
  rw [hkept] at hfiles
  refine ⟨a, ?_, hcontent.trans hbody'⟩
  rw [parseArtifacts_of_ne_nil (by rw [hfiles]; simp), hfiles, List.map_append, List.map_singleton,
    List.getLast?_concat]

end Open

/-! ## An answer that is cut -/

/-- The file kept when an answer is cut is the block that was shown, up to `g`. -/
def KeptUpTo (g : List Char → List Char) (L : Lowercase) (names : Names) (content : List Char) : Prop :=
  ∀ f ∈ openCodeFence L content, f.lang ≠ "edit".toList → 200 ≤ utf16Length f.body →
    isExcerptAt names (closedContent content) (loopBefore L names (closedContent content) f.start) f.start
      (infoAt content f.start) f.body = false →
    (parseArtifacts L names (closedContent content)).artifacts.getLast?.map Artifact.content = some (g f.body)

/-- The names of a message without a request, in a thread without files. -/
def plainNames : Names := namesOf Char.toLower id [] fun _ => none

def longLine : List Char := List.replicate 200 'x'

/-- The line feed at the end of an open block is kept; and where a fence in the prose pairs with
the last one, no file is kept. -/
theorem not_keptUpTo_lineFeed :
    ¬ KeptUpTo dropLastNewline asciiLowercase plainNames (fence ++ "py\n".toList ++ longLine ++ ['\n']) ∧
    ¬ KeptUpTo dropLastNewline asciiLowercase plainNames
        (fence ++ " a ".toList ++ fence ++ " b\n".toList ++ fence ++ "py\n".toList ++ longLine) := by
  unfold KeptUpTo
  decide +kernel

/-- The file that is kept of an open block is the block. -/
theorem lastArtifact_of_open_py :
    ∃ a, (parseArtifacts asciiLowercase plainNames
      (closedContent (fence ++ "py\n".toList ++ longLine ++ ['\n']))).artifacts.getLast? = some a ∧
      a.content = longLine ++ ['\n'] :=
  lastArtifact_of_open (f := ⟨"py".toList, longLine ++ ['\n'], 0⟩) (by decide +kernel)
    ⟨⟨"py".toList, 6, longLine ++ ['\n'], false⟩, by decide +kernel⟩ (by decide +kernel) (by decide +kernel)
    (by decide +kernel)

end Portal.Ask
