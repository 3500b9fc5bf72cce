import DgxPlatform.Portal.AskFiles

/-! # An answer laid out

`parseArtifacts` takes the files out of an answer and leaves a card at the place of each: the
answer becomes segments, of text or of a file. A line in front of a card that only says the
file's name is not shown.
-/

namespace Portal.Ask

open Text
open Playground (utf16Length)

inductive Segment where
  | text (t : List Char)
  | file (n : Nat)
deriving DecidableEq

/-- What `parseArtifacts` answers when no document is asked for. -/
structure Parsed where
  prose : List Char
  artifacts : List Artifact
  segments : List Segment
deriving DecidableEq

def jsTrim (t : List Char) : List Char := trimMatches isJsSpace t

/-! ## Captions -/

/-- A line without what decorates a caption: `[#>\s*_-]+` before, `[\s*_:]+` behind. -/
def undecorated (line : List Char) : List Char :=
  (line.dropWhile fun c => c = '#' || c = '>' || isJsSpace c || c = '*' || c = '_' || c = '-').rdropWhile
    fun c => isJsSpace c || c = '*' || c = '_' || c = ':'

/-- Without the word `fichier` or `file`, and perhaps a colon, in front. -/
def withoutFileWord (line : List Char) : List Char :=
  match expect Char.toLower "fichier".toList line <|> expect Char.toLower "file".toList line with
  | none => line
  | some rest =>
      match skip rest with
      | ':' :: rest => skip rest
      | rest => rest

/-- Without a backtick in front and one behind. -/
def withoutTicks (line : List Char) : List Char :=
  let line := if line.head? = some '\x60' then line.tail else line
  if line.getLast? = some '\x60' then line.dropLast else line

/-- The name that a caption line gives. -/
def captionName (line : List Char) : List Char := jsTrim (withoutTicks (withoutFileWord (undecorated line)))

/-- `withoutCaption`. -/
def withoutCaption (text title : List Char) : List Char :=
  let lines := (trimEndMatches isJsSpace text).splitOn '\n'
  let last := captionName (lines.getLastD [])
  if last ≠ [] ∧ last = title then ['\n'].intercalate lines.dropLast else text

/-! ## A document without a fence -/

/-- `<\/html\s*>` at the head of a text: how long it is. -/
def htmlEnd (t : List Char) : Option Nat :=
  (expect Char.toLower "</html".toList t).bind fun rest =>
    let blanks := rest.takeWhile isJsSpace
    if (rest.drop blanks.length).head? = some '>' then some (blanks.length + 7) else none

/-- Up to the first closing tag. -/
def htmlBody (t : List Char) : Option Nat :=
  (List.range t.length).findSome? fun i => (htmlEnd (t.drop i)).map (i + ·)

/-- A whole document at the head of a text. -/
def htmlAt (t : List Char) : Option Nat :=
  ((expect Char.toLower "<!doctype html".toList t).bind htmlBody).map (14 + ·) <|>
    ((expect Char.toLower "<html".toList t).bind htmlBody).map (5 + ·)

/-- The first document of an answer: where it is and how long. -/
def bareHtml (content : List Char) : Option (Nat × Nat) :=
  (List.range content.length).findSome? fun p => (htmlAt (content.drop p)).map fun n => (p, n)

/-- `\.html?$`. -/
def isHtmlName (title : List Char) : Bool :=
  ".html".toList.isSuffixOf (title.map Char.toLower) || ".htm".toList.isSuffixOf (title.map Char.toLower)

/-! ## The layout -/

/-- The loop with what it lays out. -/
structure Layout where
  loop : Loop
  prose : List Char
  segments : List Segment

section Parse

variable (L : Lowercase) (names : Names)

/-- One match of the loop: a block that is skipped stays in the text behind the last file. -/
def Layout.next (content : List Char) (r : Layout) (m : Nat × Block) : Layout :=
  let loop := Loop.next L names content r.loop m
  match loop.files.drop r.loop.files.length with
  | [] => { r with loop := loop }
  | f :: _ =>
      let gap := (content.take m.1).drop r.loop.lastIndex
      { loop := loop
        prose := r.prose ++ gap
        segments := r.segments ++ [.text (withoutCaption gap f.2.2.title), .file r.loop.files.length] }

/-- The files in fences, laid out. -/
def fencedLayout (content : List Char) : Layout :=
  (blocks artifactOpener false content).foldl (Layout.next L names content)
    ⟨⟨names.askedFileNames, 0, []⟩, [], []⟩

/-- `parseArtifacts`, for an answer that is no document. -/
def parseArtifacts (content : List Char) : Parsed :=
  let r := fencedLayout L names content
  let rest := content.drop r.loop.lastIndex
  match (if r.loop.files.isEmpty then bareHtml content else none).filter fun h =>
      decide (200 ≤ utf16Length ((content.drop h.1).take h.2)) with
  | some (p, n) =>
      let before := content.take p
      let after := content.drop (p + n)
      let title := names.titleFromContext before
      { prose := jsTrim (before ++ after)
        artifacts := [⟨if isHtmlName title then title else "page.html".toList, "html".toList, (content.drop p).take n⟩]
        segments := [.text before, .file 0, .text after] }
  | none =>
      { prose := jsTrim (r.prose ++ rest)
        artifacts := r.loop.files.map fun f => f.2.2
        segments := r.segments ++ [.text rest] }

end Parse

/-! ## What a caption removes -/

/-- The text shown is the text, or all of it but a last line that names the file, and the
white space behind that line. -/
def Caption (gap shown title : List Char) : Prop :=
  shown = gap ∨ ∃ line blanks, captionName line = title ∧ title ≠ [] ∧ '\n' ∉ line ∧
    (∀ c ∈ blanks, isJsSpace c = true) ∧
      (gap = line ++ blanks ∧ shown = [] ∨ gap = shown ++ '\n' :: line ++ blanks)

theorem caption_withoutCaption (gap title : List Char) : Caption gap (withoutCaption gap title) title := by
  unfold withoutCaption
  dsimp only
  split_ifs with hname
  · obtain ⟨hne, heq⟩ := hname
    obtain ⟨blanks, hblanks⟩ := trimEndMatches_isPrefix isJsSpace gap
    have hspace : ∀ c ∈ blanks, isJsSpace c = true := by
      have hrest : gap.rtakeWhile isJsSpace = blanks := by
        have hboth : trimEndMatches isJsSpace gap ++ gap.rtakeWhile isJsSpace = gap :=
          List.rdropWhile_append_rtakeWhile
        exact List.append_cancel_left (hboth.trans hblanks.symm)
      rw [← hrest]
      exact fun c hc => List.mem_rtakeWhile_imp hc
    have hlines : ['\n'].intercalate ((trimEndMatches isJsSpace gap).splitOn '\n') = trimEndMatches isJsSpace gap :=
      List.intercalate_splitOn '\n'
    have hclean : ∀ line ∈ (trimEndMatches isJsSpace gap).splitOn '\n', '\n' ∉ line := by
      intro line hline hmem
      have hnot := (of_mem_splitOnP hline _ hmem).2
      rw [beq_self_eq_true] at hnot
      cases hnot
    have hnil : (trimEndMatches isJsSpace gap).splitOn '\n' ≠ [] := List.splitOnP_ne_nil _ _
    generalize (trimEndMatches isJsSpace gap).splitOn '\n' = lines at *
    obtain ⟨init, last, rfl⟩ : ∃ init last, lines = init ++ [last] :=
      ⟨lines.dropLast, lines.getLast hnil, (List.dropLast_append_getLast hnil).symm⟩
    rw [List.getLastD_concat] at hne heq
    rw [List.dropLast_concat]
    refine .inr ⟨last, blanks, heq, heq ▸ hne, hclean last (by simp), hspace, ?_⟩
    rcases List.eq_nil_or_concat init with rfl | ⟨init', x, rfl⟩
    · refine .inl ⟨?_, rfl⟩
      rw [← hblanks, ← hlines, List.nil_append, List.intercalate_singleton]
    · refine .inr ?_
      rw [intercalate_concat (by simp)] at hlines
      rw [← hblanks, ← hlines]
      simp only [List.append_assoc, List.cons_append, List.nil_append]
  · exact .inl rfl

/-! ## The pieces of an answer -/

/-- A file of an answer: the text in front of it, what is shown of that, and its own text. -/
structure Piece where
  gap : List Char
  shown : List Char
  raw : List Char
  artifact : Artifact

/-- The text of a file: a fenced block, or a document without a fence. -/
def Stands (raw : List Char) (a : Artifact) : Prop :=
  (∃ info body, '\n' ∉ info ∧ '\x60' ∉ info ∧ raw = fence ++ info ++ '\n' :: body ++ fence ∧
    a.content = dropLastNewline body) ∨
  ∃ t n, htmlAt t = some n ∧ raw = t.take n ∧ a.content = raw

/-- The segments of some pieces, one card for each. -/
def segmentsOf (pieces : List Piece) : List Segment :=
  pieces.zipIdx.flatMap fun x => [.text x.1.shown, .file x.2]

/-- The pieces behind what `parseArtifacts` answers, and the text behind the last file. -/
structure LaidOut (content : List Char) (r : Parsed) (pieces : List Piece) (rest : List Char) : Prop where
  whole : content = (pieces.flatMap fun x => x.gap ++ x.raw) ++ rest
  artifacts : r.artifacts = pieces.map Piece.artifact
  segments : r.segments = segmentsOf pieces ++ [.text rest]
  prose : r.prose = jsTrim (pieces.flatMap Piece.gap ++ rest)
  sound : ∀ x ∈ pieces, Caption x.gap x.shown x.artifact.title ∧ Stands x.raw x.artifact

/-- The pieces up to where the loop has come. -/
structure Layout.Upto (content : List Char) (r : Layout) (n : Nat) (pieces : List Piece) : Prop where
  index : r.loop.lastIndex ≤ n
  whole : content.take r.loop.lastIndex = pieces.flatMap fun x => x.gap ++ x.raw
  artifacts : r.loop.files.map (fun f => f.2.2) = pieces.map Piece.artifact
  segments : r.segments = segmentsOf pieces
  prose : r.prose = pieces.flatMap Piece.gap
  sound : ∀ x ∈ pieces, Caption x.gap x.shown x.artifact.title ∧ Stands x.raw x.artifact

theorem segmentsOf_concat (pieces : List Piece) (x : Piece) :
    segmentsOf (pieces ++ [x]) = segmentsOf pieces ++ [.text x.shown, .file pieces.length] := by
  unfold segmentsOf
  rw [List.zipIdx_append, List.flatMap_append, Nat.zero_add]
  rfl

theorem raw_of_block {t : List Char} {b : Block} (h : blockAt artifactOpener false t = some b) :
    '\n' ∉ b.label ∧ '\x60' ∉ b.label ∧ t.take b.length = fence ++ b.label ++ '\n' :: b.body ++ fence := by
  obtain ⟨hopen, ⟨hclosed, rest, hcut⟩ | ⟨-, hend, -⟩⟩ := blockAt_eq_some.1 h
  · obtain ⟨⟨htick, hline, s, hs⟩, hhead⟩ := artifactOpener_eq_some.1 hopen
    dsimp only at htick hline hs hhead
    refine ⟨hline, htick, ?_⟩
    have hdrop : t.drop b.head = s := by
      rw [hhead, hs]
      simp [fence]
    rw [hdrop] at hcut
    have ht : t = (fence ++ b.label ++ '\n' :: b.body ++ fence) ++ rest := by
      rw [hs, Framing.eq_of_cut hcut]
      simp only [List.append_assoc, List.cons_append]
    have hlen : b.length = (fence ++ b.label ++ '\n' :: b.body ++ fence).length := by
      rw [Block.length_of_closed hclosed, hhead]
      simp [fence]
      omega
    rw [hlen, ht]
    exact List.take_left
  · cases hend

section Parse

variable {L : Lowercase} {names : Names}

/-- One match skips its block or takes it as a file. -/
def Loop.Takes (m : Nat × Block) (r r' : Loop) : Prop :=
  (r'.files = r.files ∧ r'.lastIndex = r.lastIndex) ∨
    ∃ a : Artifact, r'.files = r.files ++ [(m.1, m.2, a)] ∧ r'.lastIndex = m.1 + m.2.length ∧
      a.content = dropLastNewline m.2.body

theorem Loop.next_takes (content : List Char) (r : Loop) (m : Nat × Block) :
    Loop.Takes m r (Loop.next L names content r m) := by
  unfold Loop.next
  refine iteInduction (fun _ => .inl ⟨rfl, rfl⟩) fun _ => ?_
  refine iteInduction (fun _ => .inl ⟨rfl, rfl⟩) fun _ => ?_
  exact iteInduction (fun _ => .inl ⟨rfl, rfl⟩) fun _ => .inr ⟨_, rfl, rfl, rfl⟩

theorem Layout.loop_next (content : List Char) (r : Layout) (m : Nat × Block) :
    (Layout.next L names content r m).loop = Loop.next L names content r.loop m := by
  unfold Layout.next
  dsimp only
  split <;> rfl

theorem loop_fencedLayout (content : List Char) :
    (fencedLayout L names content).loop =
      (blocks artifactOpener false content).foldl (Loop.next L names content) ⟨names.askedFileNames, 0, []⟩ :=
  (List.foldl_hom Layout.loop fun r m => (Layout.loop_next content r m).symm).symm

theorem parseArtifacts_of_ne_nil {content : List Char} (h : fencedArtifacts L names content ≠ []) :
    (parseArtifacts L names content).artifacts = (fencedArtifacts L names content).map fun f => f.2.2 := by
  have hfiles : (fencedLayout L names content).loop.files = fencedArtifacts L names content :=
    congrArg Loop.files (loop_fencedLayout content)
  unfold parseArtifacts
  dsimp only
  rw [hfiles, if_neg (by simpa using h)]
  rfl

theorem Layout.Upto.next {content : List Char} {r : Layout} {n : Nat} {pieces : List Piece}
    (h : r.Upto content n pieces) {m : Nat × Block} (hm : n ≤ m.1)
    (hblock : blockAt artifactOpener false (content.drop m.1) = some m.2) :
    ∃ pieces', (Layout.next L names content r m).Upto content (m.1 + m.2.length) pieces' := by
  have hle : r.loop.lastIndex ≤ m.1 := h.index.trans hm
  have htakes : Loop.Takes m r.loop (Loop.next L names content r.loop m) := Loop.next_takes content r.loop m
  unfold Layout.next
  dsimp only
  rcases htakes with ⟨hfiles, hindex⟩ | ⟨a, hfiles, hindex, hcontent⟩
  · rw [hfiles, List.drop_length]
    refine ⟨pieces, ?_, ?_, ?_, h.segments, h.prose, h.sound⟩
    · exact hindex.le.trans (hle.trans (Nat.le_add_right _ _))
    · exact (congrArg content.take hindex).trans h.whole
    · exact (congrArg _ hfiles).trans h.artifacts
  · have hnumber : r.loop.files.length = pieces.length := by
      rw [← List.length_map (f := fun f : Nat × Block × Artifact => f.2.2), h.artifacts, List.length_map]
    obtain ⟨hline, htick, hraw⟩ := raw_of_block hblock
    rw [hfiles, List.drop_left]
    refine ⟨pieces ++ [⟨(content.take m.1).drop r.loop.lastIndex,
      withoutCaption ((content.take m.1).drop r.loop.lastIndex) a.title,
      (content.drop m.1).take m.2.length, a⟩], ?_, ?_, ?_, ?_, ?_, ?_⟩
    · exact hindex.le
    · dsimp only
      rw [hindex, List.flatMap_append, List.flatMap_singleton, ← h.whole, ← List.append_assoc, List.take_add]
      congr 1
      conv_lhs => rw [← List.take_append_drop r.loop.lastIndex (content.take m.1), List.take_take, Nat.min_eq_left hle]
    · dsimp only
      rw [hfiles, List.map_append, h.artifacts, List.map_append]
      rfl
    · rw [segmentsOf_concat, ← h.segments, hnumber]
    · rw [List.flatMap_append, List.flatMap_singleton, ← h.prose]
    · intro x hx
      rcases List.mem_append.1 hx with hx | hx
      · exact h.sound x hx
      · rw [List.mem_singleton.1 hx]
        constructor
        · exact caption_withoutCaption ((content.take m.1).drop r.loop.lastIndex) a.title
        · exact Or.inl ⟨m.2.label, m.2.body, hline, htick, hraw, hcontent⟩

theorem Layout.Upto.run {content : List Char} (ms : List (Nat × Block)) {r : Layout} {n : Nat}
    {pieces : List Piece} (h : r.Upto content n pieces) (hn : ∀ m ∈ ms, n ≤ m.1)
    (hrow : ms.Pairwise fun m m' => m.1 + m.2.length ≤ m'.1)
    (hblocks : ∀ m ∈ ms, blockAt artifactOpener false (content.drop m.1) = some m.2) :
    ∃ n' pieces', (ms.foldl (Layout.next L names content) r).Upto content n' pieces' := by
  induction ms generalizing r n pieces with
  | nil => exact ⟨n, pieces, h⟩
  | cons m ms ih =>
    obtain ⟨hm, hms⟩ := List.pairwise_cons.1 hrow
    obtain ⟨pieces', hnext⟩ := @Layout.Upto.next L names _ _ _ _ h m (hn m List.mem_cons_self)
      (hblocks m List.mem_cons_self)
    exact ih hnext hm hms fun m' hm' => hblocks m' (List.mem_cons_of_mem m hm')

theorem fencedLayout_upto (content : List Char) :
    ∃ n pieces, (fencedLayout L names content).Upto content n pieces := by
  refine @Layout.Upto.run L names content _ _ 0 [] ⟨Nat.le_refl 0, rfl, rfl, rfl, rfl, nofun⟩
    (fun m _ => Nat.zero_le m.1) (Scan.pairwise_scan _ _ _ _) ?_
  intro m hm
  have hmatch := (Scan.mem_scan hm).2.2
  rwa [Nat.sub_zero] at hmatch

/-- The segments of an answer are its pieces: its files are each there once and in order, and
with their texts, and the captions that are not shown, they are the answer. -/
theorem parseArtifacts_laidOut (L : Lowercase) (names : Names) (content : List Char) :
    ∃ pieces rest, LaidOut content (parseArtifacts L names content) pieces rest := by
  unfold parseArtifacts
  dsimp only
  split
  · next p n hfound =>
      obtain ⟨hhtml, -⟩ := Option.filter_eq_some_iff.1 hfound
      rw [ite_eq_iff] at hhtml
      obtain ⟨-, hbare⟩ | ⟨-, hnone⟩ := hhtml
      · obtain ⟨i, -, hi⟩ := List.exists_of_findSome?_eq_some hbare
        obtain ⟨n', hn', heq⟩ := Option.map_eq_some_iff.1 hi
        cases heq
        refine ⟨[⟨content.take p, content.take p, (content.drop p).take n, _⟩], content.drop (p + n), ?_, rfl, rfl, ?_, ?_⟩
        · rw [List.flatMap_singleton, List.append_assoc, ← List.drop_drop, List.take_append_drop,
            List.take_append_drop]
        · rw [List.flatMap_singleton]
        · intro x hx
          rw [List.mem_singleton.1 hx]
          exact ⟨.inl rfl, .inr ⟨_, n, hn', rfl, rfl⟩⟩
      · cases hnone
  · obtain ⟨n, pieces, h⟩ := @fencedLayout_upto L names content
    refine ⟨pieces, content.drop (fencedLayout L names content).loop.lastIndex, ?_, h.artifacts, ?_, ?_, h.sound⟩
    · rw [← h.whole, List.take_append_drop]
    · rw [h.segments]
    · rw [h.prose]

end Parse

end Portal.Ask
