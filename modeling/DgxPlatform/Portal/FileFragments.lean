import DgxPlatform.Portal.EditReports

/-! # Snippets of files

`messageFragments` names the files of which a message holds only a snippet, so that the page can
say that they are untouched. `filesUntil` decides for itself which blocks of a message are
versions.
-/

namespace Portal.Playground

open Text (Lowercase)

/-! ## The snippets of a message -/

/-- `GENERIC_TITLE`: a name for lack of a better one. -/
def isGenericTitle (title : List Char) : Bool :=
  let title := title.map Char.toLower
  ["fichier-".toList, "file-".toList].any fun word =>
    decide (word <+: title) &&
      let digits := (title.drop word.length).takeWhile Char.isDigit
      match (title.drop word.length).drop digits.length with
      | '.' :: ext =>
          digits ≠ [] && decide (1 ≤ ext.length ∧ ext.length ≤ 6) && ext.all fun c => c.isDigit || c.isLower
      | _ => false

section Fragments

variable (L : Lowercase) (P : Parsers)

/-- The file of which an artifact is a snippet: the one of its name, or, if it has none, a file
in the same language. -/
def fragmentOf (before : Files) (a : Artifact) : Option (List Char) :=
  match a with
  | .doc _ _ => none
  | .code title lang content =>
      if P.isFragment (before.get? title) content then some title
      else if isGenericTitle title then
        (before.find? fun e => decide (e.2.lang = lang) && P.isFragment (some e.2) content).map Prod.fst
      else none

/-- The file of which a block is a snippet that is too small to become a file. -/
def rawFragmentOf (before : Files) (b : Ask.Block) : Option (List Char) :=
  let lang := L.lower (Ask.firstWord b.label)
  if lang = "edit".toList ∨ Ask.isQuestionsBlock L lang b.body = true then none
  else
    (before.find? fun e =>
      (decide (lang = []) || decide (L.lower e.2.lang = lang)) && P.isFragment (some e.2) b.body).map Prod.fst

/-- `messageFragments`. -/
def messageFragments (messages : List ChatMsg) (index : Nat) : List (List Char) :=
  match messages[index]? with
  | none => []
  | some m =>
      if m.role ≠ .assistant then []
      else
        let before := filesUntil P messages ((index : Int) - 1)
        let names := (P.parseArtifacts m.content (requestAt messages index) fun _ => none).filterMap
          (fragmentOf P before)
        if names ≠ [] then names
        else if before = [] then []
        else (((Ask.blocks Ask.artifactOpener false m.content).findSome? fun b => rawFragmentOf L P before b.2)).toList

end Fragments

/-! ## The versions of a message -/

/-- The blocks under a name, in order: the text, and whether the cut left it open. -/
def blocksUnder (unfinished : Option (List Char)) (last : Nat) (name : List Char) (arts : List (Artifact × Nat)) :
    List (List Char × Bool) :=
  arts.filterMap fun a =>
    match a.1 with
    | .doc _ _ => none
    | .code title _ content =>
        if title = name then some (content, decide (a.2 = last ∧ some title = unfinished)) else none

/-- A block is a version of what the file holds: it is no snippet of it, or the cut left it open
and it has a quarter of it. -/
def isVersion (held : Option (List Char)) (b : List Char × Bool) : Bool :=
  (b.2 && held.all fun p => decide (utf16Length p ≤ 4 * utf16Length b.1)) || !isFragment (held.map (⟨·, []⟩)) b.1

/-- The text of the last version among the blocks under a name. -/
def lastVersion : Option (List Char) → List (List Char × Bool) → Option (List Char)
  | _, [] => none
  | held, b :: bs => if isVersion held b then (lastVersion (some b.1) bs).or (some b.1) else lastVersion held bs

/-- What a file holds. -/
def held (files : Files) (name : List Char) : Option (List Char) := (files.get? name).map FileEntry.content

theorem held_set (files : Files) (name name' : List Char) (f : FileEntry) :
    held (files.set name f) name' = if name' = name then some f.content else held files name' := by
  unfold held
  rw [Files.get?_set]
  split_ifs <;> rfl

theorem isFragment_map (f : Option FileEntry) (t : List Char) :
    isFragment ((f.map FileEntry.content).map (⟨·, []⟩)) t = isFragment f t := by
  cases f <;> rfl

theorem held_fileArtifact {P : Parsers} (hP : P.isFragment = isFragment) (unfinished : Option (List Char)) (last : Nat)
    (files : Files) (a : Artifact × Nat) (name : List Char) :
    held (fileArtifact P unfinished last files a) name =
      match blocksUnder unfinished last name [a] with
      | [] => held files name
      | b :: _ => if isVersion (held files name) b then some b.1 else held files name := by
  obtain ⟨art, rank⟩ := a
  cases art with
  | doc title content => rfl
  | code title lang content =>
    have hunder : blocksUnder unfinished last name [(.code title lang content, rank)] =
        if title = name then [(content, decide (rank = last ∧ some title = unfinished))] else [] := by
      unfold blocksUnder
      rw [List.filterMap_cons, List.filterMap_nil]
      dsimp only
      split_ifs <;> rfl
    have hversion : isVersion (held files title) (content, decide (rank = last ∧ some title = unfinished)) =
        ((decide (rank = last ∧ some title = unfinished) &&
          (files.get? title).all fun p => decide (utf16Length p.content ≤ 4 * utf16Length content)) ||
            !isFragment (files.get? title) content) := by
      unfold isVersion held
      dsimp only
      rw [isFragment_map]
      cases files.get? title <;> rfl
    rw [hunder]
    by_cases hname : title = name
    · subst hname
      rw [if_pos rfl]
      dsimp only
      rw [hversion]
      have hset : held (files.set title ⟨content, lang⟩) title = some content := by rw [held_set, if_pos rfl]
      unfold fileArtifact
      dsimp only
      rw [hP]
      by_cases hopen : rank = last ∧ some title = unfinished
      · by_cases hquarter : ((files.get? title).all fun p => decide (utf16Length p.content ≤ 4 * utf16Length content)) = true
        · rw [if_pos ⟨hopen.1, hopen.2, hquarter⟩, hset, hquarter, decide_eq_true hopen]
          rfl
        · rw [if_neg fun h => hquarter h.2.2, Bool.eq_false_iff.2 hquarter, Bool.and_false, Bool.false_or]
          cases isFragment (files.get? title) content
          · exact hset
          · rfl
      · rw [if_neg fun h => hopen ⟨h.1, h.2.1⟩, decide_eq_false hopen, Bool.false_and, Bool.false_or]
        cases isFragment (files.get? title) content
        · exact hset
        · rfl
    · rw [if_neg hname]
      have hother : ∀ f, held (files.set title f) name = held files name := by
        intro f
        rw [held_set, if_neg (Ne.symm hname)]
      unfold fileArtifact
      dsimp only
      split_ifs
      · exact hother _
      · rfl
      · exact hother _

/-- What a file holds after the artifacts of an answer: the last version of it, if there is one. -/
theorem held_foldl {P : Parsers} (hP : P.isFragment = isFragment) (unfinished : Option (List Char)) (last : Nat)
    (arts : List (Artifact × Nat)) (files : Files) (name : List Char) :
    held (arts.foldl (fileArtifact P unfinished last) files) name =
      (lastVersion (held files name) (blocksUnder unfinished last name arts)).or (held files name) := by
  induction arts generalizing files with
  | nil => exact Option.none_or.symm
  | cons a arts ih =>
    have hsplit : blocksUnder unfinished last name (a :: arts) =
        blocksUnder unfinished last name [a] ++ blocksUnder unfinished last name arts :=
      List.filterMap_append (l := [a])
    have hone : (blocksUnder unfinished last name [a]).length ≤ 1 := List.length_filterMap_le _ _
    have hstep := held_fileArtifact hP unfinished last files a name
    rw [List.foldl_cons, ih, hstep, hsplit]
    rcases hunder : blocksUnder unfinished last name [a] with _ | ⟨b, _ | ⟨b', bs⟩⟩
    · rfl
    · dsimp only
      rw [List.singleton_append, lastVersion]
      split_ifs
      · rw [Option.or_assoc]
        rfl
      · rfl
    · rw [hunder, List.length_cons, List.length_cons] at hone
      omega

section Kept

variable {P : Parsers} {messages : List ChatMsg} {i : Nat} {m : ChatMsg}

/-- The blocks of a message under a name, as `filesUntil` reads them. -/
def versionBlocks (P : Parsers) (before : Files) (request : List Char) (m : ChatMsg) (name : List Char) :
    List (List Char × Bool) :=
  let arts := P.parseArtifacts m.content request fun name => (before.get? name).map FileEntry.content
  blocksUnder (answerFiles P before request m).unfinished (arts.length - 1) name arts.zipIdx

theorem held_filesUntil (hP : P.isFragment = isFragment) (hm : messages[i]? = some m) (hrole : m.role = .assistant)
    (hresume : (isResume (messages.take i).getLast? && !P.protocol m.content) = false)
    (hedits : P.parseEdits m.content = []) (hfileEdits : m.fileEdits.getD [] = []) (name : List Char) :
    held (filesUntil P messages i) name =
      (lastVersion (held (filesUntil P messages ((i : Int) - 1)) name)
        (versionBlocks P (filesUntil P messages ((i : Int) - 1)) (requestAt messages i) m name)).or
          (held (filesUntil P messages ((i : Int) - 1)) name) := by
  rw [filesUntil_step hm, filesUntil_eq_walk]
  unfold filesStep
  rw [if_neg (not_not_intro hrole), hresume]
  dsimp only
  rw [answerFiles, hedits, hfileEdits]
  exact held_foldl hP _ _ _ _ name

end Kept

theorem mem_messageFragments {L : Lowercase} {P : Parsers} (hP : P.isFragment = isFragment) {messages : List ChatMsg}
    {i : Nat} {name : List Char} (h : name ∈ messageFragments L P messages i) :
    (held (filesUntil P messages ((i : Int) - 1)) name).isSome := by
  have hfind : ∀ {p : List Char × FileEntry → Bool},
      ((filesUntil P messages ((i : Int) - 1)).find? p).map Prod.fst = some name →
        (held (filesUntil P messages ((i : Int) - 1)) name).isSome := by
    intro p hp
    obtain ⟨e, he, rfl⟩ := Option.map_eq_some_iff.1 hp
    unfold held Files.get?
    rw [Option.isSome_map, List.lookup_isSome_iff]
    exact ⟨e, List.mem_of_find?_eq_some he, beq_self_eq_true e.1⟩
  have hfragment : ∀ a, fragmentOf P (filesUntil P messages ((i : Int) - 1)) a = some name →
      (held (filesUntil P messages ((i : Int) - 1)) name).isSome := by
    intro a ha
    cases a with
    | doc title content => cases ha
    | code title lang content =>
      unfold fragmentOf at ha
      dsimp only at ha
      split_ifs at ha with hshort
      · obtain rfl := Option.some.inj ha
        rw [hP] at hshort
        unfold held
        cases hget : (filesUntil P messages ((i : Int) - 1)).get? title with
        | none =>
          rw [hget] at hshort
          cases hshort
        | some f => rfl
      · exact hfind ha
  have hraw : ∀ b, rawFragmentOf L P (filesUntil P messages ((i : Int) - 1)) b = some name →
      (held (filesUntil P messages ((i : Int) - 1)) name).isSome := by
    intro b hb
    unfold rawFragmentOf at hb
    dsimp only at hb
    split_ifs at hb
    exact hfind hb
  unfold messageFragments at h
  split at h
  · cases h
  · dsimp only at h
    split_ifs at h
    · cases h
    · obtain ⟨a, -, ha⟩ := List.mem_filterMap.1 h
      exact hfragment a ha
    · cases h
    · rw [Option.mem_toList] at h
      obtain ⟨b, -, hb⟩ := List.exists_of_findSome?_eq_some h
      exact hraw b.2 hb

/-- The files of which a message holds only a snippet, as it is told, are known; and they keep
their content exactly if the last block under their name that is taken for a version brings no
other one. -/
theorem fragments_kept_iff (L : Lowercase) (fold : Char → Char) (t : List Char → List Char)
    {messages : List ChatMsg} {i : Nat} {m : ChatMsg} (hm : messages[i]? = some m) (hrole : m.role = .assistant)
    (hresume : (isResume (messages.take i).getLast? && !hasProtocol m.content) = false)
    (hedits : parseEdits m.content = []) (hfileEdits : m.fileEdits.getD [] = []) :
    let P := pageParsers L fold t
    let before := filesUntil P messages ((i : Int) - 1)
    (∀ name ∈ messageFragments L P messages i, (held before name).isSome) ∧
      ((∀ name ∈ messageFragments L P messages i, held (filesUntil P messages i) name = held before name) ↔
        ∀ name ∈ messageFragments L P messages i,
          ∀ c ∈ lastVersion (held before name) (versionBlocks P before (requestAt messages i) m name),
            held before name = some c) := by
  intro P before
  refine ⟨fun name h => mem_messageFragments rfl h, forall₂_congr fun name _ => ?_⟩
  have hheld := held_filesUntil (P := P) rfl hm hrole hresume hedits hfileEdits name
  rw [hheld]
  cases lastVersion (held before name) (versionBlocks P before (requestAt messages i) m name) with
  | none => exact ⟨fun _ c hc => (nomatch hc), fun _ => rfl⟩
  | some c =>
      rw [Option.some_or]
      constructor
      · rintro h c' hc'
        rw [← Option.some.inj hc']
        exact h.symm
      · exact fun h => (h c rfl).symm

/-- A module of 900 characters, and then an answer. -/
def moduleThread (answer : List Char) : List ChatMsg :=
  [{ role := .user, content := "Un module a.py".toList },
    { role := .assistant
      content := "\x60\x60\x60a.py\n".toList ++ (List.replicate 900 'x' ++ "\n\x60\x60\x60".toList) },
    { role := .user, content := "Corrige".toList }, { role := .assistant, content := answer }]

/-- A snippet is told, and the module stays as it is. -/
theorem fragments_kept_iff_snippet :
    let P := pageParsers Text.asciiLowercase Char.toLower id
    let thread := moduleThread "\x60\x60\x60a.py\ny = 1\n\x60\x60\x60".toList
    messageFragments Text.asciiLowercase P thread 3 = ["a.py".toList] ∧
      held (filesUntil P thread 3) "a.py".toList = held (filesUntil P thread ((3 : Nat) - 1)) "a.py".toList := by
  intro P thread
  have hrun : messageFragments Text.asciiLowercase P thread 3 = ["a.py".toList] ∧
      lastVersion (held (filesUntil P thread ((3 : Nat) - 1)) "a.py".toList)
        (versionBlocks P (filesUntil P thread ((3 : Nat) - 1)) (requestAt thread 3)
          { role := .assistant, content := "\x60\x60\x60a.py\ny = 1\n\x60\x60\x60".toList } "a.py".toList) = none := by
    decide +kernel
  have hiff := @fragments_kept_iff Text.asciiLowercase Char.toLower id thread 3
    { role := .assistant, content := "\x60\x60\x60a.py\ny = 1\n\x60\x60\x60".toList } rfl rfl (by decide) (by decide +kernel) rfl
  refine ⟨hrun.1, hiff.2.2 (fun name hname c hc => ?_) _ (by rw [hrun.1]; exact List.mem_cons_self)⟩
  have hmem : name ∈ ["a.py".toList] := hrun.1 ▸ hname
  rw [List.mem_singleton.1 hmem] at hc
  rw [show lastVersion _ _ = none from hrun.2] at hc
  cases hc

/-- A new version and a snippet in one answer: the module is told to be untouched, and is not. -/
theorem not_fragments_kept_version :
    let P := pageParsers Text.asciiLowercase Char.toLower id
    let thread := moduleThread ("\x60\x60\x60a.py\n".toList ++
      (List.replicate 900 'y' ++ "\n\x60\x60\x60\n\x60\x60\x60a.py\ny = 1\n\x60\x60\x60".toList))
    messageFragments Text.asciiLowercase P thread 3 = ["a.py".toList] ∧
      held (filesUntil P thread 2) "a.py".toList = some (List.replicate 900 'x') ∧
      held (filesUntil P thread 3) "a.py".toList = some (List.replicate 900 'y') := by
  decide +kernel

end Portal.Playground
