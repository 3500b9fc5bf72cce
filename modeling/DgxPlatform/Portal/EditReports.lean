import DgxPlatform.Portal.FileVersions
import DgxPlatform.Portal.PageParsers

/-! # Edits and what is told about them

The edit blocks of old conversations: `filesUntil` applies the edits of a message one after the
other, to the files that the message has already written; `applyEdits` tells which of them failed,
from the files in front of the message.
-/

namespace Portal.Playground

open Text (Lowercase contains splitOnce)

/-! ## What is told -/

/-- The file that an edit names holds its text. -/
def applies (files : Files) (e : FileEdit) : Bool :=
  (editKey files e.file).any fun key => (files.get? key).any fun f => contains f.content e.find

/-- How a failed edit is listed. -/
def failure (before : Files) (e : FileEdit) : Option (List Char) :=
  match editKey before e.file with
  | none => some (if e.file = [] then "?".toList else e.file)
  | some key => if (before.get? key).any fun f => contains f.content e.find then none else some key

/-- A file that an edit has touched, as it is after the message. -/
def touch (before after : Files) (touches : Files) (e : FileEdit) : Files :=
  match editKey before e.file with
  | none => touches
  | some key =>
      if (before.get? key).any fun f => contains f.content e.find then
        match after.get? key with
        | some f => touches.set key f
        | none => touches
      else touches

section Told

variable (P : Parsers)

/-- `applyEdits`: the files and the failures. -/
def applyEdits (messages : List ChatMsg) (index : Nat) : Files × List (List Char) :=
  let edits := P.parseEdits ((messages[index]?.map ChatMsg.content).getD [])
  let before := filesUntil P messages (index - 1)
  let after := filesUntil P messages index
  if edits = [] then ([], []) else (edits.foldl (touch before after) [], edits.filterMap (failure before))

/-- The files when the edits of an answer begin. -/
def afterArtifacts (files : Files) (request : List Char) (m : ChatMsg) : Files :=
  let arts := P.parseArtifacts m.content request fun name => (files.get? name).map FileEntry.content
  arts.zipIdx.foldl (fileArtifact P (answerFiles P files request m).unfinished (arts.length - 1)) files

/-- The files at the turn of an edit. -/
def turn (start : Files) (edits : List FileEdit) (k : Nat) : Files := (edits.take k).foldl (applyEdit P) start

end Told

/-! ## Literally -/

/-- An edit as it is meant: the first occurrence of its text becomes exactly the replacement. -/
def literalEdit (files : Files) (e : FileEdit) : Files :=
  match editKey files e.file with
  | none => files
  | some key =>
      match files.get? key with
      | none => files
      | some target =>
          if contains target.content e.find then
            files.set key { target with content := Ask.replaceFirst e.find e.replace target.content }
          else files

def literalTurn (start : Files) (edits : List FileEdit) (k : Nat) : Files := (edits.take k).foldl literalEdit start

/-- The replacement of an edit stands for itself where the edit is applied. -/
def StandsForItself (files : Files) (e : FileEdit) : Prop :=
  ∀ key f a b, editKey files e.file = some key → files.get? key = some f → splitOnce e.find f.content = some (a, b) →
    expand e.find a b e.replace = e.replace

theorem isSome_failure (files : Files) (e : FileEdit) : (failure files e).isSome = !applies files e := by
  unfold failure applies
  cases editKey files e.file with
  | none => rfl
  | some key =>
    rw [Option.any_some]
    dsimp only
    cases (files.get? key).any fun f => contains f.content e.find <;> rfl

theorem expand_of_not_mem {found before after t : List Char} (h : '$' ∉ t) : expand found before after t = t := by
  fun_induction expand found before after t with
  | case1 t ih => exact absurd List.mem_cons_self h
  | case2 t ih => exact absurd List.mem_cons_self h
  | case3 t ih => exact absurd List.mem_cons_self h
  | case4 t ih => exact absurd List.mem_cons_self h
  | case5 c t _ _ _ _ ih => rw [ih fun hmem => h (List.mem_cons_of_mem c hmem)]
  | case6 => rfl

theorem standsForItself_of_not_mem {files : Files} {e : FileEdit} (h : '$' ∉ e.replace) : StandsForItself files e :=
  fun _ _ _ _ _ _ _ => expand_of_not_mem h

theorem replace_eq_iff {t find replace : List Char} :
    jsReplace t find replace = Ask.replaceFirst find replace t ↔
      ∀ a b, splitOnce find t = some (a, b) → expand find a b replace = replace := by
  unfold jsReplace Ask.replaceFirst
  cases hsplit : splitOnce find t with
  | none => exact ⟨fun _ a b h => (nomatch h), fun _ => rfl⟩
  | some r =>
    obtain ⟨a, b⟩ := r
    dsimp only
    rw [List.append_left_inj, List.append_right_inj]
    constructor
    · rintro h a' b' hab
      obtain ⟨rfl, rfl⟩ := Prod.mk.inj (Option.some.inj hab)
      exact h
    · exact fun h => h a b rfl

/-- An edit is applied as it is meant exactly if its replacement stands for itself. -/
theorem applyEdit_eq_literalEdit_iff {P : Parsers} (hP : P.replace = jsReplace) (files : Files) (e : FileEdit) :
    applyEdit P files e = literalEdit files e ↔ StandsForItself files e := by
  unfold applyEdit literalEdit StandsForItself
  rw [hP]
  cases hkey : editKey files e.file with
  | none => exact ⟨fun _ key f a b h => (nomatch h), fun _ => rfl⟩
  | some key =>
    dsimp only
    cases hget : files.get? key with
    | none =>
      refine ⟨fun _ key' f a b h hf => ?_, fun _ => rfl⟩
      rw [← Option.some.inj h, hget] at hf
      cases hf
    | some f =>
      dsimp only
      have hforall : (∀ key' f' a b, some key = some key' → files.get? key' = some f' →
          splitOnce e.find f'.content = some (a, b) → expand e.find a b e.replace = e.replace) ↔
          ∀ a b, splitOnce e.find f.content = some (a, b) → expand e.find a b e.replace = e.replace := by
        constructor
        · exact fun h a b => h key f a b rfl hget
        · rintro h key' f' a b hkey' hf'
          obtain rfl := Option.some.inj hkey'
          obtain rfl := Option.some.inj (hget.symm.trans hf')
          exact h a b
      rw [hforall, ← replace_eq_iff]
      split_ifs with hcontains
      · constructor
        · intro h
          have hsame := congrArg (fun files => (Files.get? files key).map FileEntry.content) h
          rw [Files.get?_set, Files.get?_set, if_pos rfl, if_pos rfl] at hsame
          exact Option.some.inj hsame
        · intro h
          rw [h]
      · refine ⟨fun _ => ?_, fun _ => rfl⟩
        have hnone : splitOnce e.find f.content = none :=
          Text.splitOnce_eq_none.2 fun hin => hcontains (decide_eq_true hin)
        rw [jsReplace, Ask.replaceFirst, hnone]

/-! ## The walk -/

section Walk

variable {P : Parsers} {messages : List ChatMsg} {i : Nat} {m : ChatMsg}

theorem filesUntil_eq_walk (messages : List ChatMsg) (i : Nat) :
    filesUntil P messages ((i : Int) - 1) = (filesWalk P {} none (messages.take i)).files := by
  have hindex : ((i : Int) - 1 + 1).toNat = i := by omega
  rw [filesUntil, hindex]

theorem filesUntil_step (hm : messages[i]? = some m) :
    filesUntil P messages i =
      (filesStep P (filesWalk P {} none (messages.take i)) (messages.take i).getLast? m).files := by
  have hindex : ((i : Int) + 1).toNat = i + 1 := by omega
  have hlt : i < messages.length := (List.getElem?_eq_some_iff.1 hm).1
  have htake : messages.take (i + 1) = messages.take i ++ [m] := by
    rw [List.take_add_one, hm]
    rfl
  rw [filesUntil, hindex, htake, filesWalk_append, Option.or_none]
  rfl

/-- What the message before asked for. -/
def requestAt (messages : List ChatMsg) (i : Nat) : List Char :=
  ((messages.take i).getLast?.map ChatMsg.content).getD []

theorem filesUntil_of_protocol (hm : messages[i]? = some m) (hrole : m.role = .assistant)
    (hprotocol : P.protocol m.content = true) :
    filesUntil P messages i = (answerFiles P (filesUntil P messages ((i : Int) - 1)) (requestAt messages i) m).files := by
  rw [filesUntil_step hm, filesUntil_eq_walk]
  unfold filesStep
  rw [if_neg (not_not_intro hrole), hprotocol, Bool.not_true, Bool.and_false]
  rfl

end Walk

/-! ## What is told is what was done -/

section Told

variable (P : Parsers) (before start : Files) (edits : List FileEdit)

/-- Each edit is applied literally at its turn, to the file it names if that holds its text, and
is listed as failed exactly if it was not applied. -/
structure EditsTold : Prop where
  literal : ∀ k e, edits[k]? = some e → applyEdit P (turn P start edits k) e = literalEdit (turn P start edits k) e
  told : ∀ k e, edits[k]? = some e → ((failure before e).isSome ↔ applies (turn P start edits k) e = false)

/-- At its turn, each edit meets its text exactly if it did in front of the message, and then its
replacement stands for itself. -/
structure EditsPlain : Prop where
  met : ∀ k e, edits[k]? = some e → applies (literalTurn start edits k) e = applies before e
  plain : ∀ k e, edits[k]? = some e → StandsForItself (literalTurn start edits k) e

variable {P before start edits}

/-- While the edits are applied literally, the files are what they are meant to be. -/
theorem turn_eq_literalTurn {n : Nat}
    (h : ∀ k < n, ∀ e, edits[k]? = some e →
      applyEdit P (literalTurn start edits k) e = literalEdit (literalTurn start edits k) e) :
    turn P start edits n = literalTurn start edits n := by
  induction n with
  | zero => rfl
  | succ n ih =>
    have hn := ih fun k hk => h k (hk.trans (Nat.lt_succ_self n))
    unfold turn literalTurn at hn ⊢
    rw [List.take_add_one, List.foldl_append, List.foldl_append, hn]
    cases he : edits[n]? with
    | none => rfl
    | some e => exact h n (Nat.lt_succ_self n) e he

theorem editsTold_iff_plain (hP : P.replace = jsReplace) : EditsTold P before start edits ↔ EditsPlain before start edits := by
  constructor
  · rintro ⟨hliteral, htold⟩
    have hturn : ∀ n, turn P start edits n = literalTurn start edits n := by
      intro n
      induction n using Nat.strong_induction_on with
      | _ n ih =>
        refine turn_eq_literalTurn fun k hk e he => ?_
        rw [← ih k hk]
        exact hliteral k e he
    refine ⟨fun k e he => ?_, fun k e he => ?_⟩
    · have htold' := htold k e he
      rw [isSome_failure, hturn, Bool.not_eq_true'] at htold'
      rw [Bool.eq_iff_iff, ← not_iff_not, Bool.not_eq_true, Bool.not_eq_true]
      exact htold'.symm
    · rw [← applyEdit_eq_literalEdit_iff hP, ← hturn]
      exact hliteral k e he
  · rintro ⟨hmet, hplain⟩
    have hturn : ∀ n, turn P start edits n = literalTurn start edits n :=
      fun n => turn_eq_literalTurn fun k _ e he => (applyEdit_eq_literalEdit_iff hP _ e).2 (hplain k e he)
    refine ⟨fun k e he => ?_, fun k e he => ?_⟩
    · rw [hturn]
      exact (applyEdit_eq_literalEdit_iff hP _ e).2 (hplain k e he)
    · rw [isSome_failure, hturn, hmet k e he, Bool.not_eq_true']

end Told

/-- The files of a message with edits are those after the last edit, and what the edit tools
wrote; the failures are told from the files in front of the message. All of it is as it should be
exactly if each edit meets its text in both places or in none, and stands for itself. -/
theorem editsTold_iff (L : Lowercase) (fold : Char → Char) (t : List Char → List Char) {messages : List ChatMsg}
    {i : Nat} {m : ChatMsg} (hm : messages[i]? = some m) (hrole : m.role = .assistant)
    (hedits : parseEdits m.content ≠ []) :
    let P := pageParsers L fold t
    let edits := parseEdits m.content
    let before := filesUntil P messages ((i : Int) - 1)
    let start := afterArtifacts P before (requestAt messages i) m
    filesUntil P messages i = (m.fileEdits.getD []).foldl (applyFileEdit P) (turn P start edits edits.length) ∧
      (applyEdits P messages i).2 = edits.filterMap (failure before) ∧
      (EditsTold P before start edits ↔ EditsPlain before start edits) := by
  refine ⟨?_, ?_, editsTold_iff_plain rfl⟩
  · rw [filesUntil_of_protocol hm hrole (hasProtocol_of_edits hedits), turn, List.take_length]
    rfl
  · unfold applyEdits
    rw [hm]
    exact congrArg Prod.snd (if_neg hedits)

/-- An edit block. -/
def editText (body : String) : List Char := ("\x60\x60\x60edit\n" ++ body ++ "\n\x60\x60\x60").toList

/-- A script, and then edits of it. -/
def scriptThread (edits : List Char) : List ChatMsg :=
  [{ role := .user, content := "Un script a.sh".toList },
    { role := .assistant, content := "\x60\x60\x60a.sh\necho 1\n\x60\x60\x60".toList },
    { role := .user, content := "Change".toList }, { role := .assistant, content := edits }]

/-- One edit is applied, and nothing fails. -/
theorem editsTold_iff_script :
    let P := pageParsers Text.asciiLowercase Char.toLower id
    let content := editText "\x7b\"file\": \"a.sh\", \"find\": \"1\", \"replace\": \"2\"\x7d"
    let before := filesUntil P (scriptThread content) 2
    let start := afterArtifacts P before "Change".toList ⟨.assistant, content, none, none, none, none, none, none, none⟩
    EditsTold P before start (parseEdits content) ∧ (applyEdits P (scriptThread content) 3).2 = [] ∧
      filesUntil P (scriptThread content) 3 = [("a.sh".toList, ⟨"echo 2".toList, "sh".toList⟩)] := by
  intro P content before start
  have hedits : parseEdits content = [⟨"a.sh".toList, "1".toList, "2".toList⟩] := by decide +kernel
  obtain ⟨-, -, hiff⟩ := @editsTold_iff Text.asciiLowercase Char.toLower id (scriptThread content) 3
    ⟨.assistant, content, none, none, none, none, none, none, none⟩ rfl rfl (by rw [hedits]; exact List.cons_ne_nil _ _)
  have hplain : EditsPlain before start (parseEdits content) := by
    rw [hedits]
    have hone : ∀ k e, [(⟨"a.sh".toList, "1".toList, "2".toList⟩ : FileEdit)][k]? = some e →
        k = 0 ∧ e = ⟨"a.sh".toList, "1".toList, "2".toList⟩ := by
      rintro (_ | k) e he
      · exact ⟨rfl, (Option.some.inj he).symm⟩
      · cases he
    refine ⟨fun k e he => ?_, fun k e he => ?_⟩
    · obtain ⟨rfl, rfl⟩ := hone k e he
      show applies start _ = applies before _
      decide +kernel
    · obtain ⟨rfl, rfl⟩ := hone k e he
      exact standsForItself_of_not_mem (by decide)
  refine ⟨hiff.2 hplain, ?_⟩
  decide +kernel

/-- The second edit finds what the first one wrote and is listed as failed; its two dollars become
one. -/
theorem not_editsTold_dollars :
    let P := pageParsers Text.asciiLowercase Char.toLower id
    let content := editText
      ("\x7b\"edits\": [\x7b\"file\": \"a.sh\", \"find\": \"1\", \"replace\": \"2\"\x7d, " ++
        "\x7b\"file\": \"a.sh\", \"find\": \"2\", \"replace\": \"$$\"\x7d]\x7d")
    let before := filesUntil P (scriptThread content) 2
    let start := afterArtifacts P before "Change".toList ⟨.assistant, content, none, none, none, none, none, none, none⟩
    ¬ EditsTold P before start (parseEdits content) ∧ (applyEdits P (scriptThread content) 3).2 = ["a.sh".toList] ∧
      filesUntil P (scriptThread content) 3 = [("a.sh".toList, ⟨"echo $".toList, "sh".toList⟩)] ∧
      literalTurn start (parseEdits content) 2 = [("a.sh".toList, ⟨"echo $$".toList, "sh".toList⟩)] := by
  intro P content before start
  have hrun : (parseEdits content)[1]? = some ⟨"a.sh".toList, "2".toList, "$$".toList⟩ ∧
      (failure before ⟨"a.sh".toList, "2".toList, "$$".toList⟩).isSome ∧
      applies (turn P start (parseEdits content) 1) ⟨"a.sh".toList, "2".toList, "$$".toList⟩ = true := by
    decide +kernel
  refine ⟨fun h => ?_, ?_⟩
  · obtain ⟨hsecond, hfailed, happlied⟩ := hrun
    rw [(h.told 1 _ hsecond).1 hfailed] at happlied
    cases happlied
  · decide +kernel

end Portal.Playground
