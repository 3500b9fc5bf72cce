import DgxPlatform.Lib.ChangeLog
import DgxPlatform.Lib.Journal
import DgxPlatform.Portal.Playground

/-! # The versions of a file

`fileVersions` walks a thread once and notes, after each message, every file whose content
is not the one noted last. `filesUntil` walks the thread up to one message.

* `filesStep_keeps`: a message changes files and adds files, it removes none.
-/

namespace Portal.Playground

open ChangeLog (noteChange Records)

/-! ## One walk that observes the files -/

/-- One version of a file: the message that produced it. -/
structure FileVersion where
  index : Nat
  content : List Char
  lang : List Char
deriving DecidableEq

abbrev Versions := Dict (List Char) (List FileVersion)

def Versions.of (out : Versions) (name : List Char) : List FileVersion := (out.get? name).getD []

/-- One file, in what `fileVersions` does after a message. -/
def observeFile (index : Nat) (out : Versions) (f : List Char × FileEntry) : Versions :=
  let list := out.of f.1
  if list.getLast?.map FileVersion.content = some f.2.content then out
  else out.set f.1 (list ++ [⟨index, f.2.content, f.2.lang⟩])

def observe (out : Versions) (index : Nat) (files : Files) : Versions :=
  files.foldl (observeFile index) out

section Walk

variable (P : Parsers)

/-- The walk from message `i` on: the message before is observed first, the last one behind
the loop. -/
def versionsWalk (out : Versions) (i : Nat) (st : FilesState) (previous : Option ChatMsg) :
    List ChatMsg → Versions
  | [] => if 0 < i then observe out (i - 1) st.files else out
  | m :: rest =>
      versionsWalk (if 0 < i then observe out (i - 1) st.files else out) (i + 1)
        (filesStep P st previous m) (some m) rest

/-- `fileVersions`. -/
def fileVersions (messages : List ChatMsg) : Versions := versionsWalk P .empty 0 {} none messages

end Walk

/-! ## What a message does to the files -/

theorem lookup_map_replace (files : Files) (name name' : List Char) (f : FileEntry) :
    (files.map fun e => if e.1 = name then (name, f) else e).lookup name' =
      if name' = name then (files.lookup name).map fun _ => f else files.lookup name' := by
  induction files with
  | nil => simp
  | cons e files ih =>
    rw [List.map_cons, List.lookup_cons, ih, List.lookup_cons, List.lookup_cons]
    by_cases he : e.1 = name
    · subst he
      by_cases hname : name' = e.1
      · simp [hname]
      · have hne : (name' == e.1) = false := beq_eq_false_iff_ne.2 hname
        simp [hname, hne]
    · by_cases hname : name' = name
      · subst hname
        have hne : (name' == e.1) = false := beq_eq_false_iff_ne.2 (Ne.symm he)
        simp [he, hne]
      · simp [he, hname]

theorem Files.get?_set (files : Files) (name name' : List Char) (f : FileEntry) :
    (files.set name f).get? name' = if name' = name then some f else files.get? name' := by
  unfold Files.set Files.get?
  split_ifs with hknown hname hname
  · obtain ⟨g, hg⟩ := Option.isSome_iff_exists.1 hknown
    rw [lookup_map_replace, if_pos hname, hg]
    rfl
  · rw [lookup_map_replace, if_neg hname]
  · rw [Option.not_isSome_iff_eq_none, ← hname] at hknown
    rw [List.lookup_append, hknown, List.lookup_cons, beq_iff_eq.2 hname]
    rfl
  · rw [List.lookup_append, List.lookup_cons, beq_eq_false_iff_ne.2 hname]
    exact Option.or_none

/-- The files after: the same names and perhaps more, each once. -/
structure Keeps (files files' : Files) : Prop where
  nodup : (files.map Prod.fst).Nodup → (files'.map Prod.fst).Nodup
  kept : ∀ name, (files.get? name).isSome → (files'.get? name).isSome

theorem Keeps.refl (files : Files) : Keeps files files where
  nodup := id
  kept := fun _ => id

theorem Keeps.trans {files files' files'' : Files} (h : Keeps files files') (h' : Keeps files' files'') :
    Keeps files files'' where
  nodup := h'.nodup ∘ h.nodup
  kept := fun name => h'.kept name ∘ h.kept name

theorem keeps_set (files : Files) (name : List Char) (f : FileEntry) : Keeps files (files.set name f) := by
  constructor
  · intro h
    unfold Files.set
    split_ifs with hknown
    · have hnames : (files.map fun e => if e.1 = name then (name, f) else e).map Prod.fst = files.map Prod.fst := by
        rw [List.map_map]
        refine List.map_congr_left fun e _ => ?_
        by_cases he : e.1 = name
        · simp [he]
        · simp [he]
      rwa [hnames]
    · rw [List.map_append, List.nodup_append]
      refine ⟨h, List.nodup_singleton _, ?_⟩
      rintro a ha b hb rfl
      rw [List.map_singleton, List.mem_singleton] at hb
      subst hb
      obtain ⟨e, he, hname⟩ := List.mem_map.1 ha
      rw [Option.not_isSome_iff_eq_none, Files.get?, List.lookup_eq_none_iff] at hknown
      have hne := hknown e he
      simp [hname] at hne
  · intro name' h
    rw [Files.get?_set]
    split_ifs
    · rfl
    · exact h

theorem keeps_foldl {α : Type*} {step : Files → α → Files} (h : ∀ files x, Keeps files (step files x))
    (l : List α) (files : Files) : Keeps files (l.foldl step files) := by
  induction l generalizing files with
  | nil => exact .refl files
  | cons x l ih => exact (h files x).trans (ih (step files x))

section Step

variable {P : Parsers}

theorem keeps_fileArtifact (unfinished : Option (List Char)) (last : Nat) (files : Files) (a : Artifact × Nat) :
    Keeps files (fileArtifact P unfinished last files a) := by
  unfold fileArtifact
  split
  · exact .refl files
  · split_ifs
    · exact keeps_set files _ _
    · exact .refl files
    · exact keeps_set files _ _

theorem keeps_applyEdit (files : Files) (e : FileEdit) : Keeps files (applyEdit P files e) := by
  unfold applyEdit
  split
  · exact .refl files
  · split
    · exact .refl files
    · split_ifs
      · exact keeps_set files _ _
      · exact .refl files

theorem keeps_applyFileEdit (files : Files) (f : EditedFile) : Keeps files (applyFileEdit P files f) :=
  keeps_set files _ _

theorem filesStep_keeps (st : FilesState) (previous : Option ChatMsg) (m : ChatMsg) :
    Keeps st.files (filesStep P st previous m).files := by
  unfold filesStep
  split_ifs
  · exact .refl _
  · dsimp only
    split
    · exact .refl _
    · exact keeps_set _ _ _
    · unfold answerFiles
      exact ((keeps_foldl (keeps_fileArtifact _ _) _ _).trans (keeps_foldl keeps_applyEdit _ _)).trans
        (keeps_foldl keeps_applyFileEdit _ _)

theorem filesWalk_keeps (st : FilesState) (previous : Option ChatMsg) (messages : List ChatMsg) :
    Keeps st.files (filesWalk P st previous messages).files := by
  induction messages generalizing st previous with
  | nil => exact .refl _
  | cons m rest ih => exact (filesStep_keeps st previous m).trans (ih _ _)

theorem filesWalk_append (st : FilesState) (previous : Option ChatMsg) (a b : List ChatMsg) :
    filesWalk P st previous (a ++ b) = filesWalk P (filesWalk P st previous a) (a.getLast?.or previous) b := by
  induction a generalizing st previous with
  | nil => rfl
  | cons m a ih =>
    rw [List.cons_append, filesWalk, ih, filesWalk, List.getLast?_cons]
    cases a.getLast? <;> rfl

theorem filesUntil_keeps (messages : List ChatMsg) {k l : Int} (h : k ≤ l) :
    Keeps (filesUntil P messages k) (filesUntil P messages l) := by
  obtain ⟨rest, hrest⟩ : messages.take (k + 1).toNat <+: messages.take (l + 1).toNat :=
    List.take_prefix_take_left (by omega)
  unfold filesUntil
  rw [← hrest, filesWalk_append]
  exact filesWalk_keeps _ _ rest

theorem nodup_filesUntil (messages : List ChatMsg) (k : Int) :
    ((filesUntil P messages k).map Prod.fst).Nodup :=
  (filesWalk_keeps {} none _).nodup List.nodup_nil

theorem filesUntil_prefix {pre rest : List ChatMsg} (hpre : pre ≠ []) :
    filesUntil P (pre ++ rest) ((pre.length - 1 : Nat) : Int) = (filesWalk P {} none pre).files := by
  have hlen := List.length_pos_iff.2 hpre
  have hindex : (((pre.length - 1 : Nat) : Int) + 1).toNat = pre.length := by omega
  rw [filesUntil, hindex, List.take_left]

end Step

/-! ## What is observed -/

theorem of_observeFile (index : Nat) (out : Versions) (f : List Char × FileEntry) (name : List Char) :
    (observeFile index out f).of name =
      if name = f.1 then noteChange FileVersion.content (out.of name) ⟨index, f.2.content, f.2.lang⟩
      else out.of name := by
  by_cases hname : name = f.1
  · subst hname
    rw [if_pos rfl]
    unfold observeFile noteChange
    dsimp only
    split_ifs with hsame
    · rfl
    · rw [Versions.of, Dict.get?_set, if_pos rfl]
      rfl
  · rw [if_neg hname]
    unfold observeFile
    dsimp only
    split_ifs with hsame
    · rfl
    · rw [Versions.of, Dict.get?_set, if_neg hname]
      rfl

theorem of_observe (index : Nat) (out : Versions) {files : Files} (h : (files.map Prod.fst).Nodup)
    (name : List Char) :
    (observe out index files).of name =
      match files.get? name with
      | none => out.of name
      | some f => noteChange FileVersion.content (out.of name) ⟨index, f.content, f.lang⟩ := by
  unfold observe Files.get?
  induction files generalizing out with
  | nil => rfl
  | cons f files ih =>
    rw [List.map_cons, List.nodup_cons] at h
    rw [List.foldl_cons, ih _ h.2, of_observeFile, List.lookup_cons]
    by_cases hname : name = f.1
    · subst hname
      have hnone : files.lookup f.1 = none := by
        rw [List.lookup_eq_none_iff]
        intro e he
        have hne : f.1 ≠ e.1 := fun heq => h.1 (List.mem_map.2 ⟨e, he, heq.symm⟩)
        exact bne_iff_ne.2 hne
      rw [hnone, if_pos rfl, beq_self_eq_true]
    · rw [if_neg hname, beq_eq_false_iff_ne.2 hname]

section Versions

variable {P : Parsers}

/-- The contents of a file, message by message. -/
def contentAt (P : Parsers) (messages : List ChatMsg) (name : List Char) (k : Nat) : Option (List Char) :=
  ((filesUntil P messages k).get? name).map FileEntry.content

/-- What is noted is what happened to each file before message `n`. -/
def Recorded (P : Parsers) (messages : List ChatMsg) (n : Nat) (out : Versions) : Prop :=
  ∀ name, Records FileVersion.index FileVersion.content (contentAt P messages name) n (out.of name)

/-- To observe what a part of the thread leads to is to note what happened in it. -/
theorem Recorded.note {messages pre rest : List ChatMsg} {out : Versions} (hmessages : pre ++ rest = messages)
    (hpre : pre ≠ []) (h : Recorded P messages (pre.length - 1) out) :
    Recorded P messages pre.length (observe out (pre.length - 1) (filesWalk P {} none pre).files) := by
  obtain ⟨n, hn⟩ : ∃ n, pre.length = n + 1 := ⟨pre.length - 1, by have := List.length_pos_iff.2 hpre; omega⟩
  have hfiles : (filesWalk P {} none pre).files = filesUntil P messages n := by
    rw [← hmessages, ← filesUntil_prefix hpre, hn]
    rfl
  rw [hn, Nat.add_sub_cancel] at h ⊢
  rw [hfiles]
  intro name
  rw [of_observe _ _ (nodup_filesUntil _ _)]
  cases hget : (filesUntil P messages n).get? name with
  | none =>
    refine (h name).absent ?_
    intro k hk
    rw [contentAt, Option.map_eq_none_iff, ← Option.not_isSome_iff_eq_none]
    intro hsome
    have hkept : ((filesUntil P messages n).get? name).isSome :=
      (filesUntil_keeps messages (Int.ofNat_le.2 hk)).kept name hsome
    rw [hget] at hkept
    cases hkept
  | some f =>
    refine (h name).note rfl ?_
    rw [contentAt, hget]
    rfl

theorem Recorded.observed {messages pre rest : List ChatMsg} {out : Versions} (hmessages : pre ++ rest = messages)
    (h : Recorded P messages (pre.length - 1) out) :
    Recorded P messages pre.length
      (if 0 < pre.length then observe out (pre.length - 1) (filesWalk P {} none pre).files else out) := by
  split_ifs with hpos
  · exact h.note hmessages (List.length_pos_iff.1 hpos)
  · have hnil : pre.length = 0 := Nat.eq_zero_of_not_pos hpos
    rw [hnil] at h ⊢
    exact h

theorem versionsWalk_recorded {messages : List ChatMsg} (rest : List ChatMsg) {pre : List ChatMsg} {out : Versions}
    (hmessages : pre ++ rest = messages) (h : Recorded P messages (pre.length - 1) out) :
    Recorded P messages messages.length
      (versionsWalk P out pre.length (filesWalk P {} none pre) pre.getLast? rest) := by
  induction rest generalizing pre out with
  | nil =>
    rw [List.append_nil] at hmessages
    subst hmessages
    exact h.observed (List.append_nil pre)
  | cons m rest ih =>
    rw [versionsWalk]
    have hobserved := h.observed hmessages
    have hstep : filesWalk P {} none (pre ++ [m]) = filesStep P (filesWalk P {} none pre) pre.getLast? m := by
      rw [filesWalk_append, Option.or_none]
      rfl
    have hwalk := @ih (pre ++ [m]) _ (by simpa using hmessages) (by simpa using hobserved)
    rwa [hstep, List.length_append, List.length_singleton, List.getLast?_concat] at hwalk

/-- The last version of a file up to a message is what the file is then; two versions that
follow one another differ and are of messages in order; no file disappears. -/
theorem fileVersions_agree (messages : List ChatMsg) (name : List Char) :
    (∀ k < messages.length,
      ((((fileVersions P messages).of name).filter fun v => v.index ≤ k).getLast?).map FileVersion.content =
        ((filesUntil P messages k).get? name).map FileEntry.content) ∧
    (((fileVersions P messages).of name).IsChain fun v w => v.content ≠ w.content ∧ v.index < w.index) ∧
    ∀ k l : Int, k ≤ l → ((filesUntil P messages k).get? name).isSome →
      ((filesUntil P messages l).get? name).isSome := by
  have hempty : Recorded P messages 0 .empty := fun name => .nil _
  have hrecorded : Recorded P messages messages.length (fileVersions P messages) :=
    @versionsWalk_recorded P messages messages [] .empty rfl hempty
  refine ⟨(hrecorded name).valueAt, (hrecorded name).changes, ?_⟩
  intro k l h
  exact (filesUntil_keeps messages h).kept name

end Versions

end Portal.Playground
