import DgxPlatform.Lib.Run
import DgxPlatform.Portal.FileReplace

/-! # The files of the next request

What the tools made of the files is shown in the browser, and comes back with the next
request. It is read there as it was exactly if the bounds of `parse_files` hold of it, and
of these the tools check the length of a created file only.
-/

namespace Portal.FileTools

open Accounts (pyIsSpace)
open Conversations (MAX_FILES MAX_FILE_CHARS MAX_TOTAL_CHARS)
open FileLists (Storable CutAtSpace NAME_CHARS chars toJson acceptedOf)

/-- The files as the next request brings them. -/
def reload (files : Files) : Files := parseFiles (some (toJson files.rows))

theorem reload_eq_iff {files : Files} : reload files = files ↔ Storable pyIsSpace files.rows := by
  rw [← FileLists.parse_toJson_iff pyStr_str]
  constructor
  · exact fun h => congrArg Table.rows h
  · exact fun h => Dict.ext h

/-! ## Setting one file -/

section Set

variable {files : Files} {path content old : List Char}

theorem chars_set_of_get? (h : files.get? path = some old) :
    chars (files.set path content).rows + old.length = chars files.rows + content.length := by
  obtain ⟨f, hf, rfl⟩ := Option.map_eq_some_iff.1 h
  have hsome : files.find? path ≠ none := by
    rw [hf]
    exact Option.some_ne_none f
  have hupdate : files.set path content = files.update path (fun f => (f.1, content)) fun _ => rfl := by
    rw [Dict.set, Table.upsert, dif_neg hsome]
  rw [hupdate]
  exact Table.sum_update _ (fun f => f.2.length) hf

/-- A file that is there may be set to a content within the bounds. -/
theorem storable_set_iff_of_get? (h : Storable pyIsSpace files.rows) (hget : files.get? path = some old) :
    Storable pyIsSpace (files.set path content).rows ↔
      content.length ≤ MAX_FILE_CHARS ∧ chars files.rows + content.length ≤ MAX_TOTAL_CHARS + old.length := by
  have hmem : (path, old) ∈ files.rows := Dict.mem_of_get? hget
  have hkey : path ∈ files.keys := List.mem_map.2 ⟨_, hmem, rfl⟩
  have hchars : chars (files.set path content).rows + old.length = chars files.rows + content.length :=
    chars_set_of_get? hget
  have hrows := Dict.rows_set_of_mem (v := content) hkey
  constructor
  · rintro ⟨-, -, -, hsizes, htotal, -⟩
    have hset : (path, content) ∈ (files.set path content).rows := by
      rw [hrows]
      exact List.mem_map.2 ⟨_, hmem, if_pos rfl⟩
    exact ⟨hsizes _ hset, by omega⟩
  · rintro ⟨hsize, htotal⟩
    have hold : ∀ f ∈ (files.set path content).rows, f ∈ files.rows ∨ f = (path, content) := by
      intro f hf
      rw [hrows] at hf
      obtain ⟨g, hg, rfl⟩ := List.mem_map.1 hf
      split_ifs
      · exact .inr rfl
      · exact .inl hg
    refine ⟨(files.set path content).nodup, ?_, ?_, ?_, by omega, ?_⟩
    · intro f hf
      rcases hold f hf with hf | rfl
      · exact h.named f hf
      · exact h.named (path, old) hmem
    · intro f hf
      rcases hold f hf with hf | rfl
      · exact h.trimmed f hf
      · exact h.trimmed (path, old) hmem
    · intro f hf
      rcases hold f hf with hf | rfl
      · exact h.sizes f hf
      · exact hsize
    · rw [hrows, List.length_map]
      exact h.count

/-- A new file may be set within the bounds, under a name that is trimmed. -/
theorem storable_set_iff_of_notMem (h : Storable pyIsSpace files.rows) (hnew : path ∉ files.keys) :
    Storable pyIsSpace (files.set path content).rows ↔
      (path ≠ [] ∧ path.length ≤ NAME_CHARS) ∧ Text.trimMatches pyIsSpace path = path ∧
        content.length ≤ MAX_FILE_CHARS ∧ chars files.rows + content.length ≤ MAX_TOTAL_CHARS ∧
        files.rows.length < MAX_FILES := by
  have hrows := Dict.rows_set_of_notMem (v := content) hnew
  have hchars : chars (files.set path content).rows = chars files.rows + content.length := by
    rw [hrows, FileLists.chars_append]
    rfl
  have hlength : (files.set path content).rows.length = files.rows.length + 1 := by
    rw [hrows, List.length_append, List.length_singleton]
  constructor
  · rintro ⟨-, hnamed, htrimmed, hsizes, htotal, hcount⟩
    have hset : (path, content) ∈ (files.set path content).rows := by
      rw [hrows]
      exact List.mem_append_right _ List.mem_cons_self
    exact ⟨hnamed _ hset, htrimmed _ hset, hsizes _ hset, by omega, by omega⟩
  · rintro ⟨hnamed, htrimmed, hsize, htotal, hcount⟩
    have hold : ∀ f ∈ (files.set path content).rows, f ∈ files.rows ∨ f = (path, content) := by
      intro f hf
      rw [hrows] at hf
      exact (List.mem_append.1 hf).imp_right List.mem_singleton.1
    refine ⟨(files.set path content).nodup, ?_, ?_, ?_, by omega, by omega⟩
    · intro f hf
      rcases hold f hf with hf | rfl
      · exact h.named f hf
      · exact hnamed
    · intro f hf
      rcases hold f hf with hf | rfl
      · exact h.trimmed f hf
      · exact htrimmed
    · intro f hf
      rcases hold f hf with hf | rfl
      · exact h.sizes f hf
      · exact hsize

end Set

/-! ## One call -/

/-- A call of `create_file` that writes keeps to the bounds of all files together, and a new
file to those of a name and of the number of files. -/
def CreateFits (args : Json) (files : Files) : Prop :=
  ∀ content, Creates args files content →
    chars files.rows + content.length ≤
        MAX_TOTAL_CHARS + ((files.get? (targetOf args files)).getD []).length ∧
      (resolve files (newPath args) = none →
        files.rows.length < MAX_FILES ∧ Text.trimMatches pyIsSpace (newPath args) = newPath args)

/-- A call of `str_replace` that edits keeps to the bounds of a file and of all together. -/
def ReplaceFits (args : Json) (files : Files) : Prop :=
  ∀ path content old, resolve files (cleanPath (args.get? "path")) = some path →
    files.get? path = some content → Replaces args content old →
      content.length + (newStr args).length ≤ MAX_FILE_CHARS + old.length ∧
        chars files.rows + (newStr args).length ≤ MAX_TOTAL_CHARS + old.length

/-- What a call must keep to. -/
def Fits (s : State) (call : Call) : Prop :=
  (call.1 = "create_file".toList → CreateFits call.2 s.files) ∧
    (call.1 = "str_replace".toList → ReplaceFits call.2 s.files)

section Step

variable {s : State} {args : Json} {path content old : List Char}

theorem length_replaced (h : Replaces args content old) :
    (replaced args content old).length + old.length = content.length + (newStr args).length := by
  obtain ⟨hgiven, honce⟩ := h
  have hne : old ≠ [] := of_decide_eq_true (Option.mem_filter_iff.1 hgiven).2
  obtain ⟨i, hi⟩ : ∃ i, (occurrences old content).head? = some i := by
    cases hocc : occurrences old content with
    | nil =>
      have hnone := (length_matchesOf_eq_zero_iff hne).2 fun i hi => by
        have hmem := (mem_occurrences_iff hne).2 hi
        rw [hocc] at hmem
        cases hmem
      omega
    | cons i rest => exact ⟨i, rfl⟩
  have hlen : old.length ≤ content.length - i := by
    have hocc : Occurs old content i := (mem_occurrences_iff hne).1 (List.mem_of_head? hi)
    rw [← List.length_drop]
    exact hocc.length_le
  have hpos := List.length_pos_iff.2 hne
  unfold replaced
  rw [hi, Option.getD_some, List.length_append, List.length_append, List.length_take, List.length_drop]
  omega

theorem storable_createFile_iff (h : Storable pyIsSpace s.files.rows) :
    Storable pyIsSpace (createFile args s).2.files.rows ↔ CreateFits args s.files := by
  by_cases hcreates : ∃ content, Creates args s.files content
  · obtain ⟨content, hcontent⟩ := hcreates
    have honly : ∀ content', Creates args s.files content' → content' = content := by
      intro content' h'
      exact Option.some.inj (h'.given.symm.trans hcontent.given)
    rw [(createFile_of_creates hcontent).2]
    show Storable pyIsSpace (s.files.set (targetOf args s.files) content).rows ↔ _
    have hsize := hcontent.size
    cases hresolve : resolve s.files (newPath args) with
    | some target =>
      have htarget : targetOf args s.files = target := by rw [targetOf, hresolve, Option.getD_some]
      obtain ⟨old, hold⟩ := Option.isSome_iff_exists.1 (get?_of_resolve hresolve)
      rw [htarget, storable_set_iff_of_get? h hold]
      constructor
      · rintro ⟨-, htotal⟩ content' h'
        obtain rfl := honly content' h'
        rw [htarget, hold, Option.getD_some]
        refine ⟨htotal, fun hnone => ?_⟩
        rw [hresolve] at hnone
        cases hnone
      · intro hfits
        obtain ⟨htotal, -⟩ := hfits content hcontent
        rw [htarget, hold, Option.getD_some] at htotal
        exact ⟨hsize, htotal⟩
    | none =>
      have htarget : targetOf args s.files = newPath args := by rw [targetOf, hresolve, Option.getD_none]
      have hget : s.files.get? (newPath args) = none := by
        unfold resolve at hresolve
        split_ifs at hresolve with hsome
        exact Option.not_isSome_iff_eq_none.1 hsome
      rw [htarget, storable_set_iff_of_notMem h (Dict.get?_eq_none_iff.1 hget)]
      constructor
      · rintro ⟨-, htrimmed, -, htotal, hcount⟩ content' h'
        obtain rfl := honly content' h'
        rw [htarget, hget]
        exact ⟨htotal, fun _ => ⟨hcount, htrimmed⟩⟩
      · intro hfits
        obtain ⟨htotal, hnew⟩ := hfits content hcontent
        obtain ⟨hcount, htrimmed⟩ := hnew hresolve
        rw [htarget, hget] at htotal
        exact ⟨⟨hcontent.named, List.length_take_le _ _⟩, htrimmed, hsize, htotal, hcount⟩
  · rw [(createFile_of_not_creates (not_exists.1 hcreates)).2]
    constructor
    · exact fun _ content hcontent => absurd ⟨content, hcontent⟩ hcreates
    · exact fun _ => h

theorem storable_strReplace_iff (h : Storable pyIsSpace s.files.rows)
    (hpath : resolve s.files (cleanPath (args.get? "path")) = some path)
    (hcontent : s.files.get? path = some content) :
    Storable pyIsSpace (strReplace args path content s).2.files.rows ↔ ReplaceFits args s.files := by
  by_cases hreplaces : ∃ old, Replaces args content old
  · obtain ⟨old, hold⟩ := hreplaces
    have hlen := length_replaced hold
    rw [(strReplace_of_replaces hold).2]
    show Storable pyIsSpace (s.files.set path (replaced args content old)).rows ↔ _
    rw [storable_set_iff_of_get? h hcontent]
    constructor
    · rintro ⟨hsize, htotal⟩ path' content' old' hpath' hcontent' hold'
      obtain rfl := Option.some.inj (hpath.symm.trans hpath')
      obtain rfl := Option.some.inj (hcontent.symm.trans hcontent')
      obtain rfl := Option.some.inj (hold.given.symm.trans hold'.given)
      constructor <;> omega
    · intro hfits
      obtain ⟨hsize, htotal⟩ := hfits path content old hpath hcontent hold
      constructor <;> omega
  · rw [(strReplace_of_not_replaces (not_exists.1 hreplaces)).2]
    constructor
    · intro _ path' content' old' hpath' hcontent' hold'
      obtain rfl := Option.some.inj (hpath.symm.trans hpath')
      obtain rfl := Option.some.inj (hcontent.symm.trans hcontent')
      exact absurd ⟨old', hold'⟩ hreplaces
    · exact fun _ => h

/-- Of files that come back as they are, a call makes such files again exactly if it fits. -/
theorem storable_exec_iff (h : Storable pyIsSpace s.files.rows) (call : Call) :
    Storable pyIsSpace (exec call.1 call.2 s).2.files.rows ↔ Fits s call := by
  obtain ⟨name, args⟩ := call
  by_cases hcreate : name = "create_file".toList
  · obtain rfl := hcreate
    have hne : ¬ "create_file".toList = "str_replace".toList := by decide
    rw [exec_create, storable_createFile_iff h]
    constructor
    · exact fun hfits => ⟨fun _ => hfits, fun hname => absurd hname hne⟩
    · exact fun hfits => hfits.1 rfl
  · have hfits : Fits s (name, args) ↔ (name = "str_replace".toList → ReplaceFits args s.files) :=
      ⟨And.right, fun hr => ⟨fun hname => absurd hname hcreate, hr⟩⟩
    rw [hfits]
    cases hresolve : resolve s.files (cleanPath (args.get? "path")) with
    | none =>
      rw [(exec_unresolved hcreate hresolve).2]
      constructor
      · intro _ _ path content old hpath
        rw [hresolve] at hpath
        cases hpath
      · exact fun _ => h
    | some path =>
      obtain ⟨content, hget⟩ := Option.isSome_iff_exists.1 (get?_of_resolve hresolve)
      by_cases hreplace : name = "str_replace".toList
      · obtain rfl := hreplace
        rw [exec_replace hresolve hget, storable_strReplace_iff h hresolve hget]
        exact ⟨fun hr _ => hr, fun hr => hr rfl⟩
      · have hsame : (exec name args s).2 = s := by
          rw [exec_resolved hcreate hresolve hget, if_neg hreplace]
          split_ifs <;> rfl
        rw [hsame]
        exact ⟨fun _ hname => absurd hname hreplace, fun _ => h⟩

end Step

/-! ## Any run -/

/-- The files of every state of a run come back as they are exactly if no name of the
request was cut behind white space and every call fits. -/
theorem reloads_iff (v : Option Json) (calls : List Call) :
    Run.Always step (fun s => reload s.files = s.files) (.start (parseFiles v)) calls ↔
      (∀ f ∈ acceptedOf pyIsSpace pyStr v, ¬ CutAtSpace pyIsSpace f.1) ∧
        Run.Meets step Fits (.start (parseFiles v)) calls := by
  have hstart : reload (parseFiles v) = parseFiles v ↔
      ∀ f ∈ acceptedOf pyIsSpace pyStr v, ¬ CutAtSpace pyIsSpace f.1 := by
    rw [← FileLists.parse_parse_iff pyStr_str]
    constructor
    · exact fun h => congrArg Table.rows h
    · exact fun h => Dict.ext h
  rw [← hstart]
  have hrun : reload (parseFiles v) = parseFiles v →
      (Run.Always step (fun s => reload s.files = s.files) (.start (parseFiles v)) calls ↔
        Run.Meets step Fits (.start (parseFiles v)) calls) := by
    intro h
    refine Run.always_iff_meets (fun (s : State) (hs : reload s.files = s.files) => hs) ?_ ?_ h
    · rintro s call s' hs hfits hstep
      obtain rfl := Option.some.inj hstep
      exact reload_eq_iff.2 ((storable_exec_iff (reload_eq_iff.1 hs) call).2 hfits)
    · intro s call hs hfits
      refine ⟨_, rfl, fun hnext => hfits ?_⟩
      exact (storable_exec_iff (reload_eq_iff.1 hs) call).1 (reload_eq_iff.1 hnext)
  constructor
  · intro h
    have h0 : reload (parseFiles v) = parseFiles v := h [] List.nil_prefix _ rfl
    exact ⟨h0, (hrun h0).1 h⟩
  · rintro ⟨h0, hmeets⟩
    exact (hrun h0).2 hmeets

/-- The file that a request brings, and one created under a name that ends with a blank. -/
theorem not_reload_blank :
    let files := parseFiles (some (toJson [("b".toList, "y".toList)]))
    let s := run (.start files) [("create_file".toList,
      .obj [("path", .str "\x60a \x60".toList), ("content", .str "x".toList)])]
    reload s.files ≠ s.files := by
  intro files s h
  have hrows := congrArg Table.rows h
  revert hrows
  decide +kernel

end Portal.FileTools
