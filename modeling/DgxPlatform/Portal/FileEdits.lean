import DgxPlatform.Portal.FileTools

/-! # Undoing the edits of a conversation

A call of a file tool that fails changes nothing, and one that succeeds sets at most one
file. So whatever a list of calls did, what it noted undoes it.
-/

namespace Portal.FileTools

variable {s : State} {path : List Char}

theorem exec_of_error (name : List Char) (args : Json) (h : (exec name args s).1.error.isSome) :
    (exec name args s).2 = s := by
  rcases exec_cases name args s with hsame | ⟨hnone, -⟩
  · exact hsame
  · rw [hnone] at h
    cases h

theorem after_exec (name : List Char) (args : Json) (s : State) :
    Journaled.After s (exec name args s).2 := by
  rcases exec_cases name args s with hsame | ⟨-, path, content, hput⟩
  · rw [hsame]
    exact .refl s
  · rw [hput]
    exact .put s path content

theorem after_run (s : State) (calls : List Call) : Journaled.After s (run s calls) := by
  refine Run.exec_kept (fun t call t' hafter hstep => ?_) (.refl s) (exec_step s calls)
  obtain rfl := Option.some.inj hstep
  exact hafter.trans (after_exec call.1 call.2 t)

/-- A call that fails changes nothing; names stay distinct, a path is recorded once and with
the content it had at first; what is recorded gives the files of the beginning back, also
where the calls go on with what earlier ones recorded; and no other file has changed. -/
theorem run_undoable (s : State) (calls : List Call) :
    (∀ (t : State) (call : Call), (exec call.1 call.2 t).1.error.isSome → (exec call.1 call.2 t).2 = t) ∧
      (run s calls).files.keys.Nodup ∧
      (run s calls).changes.keys.Nodup ∧
      (∃ new, (run s calls).changes.rows = s.changes.rows ++ new ∧
        ∀ change ∈ new, change.2 = s.files.get? change.1) ∧
      (run s calls).restore = s.restore ∧
      (∀ path, path ∉ (run s calls).changes.keys → (run s calls).files.get? path = s.files.get? path) ∧
      ∀ (files : Files) (earlier : List Call), s = run (.start files) earlier →
        (run s calls).restore = files ∧
          ∀ change ∈ (run s calls).changes.rows, change.2 = files.get? change.1 := by
  have hafter := after_run s calls
  refine ⟨fun t call => exec_of_error call.1 call.2, (run s calls).files.nodup,
    (run s calls).changes.nodup, hafter.noted, hafter.restored, hafter.untouched, ?_⟩
  rintro files earlier rfl
  -- the calls and the earlier ones are one list of calls
  have hall : Journaled.After (.start files) (run (run (.start files) earlier) calls) :=
    (after_run _ earlier).trans hafter
  obtain ⟨new, hnew, hfirst⟩ := hall.noted
  have hrows : (run (run (.start files) earlier) calls).changes.rows = new := hnew
  rw [hrows]
  exact ⟨hall.restored, hfirst⟩

/-- The note names the files whose content is no longer the one of the request. -/
theorem mem_changed_run_iff (files : Files) (calls : List Call) :
    path ∈ (run (.start files) calls).changed ↔
      (run (.start files) calls).files.get? path ≠ files.get? path :=
  Journaled.mem_changed_iff (after_run (.start files) calls)

end Portal.FileTools
