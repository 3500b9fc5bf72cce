import DgxPlatform.Lib.Json
import DgxPlatform.Runner.Download
import DgxPlatform.Runner.OneEngine

/-! # Deleting the files of a model

`delete_files` takes the chat service's `ops`, compares the requested id with the one
in `last_model.json`, and hands the id to a script that removes the weights. The file
is what stands for the model in service. It agrees with the engine (`FileOk`) as long
as every save succeeds and `kill` waits, but

* a stop removes it before it waits for `ops`, while the engine still runs;
* it holds the id as launched, which may be the path of a snapshot;
* the decision engine, with weights of its own, is not asked.

`Box` is the runner with both services; `served` records with which id each process
of the chat service was launched, which the code does not keep.
-/

namespace Runner

open Run

/-! ## The shapes of an id -/

/-- `[A-Za-z0-9][A-Za-z0-9._-]{0,n}`, the whole text. -/
def nameShape (n : Nat) : List Char → Bool
  | [] => false
  | c :: cs => c.isAlphanum && cs.all Download.repoChar && decide (cs.length ≤ n)

/-- `hf_shape`, the pattern of `hf_re`: `owner/name`. -/
def hfShape (id : String) : Bool :=
  match Text.splitOnce ['/'] id.toList with
  | some (owner, name) => nameShape 60 owner && nameShape 80 name
  | none => false

/-- `str::strip_prefix`. -/
def stripPrefix (start t : List Char) : Option (List Char) :=
  if start.isPrefixOf t then some (t.drop start.length) else none

/-- The folder of a `local:` id. -/
def localName (id : String) : Option (List Char) :=
  (stripPrefix "local:".toList id.toList).filter (nameShape 60)

/-- The characters of an absolute path. -/
def pathChar (c : Char) : Bool := Download.repoChar c || c == '/' || c == '@' || c == '+'

/-- `abs_re`. The separator is one of the characters, so the repeated group adds
nothing to the first one. -/
def absShape (id : String) : Bool :=
  match id.toList with
  | '/' :: cs => !cs.isEmpty && cs.all pathChar
  | _ => false

/-- `model_id_shape_ok`: what `launch` accepts. -/
def modelIdShapeOk (id : String) : Bool := hfShape id || (localName id).isSome || absShape id

/-- `(.+?)/snapshots/`: the shortest non-empty text before the separator. -/
def repoName : List Char → Option (List Char)
  | [] => none
  | c :: t =>
      if c = '\n' then none
      else if "/snapshots/".toList.isPrefixOf t then some [c]
      else (repoName t).map fun name => c :: name

/-- `([^/]+?)--(.+?)/snapshots/`: the shortest owner for which a name follows. -/
def repoOwner : List Char → Option (List Char × List Char)
  | [] => none
  | c :: t =>
      if c = '/' then none
      else
        match (stripPrefix "--".toList t).bind repoName with
        | some name => some ([c], name)
        | none => (repoOwner t).map fun m => (c :: m.1, m.2)

/-- The first match of the pattern of `repo_id_of`. -/
def repoMatch : List Char → Option (List Char × List Char)
  | [] => none
  | c :: t =>
      match (stripPrefix "models--".toList (c :: t)).bind repoOwner with
      | some m => some m
      | none => repoMatch t

/-- `repo_id_of`: the repository of an id or of the path of a cache snapshot. -/
def repoIdOf (id : String) : String :=
  match repoMatch id.toList with
  | some (owner, name) => String.ofList (owner ++ '/' :: name)
  | none => id

example : repoIdOf "/hf/hub/models--org--a/snapshots/0f3" = "org/a" := by decide

/-! ## `delete_files` -/

/-- The requested id: the field, or nothing, trimmed. -/
def requestedId (data : Json) : String :=
  String.ofList (Text.trim (((data.get? "hf_model_id").bind Json.str?).getD []))

/-- What the script is called with. -/
structure DeleteRequest where
  kind : String
  ident : String
deriving DecidableEq

/-- The checks of `delete_files` before it takes `ops`, with the code and the text of
a refusal. -/
def deleteRequest (hf : String) : Except (Nat × String) DeleteRequest :=
  let request : Except (Nat × String) DeleteRequest :=
    match localName hf with
    | some folder => .ok ⟨"local", String.ofList folder⟩
    | none =>
        if hfShape hf then .ok ⟨"hf", hf⟩
        else .error (400, "invalid hf_model_id (local:<folder> or org/name)")
  match request with
  | .ok r =>
      if Text.contains r.ident.toList "..".toList then
        .error (400, "invalid hf_model_id (.. refused)")
      else .ok r
  | .error e => .error e

/-- `delete_files` up to the script: refused, or the call of the script. -/
def deleteFiles (file : Option LastLaunch) (data : Json) :
    Except (Nat × String) DeleteRequest :=
  match deleteRequest (requestedId data) with
  | .ok r =>
      if file.map LastLaunch.hfModelId = some (requestedId data) then
        .error (409, "model being served (or waiting to resume): stop it before deleting its files")
      else .ok r
  | .error e => .error e

/-- `tail`: the last `n` characters. -/
def tail (t : String) (n : Nat) : String :=
  String.ofList (t.toList.drop (t.toList.length - n))

/-- `str::parse::<u64>`. -/
def parseU64 (t : List Char) : Option Nat :=
  let digits := if t.head? = some '+' then t.tail else t
  let value := digits.foldl (fun n c => 10 * n + (c.toNat - '0'.toNat)) 0
  if !digits.isEmpty && digits.all Char.isDigit && decide (value < 2 ^ 64) then some value else none

/-- What `delete_files` answers. -/
inductive DeleteAnswer where
  | refused (code : Nat) (error : String)
  | failed (code : Nat) (error : String) (absent : Bool)
  | deleted (bytes : Nat)

/-- The answer once the script has ended, with its trimmed output. -/
def scriptAnswer (ok : Bool) (out : String) : DeleteAnswer :=
  if ok then
    let last := ((Text.rsplitOnce '\n' out.toList).map Prod.snd).getD out.toList
    .deleted ((parseU64 (Text.trim last)).getD 0)
  else
    let absent := Text.contains out.toList "absent".toList
    .failed (if absent then 404 else 500) (if out = "" then "failed" else tail out 300) absent

/-- The journal line of a script; `gib` is the freed size as the code prints it. -/
def scriptLine (hf : String) (ok : Bool) (out gib : String) : String :=
  if ok then "[runner] Files of " ++ hf ++ " deleted (" ++ gib ++ " GiB freed)."
  else
    "[runner] Deleting the files of " ++ hf ++ ": "
      ++ (if Text.contains out.toList "absent".toList then "absent" else "FAILED")
      ++ " (" ++ tail out 200 ++ ")"

/-! ## The runner with both services -/

/-- The runner: the chat service, the decision service with its configured id, and
with which id each process of the chat service was launched. -/
structure Box where
  chat : App
  served : Nat → String
  decisions : Decisions
  decisionsId : String

/-- The runner at its start. -/
def Box.init (file : Option LastLaunch) (fails : Int) (decisionsId : String) : Box :=
  { chat := .init file fails, served := fun _ => ""
    decisions := .init (decisionsId != ""), decisionsId := decisionsId }

/-- The model whose process this step starts. -/
def spawnedId (s : App) : Act → Option String
  | .call i (.start (.spawn (.ok _))) =>
      match s.calls i with
      | .launching r _ => some r.hfId
      | _ => none
  | .watchdog (.start (.spawn (.ok _))) =>
      match s.watchdog with
      | .starting r _ _ => some r.hfId
      | _ => none
  | _ => none

/-- A label of the runner. -/
inductive BoxAct where
  | chat (a : Act)
  | decisions (a : DAct)
  /-- a request to delete, with what the script answers if it is called -/
  | delete (data : Json) (ok : Bool) (out gib : String)

/-- The ids of the processes after a step of the chat service. -/
def Box.recordSpawn (s : Box) (a : Act) : Nat → String :=
  match spawnedId s.chat a with
  | some id => Function.update s.served s.chat.sup.nextGen id
  | none => s.served

/-- One step of the runner. A request to delete has `ops` from its look at the file
to the end of the script, which nobody who needs `ops` can tell from one step. -/
def boxStep (s : Box) : BoxAct → Option Box
  | .chat a => (step s.chat a).map fun app => { s with chat := app, served := s.recordSpawn a }
  | .decisions a => (dstep s.decisions a).map fun d => { s with decisions := d }
  | .delete data ok out gib =>
      if s.chat.ops = none then
        match deleteFiles s.chat.stateFile data with
        | .ok _ =>
            let line := scriptLine (requestedId data) ok out gib
            some { s with chat := { s.chat with sup := s.chat.sup.log line } }
        | .error _ => some s
      else none

/-- The answer to a request. -/
def Box.answer (s : Box) (data : Json) (ok : Bool) (out : String) : DeleteAnswer :=
  match deleteFiles s.chat.stateFile data with
  | .ok _ => scriptAnswer ok out
  | .error (code, error) => .refused code error

/-- A model in service: the id with which a live process was launched. -/
def Box.Serves (s : Box) (h : String) : Prop :=
  (∃ g, (s.chat.sup.procs g).alive = true ∧ s.served g = h) ∨
    (∃ g, (s.decisions.sup.procs g).alive = true) ∧ s.decisionsId = h

/-- The id designates the weights of `h`. -/
def designates (id h : String) : Prop := id = h ∨ id = repoIdOf h

/-- The request is answered with a refusal, before any script. -/
def Box.Refuses (s : Box) (data : Json) : Prop :=
  ∀ ok out, ∃ code error, s.answer data ok out = .refused code error

/-- A request that designates the weights of a model in service is refused. -/
def Box.Spares (s : Box) (data : Json) : Prop :=
  ∀ h, s.Serves h → designates (requestedId data) h → s.Refuses data

theorem scriptAnswer_ne_refused (ok : Bool) (out : String) (code : Nat) (error : String) :
    scriptAnswer ok out ≠ .refused code error := by
  intro h
  unfold scriptAnswer at h
  split at h
  · cases h
  · cases h

/-- Refused are the ids of another shape, and the id in the state file. -/
theorem refuses_iff (s : Box) (data : Json) :
    s.Refuses data ↔ (∀ r, deleteRequest (requestedId data) ≠ .ok r) ∨
      s.chat.stateFile.map LastLaunch.hfModelId = some (requestedId data) := by
  unfold Box.Refuses Box.answer deleteFiles
  cases hreq : deleteRequest (requestedId data) with
  | error e => simp
  | ok r =>
    by_cases hfile : s.chat.stateFile.map LastLaunch.hfModelId = some (requestedId data)
    · simp [hfile]
    · simp [hfile, scriptAnswer_ne_refused]

/-! ## The state file and the engine -/

/-- The launch whose process runs already and whose record is about to be saved. -/
def StartPc.unsaved (r : Launch) : StartPc → Option Launch
  | .saving => some r
  | _ => none

def CallPc.unsaved : CallPc → Option Launch
  | .launching r pc => pc.unsaved r
  | _ => none

def WatchdogPc.unsaved : WatchdogPc → Option Launch
  | .starting r _ pc => pc.unsaved r
  | _ => none

def App.unsaved (s : App) : Actor → Option Launch
  | .watchdog => s.watchdog.unsaved
  | .call i => (s.calls i).unsaved

theorem held_of_unsaved {s : App} {x : Actor} {r : Launch} (h : s.unsaved x = some r) :
    s.held x = true := by
  cases x with
  | watchdog =>
    simp only [App.unsaved, App.held] at h ⊢
    cases hw : s.watchdog <;> simp_all [WatchdogPc.unsaved, WatchdogPc.holdsOps]
  | call i =>
    simp only [App.unsaved, App.held] at h ⊢
    cases hc : s.calls i <;> simp_all [CallPc.unsaved, CallPc.holdsOps]

theorem unsaved_of_ne {s : App} {x y : Actor} (hlock : s.LockOk) (hx : s.held x = true)
    (hne : y ≠ x) : s.unsaved y = none := by
  cases hy : s.unsaved y with
  | none => rfl
  | some r =>
    have hops : s.ops = some y := (hlock y).1 (held_of_unsaved hy)
    exact absurd (Option.some.inj (hops.symm.trans ((hlock x).1 hx))) hne

/-- The save of a launch fails. -/
def Act.saveFails : Act → Bool
  | .call _ (.start (.save (.error _))) => true
  | .watchdog (.start (.save (.error _))) => true
  | _ => false

/-- What one step of `start_process` does to the processes and the file. -/
theorem startStep_file {r : Launch} {pc pc' : StartPc} {a : StartAct} {w w' : World}
    (h : startStep r pc a w = some (pc', w')) :
    (∃ pid, a = .spawn (.ok pid) ∧ pc' = .saving ∧ w'.sup = w.sup.spawn pid) ∨
    (a = .save (.ok ()) ∧ pc = .saving ∧ pc' = .finished true ∧
      w'.stateFile = some r.saved ∧ w'.sup.procs = w.sup.procs) ∨
    (∃ e, a = .save (.error e)) ∨
    ((∀ pid, a ≠ .spawn (.ok pid)) ∧ pc ≠ .saving ∧ pc' ≠ .saving ∧
      w'.stateFile = w.stateFile ∧ w'.sup.procs = w.sup.procs) := by
  cases startStep_move h with
  | spawned pid => exact Or.inl ⟨pid, rfl, rfl, rfl⟩
  | saved => exact Or.inr (Or.inl ⟨rfl, rfl, rfl, rfl, rfl⟩)
  | saveFailed e => exact Or.inr (Or.inr (Or.inl ⟨e, rfl⟩))
  | _ => exact Or.inr (Or.inr (Or.inr ⟨by simp, by simp, by simp, rfl, rfl⟩))

theorem unsaved_of_ne_saving {r : Launch} {pc : StartPc} (h : pc ≠ .saving) :
    pc.unsaved r = none := by
  cases pc <;> simp_all [StartPc.unsaved]

/-- A move of a call outside `start_process` at most removes the file. -/
theorem callStep_file {i : Nat} {pc pc' : CallPc} {a : CallAct} {w w' : World}
    (h : callStep i pc a w = some (pc', w')) :
    (∃ r sp sp' sa, pc = .launching r sp ∧ a = .start sa ∧ pc' = .launching r sp' ∧
      startStep r sp sa w = some (sp', w')) ∨
    ((∀ sa, a ≠ .start sa) ∧ pc.unsaved = none ∧ pc'.unsaved = none ∧
      (w'.stateFile = w.stateFile ∨ w'.stateFile = none) ∧ w'.sup.procs = w.sup.procs) := by
  cases callStep_move h with
  | start r sp sa sp' _ hstart => exact Or.inl ⟨r, sp, sp', sa, rfl, rfl, rfl, hstart⟩
  | stop => exact Or.inr ⟨by simp, rfl, rfl, Or.inr rfl, rfl⟩
  | _ => exact Or.inr ⟨by simp, rfl, rfl, Or.inl rfl, rfl⟩

theorem watchdogStep_file {pc pc' : WatchdogPc} {b b' : Bool} {a : WatchdogAct} {w w' : World}
    (h : watchdogStep pc b a w = some (pc', b', w')) :
    (∃ r f sp sp' sa, pc = .starting r f sp ∧ a = .start sa ∧ pc' = .starting r f sp' ∧
      startStep r sp sa w = some (sp', w')) ∨
    ((∀ sa, a ≠ .start sa) ∧ pc.unsaved = none ∧ pc'.unsaved = none ∧
      w'.stateFile = w.stateFile ∧ w'.sup.procs = w.sup.procs) := by
  cases watchdogStep_move h with
  | start r fails sp sa sp' _ hstart => exact Or.inl ⟨r, fails, sp, sp', sa, rfl, rfl, rfl, hstart⟩
  | disabled last tokens hmax =>
    refine Or.inr ⟨by simp, rfl, rfl, ?_, ?_⟩
    · cases b <;> rfl
    · cases b <;> rfl
  | _ => exact Or.inr ⟨by simp, rfl, rfl, rfl, rfl⟩

theorem unsaved_update_call (s : App) (w : World) (i : Nat) (pc : CallPc) :
    ({ s with toWorld := w, calls := Function.update s.calls i pc } : App).unsaved =
      Function.update s.unsaved (.call i) pc.unsaved := by
  funext x
  cases x with
  | watchdog => simp [App.unsaved]
  | call j =>
    by_cases hj : j = i
    · subst hj
      simp [App.unsaved]
    · simp [App.unsaved, Function.update_of_ne, hj]

theorem unsaved_update_watchdog (s : App) (w : World) (pc : WatchdogPc) (b : Bool) :
    ({ s with toWorld := w, watchdog := pc, announced := b } : App).unsaved =
      Function.update s.unsaved .watchdog pc.unsaved := by
  funext x
  cases x <;> simp [App.unsaved]

/-- What a step of the chat service can do to the processes and the file: it starts a
process and has it to save, it saves one, or it does neither, and then at most removes
the file. `id` is the model whose process it starts. -/
def App.FileMove (s s' : App) (id : Option String) : Prop :=
  (∃ x r, id = some r.hfId ∧ s'.unsaved x = some r ∧
    (s'.sup.procs s.sup.nextGen).alive = true) ∨
  (∃ x r, id = none ∧ s.unsaved x = some r ∧ s'.held x = true ∧
    s'.unsaved x = none ∧ s'.stateFile = some r.saved ∧ s'.sup.procs = s.sup.procs) ∨
  (id = none ∧ s'.unsaved = s.unsaved ∧
    (s'.stateFile = s.stateFile ∨ s'.stateFile = none) ∧
    ∀ g, (s'.sup.procs g).alive = true → (s.sup.procs g).alive = true)

theorem fileMove_start {s s' : App} {x : Actor} {r : Launch} {sp sp' : StartPc} {sa : StartAct}
    {id : Option String} (hstart : startStep r sp sa s.toWorld = some (sp', s'.toWorld))
    (hat : s.unsaved x = sp.unsaved r)
    (hat' : s'.unsaved = Function.update s.unsaved x (sp'.unsaved r)) (hheld : s'.held x = true)
    (hsave : ∀ e, sa ≠ .save (.error e)) (hid : ∀ pid, sa = .spawn (.ok pid) → id = some r.hfId)
    (hid' : (∀ pid, sa ≠ .spawn (.ok pid)) → id = none) : s.FileMove s' id := by
  rcases startStep_file hstart with ⟨pid, rfl, rfl, hsup⟩ | ⟨rfl, rfl, rfl, hfile, hprocs⟩ |
    ⟨e, rfl⟩ | ⟨hnot, hsp, hsp', hfile, hprocs⟩
  · refine Or.inl ⟨x, r, hid pid rfl, ?_, ?_⟩
    · rw [hat', Function.update_self]
      rfl
    · rw [hsup]
      simp [Sup.spawn, Proc.spawned, Proc.alive]
  · refine Or.inr (Or.inl ⟨x, r, hid' (by simp), hat, hheld, ?_, hfile, hprocs⟩)
    rw [hat', Function.update_self]
    rfl
  · exact absurd rfl (hsave e)
  · refine Or.inr (Or.inr ⟨hid' hnot, ?_, Or.inl hfile, ?_⟩)
    · rw [hat', unsaved_of_ne_saving hsp', ← unsaved_of_ne_saving (r := r) hsp, ← hat]
      exact Function.update_eq_self _ _
    · intro g hg
      rwa [hprocs] at hg

theorem fileMove_quiet {s s' : App} {x : Actor} {pc pc' : Option Launch}
    (hat : s.unsaved x = pc) (hat' : s'.unsaved = Function.update s.unsaved x pc')
    (hpc : pc = none) (hpc' : pc' = none)
    (hfile : s'.stateFile = s.stateFile ∨ s'.stateFile = none)
    (hprocs : s'.sup.procs = s.sup.procs) : s.FileMove s' none := by
  refine Or.inr (Or.inr ⟨rfl, ?_, hfile, ?_⟩)
  · rw [hat', hpc', ← hpc, ← hat]
    exact Function.update_eq_self _ _
  · intro g hg
    rwa [hprocs] at hg

theorem step_file {s s' : App} {a : Act} (h : step s a = some s') (hsave : a.saveFails = false) :
    s.FileMove s' (spawnedId s a) := by
  cases a with
  | thread g ta =>
    obtain ⟨sup, hsup, rfl⟩ := step_thread h
    obtain ⟨p, hp, rfl⟩ := Option.map_eq_some_iff.1 hsup
    refine Or.inr (Or.inr ⟨rfl, rfl, Or.inl rfl, ?_⟩)
    intro g' hg'
    by_cases hgg : g' = g
    · subst hgg
      exact move_alive hp (by simpa using hg')
    · simpa [Function.update_of_ne hgg] using hg'
  | call i ca =>
    obtain ⟨pc, w, hx, rfl⟩ := step_call h
    rcases callStep_file hx with ⟨r, sp, sp', sa, hpc, rfl, rfl, hstart⟩ |
      ⟨hne, hpc, hpc', hfile, hprocs⟩
    · refine fileMove_start hstart (x := .call i) ?_ (unsaved_update_call _ _ _ _) ?_ ?_ ?_ ?_
      · simp [App.unsaved, hpc, CallPc.unsaved]
      · simp [App.held, CallPc.holdsOps]
      · rintro e rfl
        cases hsave
      · rintro pid rfl
        simp [spawnedId, hpc]
      · intro hnot
        unfold spawnedId
        split <;> simp_all
    · have hid : spawnedId s (.call i ca) = none := by
        unfold spawnedId
        split <;> simp_all
      rw [hid]
      exact fileMove_quiet rfl (unsaved_update_call _ _ _ _) hpc hpc' hfile hprocs
  | watchdog wa =>
    obtain ⟨pc, b, w, hx, rfl⟩ := step_watchdog h
    rcases watchdogStep_file hx with ⟨r, f, sp, sp', sa, hpc, rfl, rfl, hstart⟩ |
      ⟨hne, hpc, hpc', hfile, hprocs⟩
    · refine fileMove_start hstart (x := .watchdog) ?_ (unsaved_update_watchdog _ _ _ _) ?_ ?_ ?_ ?_
      · simp [App.unsaved, hpc, WatchdogPc.unsaved]
      · simp [App.held, WatchdogPc.holdsOps]
      · rintro e rfl
        cases hsave
      · rintro pid rfl
        simp [spawnedId, hpc]
      · intro hnot
        unfold spawnedId
        split <;> simp_all
    · have hid : spawnedId s (.watchdog wa) = none := by
        unfold spawnedId
        split <;> simp_all
      rw [hid]
      exact fileMove_quiet rfl (unsaved_update_watchdog _ _ _ _) hpc hpc' (Or.inl hfile) hprocs

/-! ## Runs of the runner -/

/-- The ids agree: of a live process, the launch about to be saved and, when there is
none, the state file name the model it was launched with. -/
structure Box.FileOk (s : Box) : Prop where
  engine : s.chat.EngineOk
  unsaved : ∀ g, (s.chat.sup.procs g).alive = true →
    ∀ x r, s.chat.unsaved x = some r → s.served g = r.hfId
  file : ∀ g, (s.chat.sup.procs g).alive = true → (∀ x, s.chat.unsaved x = none) →
    ∀ l, s.chat.stateFile = some l → l.hfModelId = s.served g

theorem fileOk_init (file : Option LastLaunch) (fails : Int) (id : String) :
    (Box.init file fails id).FileOk where
  engine := engineOk_init file fails
  unsaved := by
    intro g hg
    cases sole_init g hg
  file := by
    intro g hg
    cases sole_init g hg

/-- The state file can be trusted: `kill` waits for the exit, and the launch is saved. -/
def keepsFile (s : Box) : BoxAct → Prop
  | .chat a => killWaits s.chat a ∧ a.saveFails = false
  | _ => True

instance (s : Box) (a : BoxAct) : Decidable (keepsFile s a) := by
  unfold keepsFile
  split <;> infer_instance

theorem fileOk_chat {s : Box} {app : App} {a : Act} (h : s.FileOk)
    (hkeep : keepsFile s (.chat a)) (hs : step s.chat a = some app) :
    ({ s with chat := app, served := s.recordSpawn a } : Box).FileOk := by
  obtain ⟨hkill, hsave⟩ := hkeep
  have hengine : app.EngineOk := engineOk_step h.engine hkill hs
  rcases step_file hs hsave with ⟨x, r, hid, hx, hnew⟩ |
    ⟨x, r, hid, hx, hheld, hx', hfile, hprocs⟩ | ⟨hid, hun, hfile, halive⟩
  · -- a process is started: it is the only one alive
    have hserved : s.recordSpawn a = Function.update s.served s.chat.sup.nextGen r.hfId := by
      simp only [Box.recordSpawn, hid]
    have honly : ∀ g, (app.sup.procs g).alive = true → g = s.chat.sup.nextGen := by
      intro g hg
      exact Option.some.inj ((hengine.sole g hg).symm.trans (hengine.sole _ hnew))
    refine ⟨hengine, ?_, ?_⟩
    · intro g hg y r' hy
      by_cases hyx : y = x
      · subst hyx
        obtain rfl : r = r' := Option.some.inj (hx.symm.trans hy)
        rw [honly g hg]
        simp only [hserved, Function.update_self]
      · have hnone := unsaved_of_ne hengine.lock (held_of_unsaved hx) hyx
        rw [hnone] at hy
        cases hy
    · intro g hg hnone
      have hxn := hnone x
      rw [hx] at hxn
      cases hxn
  · -- the launch is saved: the file names the live process
    have hserved : s.recordSpawn a = s.served := by simp only [Box.recordSpawn, hid]
    have hnone : ∀ y, app.unsaved y = none := by
      intro y
      by_cases hyx : y = x
      · rw [hyx]
        exact hx'
      · exact unsaved_of_ne hengine.lock hheld hyx
    refine ⟨hengine, ?_, ?_⟩
    · intro g hg y r' hy
      rw [hnone y] at hy
      cases hy
    · intro g hg _ l hl
      rw [hprocs] at hg
      obtain rfl : r.saved = l := Option.some.inj (hfile.symm.trans hl)
      simp only [hserved]
      exact (h.unsaved g hg x r hx).symm
  · have hserved : s.recordSpawn a = s.served := by simp only [Box.recordSpawn, hid]
    refine ⟨hengine, ?_, ?_⟩
    · intro g hg y r hy
      rw [hun] at hy
      simp only [hserved]
      exact h.unsaved g (halive g hg) y r hy
    · intro g hg hnone l hl
      rw [hun] at hnone
      rcases hfile with hfile | hfile
      · simp only [hserved]
        exact h.file g (halive g hg) hnone l (hfile.symm.trans hl)
      · rw [hfile] at hl
        cases hl

theorem fileOk_step {s s' : Box} {a : BoxAct} (h : s.FileOk) (hkeep : keepsFile s a)
    (hs : boxStep s a = some s') : s'.FileOk := by
  cases a with
  | chat a =>
    obtain ⟨app, happ, rfl⟩ := Option.map_eq_some_iff.1 hs
    exact fileOk_chat h hkeep happ
  | decisions a =>
    obtain ⟨d, -, rfl⟩ := Option.map_eq_some_iff.1 hs
    exact ⟨h.engine, h.unsaved, h.file⟩
  | delete data ok out gib =>
    simp only [boxStep] at hs
    split at hs
    · split at hs
      · -- the journal is all that a deletion changes here
        cases hs
        exact ⟨⟨h.engine.lock, h.engine.sole⟩, h.unsaved, h.file⟩
      · cases hs
        exact h
    · cases hs

/-- The requests that are safe although they name weights the script would remove: a
designated chat engine was launched under the very id requested and the state file is
there, and a designated decision engine is not alive, the id in the file apart. -/
def Box.SafeRequest (s : Box) (data : Json) : Prop :=
  ∀ r, deleteRequest (requestedId data) = .ok r →
    (∀ g, (s.chat.sup.procs g).alive = true → designates (requestedId data) (s.served g) →
      s.served g = requestedId data ∧ s.chat.stateFile ≠ none) ∧
    ((∃ g, (s.decisions.sup.procs g).alive = true) →
      designates (requestedId data) s.decisionsId →
        s.chat.stateFile.map LastLaunch.hfModelId = some (requestedId data))

/-- When `ops` is free, the state file names the live process or is not there. -/
theorem Box.FileOk.file_of_free {s : Box} (h : s.FileOk) (hfree : s.chat.ops = none) {g : Nat}
    (hg : (s.chat.sup.procs g).alive = true) {l : LastLaunch} (hl : s.chat.stateFile = some l) :
    l.hfModelId = s.served g := by
  refine h.file g hg ?_ l hl
  intro x
  cases hx : s.chat.unsaved x with
  | none => rfl
  | some r =>
    have hheld := h.engine.lock.free hfree x
    rw [held_of_unsaved hx] at hheld
    cases hheld

theorem Box.FileOk.spares_iff {s : Box} (h : s.FileOk) (hfree : s.chat.ops = none) (data : Json) :
    s.Spares data ↔ s.SafeRequest data := by
  constructor
  · intro hsp r hr
    have hfile : ∀ id, s.Serves id → designates (requestedId data) id →
        s.chat.stateFile.map LastLaunch.hfModelId = some (requestedId data) := by
      intro id hid hdes
      rcases (refuses_iff s data).1 (hsp id hid hdes) with hshape | hsame
      · exact absurd hr (hshape r)
      · exact hsame
    constructor
    · intro g hg hdes
      obtain ⟨l, hl, hid⟩ := Option.map_eq_some_iff.1 (hfile _ (Or.inl ⟨g, hg, rfl⟩) hdes)
      refine ⟨?_, by simp [hl]⟩
      rw [← h.file_of_free hfree hg hl]
      exact hid
    · intro hlive hdes
      exact hfile _ (Or.inr ⟨hlive, rfl⟩) hdes
  · intro hsafe id hid hdes
    rw [refuses_iff]
    cases hr : deleteRequest (requestedId data) with
    | error e => exact Or.inl (by simp)
    | ok r =>
      right
      obtain ⟨hchat, hdecisions⟩ := hsafe r hr
      rcases hid with ⟨g, hg, rfl⟩ | ⟨hlive, rfl⟩
      · obtain ⟨hsame, hthere⟩ := hchat g hg hdes
        obtain ⟨l, hl⟩ := Option.ne_none_iff_exists'.1 hthere
        rw [hl, Option.map_some, h.file_of_free hfree hg hl, hsame]
      · exact hdecisions hlive hdes

theorem fileOk_run {file : Option LastLaunch} {fails : Int} {decisionsId : String}
    {acts : List BoxAct} (hkeep : Meets boxStep keepsFile (Box.init file fails decisionsId) acts)
    {s : Box} (hrun : exec boxStep (Box.init file fails decisionsId) acts = some s) :
    s.FileOk := by
  refine exec_inv ?_ (fileOk_init file fails decisionsId) hkeep hrun
  intro m a m' hm hG hstep
  exact fileOk_step hm hG hstep

/-- In every run in which `kill` waits and the launches are saved, exactly the safe
requests spare the models in service. -/
theorem spares_iff_safeRequest (file : Option LastLaunch) (fails : Int) (decisionsId : String)
    (acts : List BoxAct) (hkeep : Meets boxStep keepsFile (Box.init file fails decisionsId) acts)
    {s : Box} (hrun : exec boxStep (Box.init file fails decisionsId) acts = some s)
    (hfree : s.chat.ops = none) (data : Json) : s.Spares data ↔ s.SafeRequest data :=
  (fileOk_run hkeep hrun).spares_iff hfree data

/-! ## Requests of the models in service -/

/-- The body of a request. -/
def deleteBody (id : String) : Json := .obj [("hf_model_id", .str id.toList)]

/-- A model launched under its id. -/
def servedRun : List BoxAct := (replacingLaunch 0 10 ⟨"org/a", "a", [], "vllm"⟩ []).map .chat

/-- Its own id is refused. -/
theorem servedRun_spares :
    ∃ s, Meets boxStep keepsFile (Box.init none 0 "") servedRun ∧
      exec boxStep (Box.init none 0 "") servedRun = some s ∧ s.chat.ops = none ∧
      s.Serves "org/a" ∧ s.Spares (deleteBody "org/a") := by
  have hkeep : Meets boxStep keepsFile (Box.init none 0 "") servedRun := by decide +kernel
  have hview : (exec boxStep (Box.init none 0 "") servedRun).map (fun s =>
      (s.chat.ops, s.chat.stateFile, (s.chat.sup.procs 1).alive, s.served 1)) =
        some (none, some ⟨"org/a", "a", "", "vllm"⟩, true, "org/a") := by decide +kernel
  have hdec : (exec boxStep (Box.init none 0 "") servedRun).map Box.decisions =
      some (Decisions.init false) := rfl
  obtain ⟨s, hs, hv⟩ := Option.map_eq_some_iff.1 hview
  simp only [Prod.mk.injEq] at hv
  obtain ⟨hfree, hfile, hlive, hid⟩ := hv
  rw [hs, Option.map_some, Option.some_inj] at hdec
  have hsame : requestedId (deleteBody "org/a") = "org/a" := by decide +kernel
  refine ⟨s, hkeep, hs, hfree, Or.inl ⟨1, hlive, hid⟩, ?_⟩
  rw [spares_iff_safeRequest none 0 "" servedRun hkeep hs hfree]
  intro r _
  constructor
  · intro g hg _
    rw [hsame, ← (fileOk_run hkeep hs).file_of_free hfree hg hfile, hfile]
    exact ⟨rfl, by simp⟩
  · rintro ⟨g, hg⟩
    rw [hdec] at hg
    cases sole_init g hg

/-- The path of a snapshot in the cache, as `launch` accepts it. -/
def snapshotPath : String := "/hf/hub/models--org--a/snapshots/0f3"

/-- A model launched under the path of its snapshot. -/
def snapshotRun : List BoxAct := (replacingLaunch 0 10 ⟨snapshotPath, "a", [], "vllm"⟩ []).map .chat

/-- A model launched under its id, and a stop that waits for `ops`. -/
def stopWaitingRun : List BoxAct := servedRun ++ [.chat (.call 1 .stop)]

/-- The decision engine started. -/
def decisionsRun : List BoxAct :=
  [.start, .startTake, .startTest, .startAdmit none, .startClear "d", .spawn (.ok 12),
    .startReturn].map fun a => .decisions (.call 0 a)

/-- What a request meets: `ops`, the two engines with their ids, the decision. -/
structure Box.View where
  free : Bool
  chat : Option String
  decisions : Option String
  request : Option DeleteRequest
deriving DecidableEq

def Box.view (s : Box) (data : Json) : Box.View where
  free := s.chat.ops.isNone
  chat := if (s.chat.sup.procs 1).alive then some (s.served 1) else none
  decisions := if (s.decisions.sup.procs 1).alive then some s.decisionsId else none
  request := (deleteFiles s.chat.stateFile data).toOption

/-- A request that meets a live engine it designates, and reaches the script. -/
theorem not_spares_of_view {s : Box} {data : Json} {v : Box.View} {h : String} {r : DeleteRequest}
    (hv : s.view data = v) (hserves : v.chat = some h ∨ v.decisions = some h)
    (hdes : designates (requestedId data) h) (hr : v.request = some r) : ¬ s.Spares data := by
  subst hv
  have hin : s.Serves h := by
    rcases hserves with hs | hs
    · simp only [Box.view, Option.ite_none_right_eq_some, Option.some.injEq] at hs
      exact Or.inl ⟨1, hs⟩
    · simp only [Box.view, Option.ite_none_right_eq_some, Option.some.injEq] at hs
      exact Or.inr ⟨⟨1, hs.1⟩, hs.2⟩
  intro hsp
  obtain ⟨code, error, hans⟩ := hsp h hin hdes true ""
  simp only [Box.view] at hr
  cases hd : deleteFiles s.chat.stateFile data with
  | error e =>
    rw [hd] at hr
    cases hr
  | ok r' =>
    simp only [Box.answer, hd] at hans
    exact scriptAnswer_ne_refused _ _ _ _ hans

/-- Three requests whose weights are in service and are removed: the repository of a
snapshot path, the model of a stop that waits, the model of the decision engine. -/
theorem in_service_not_spared :
    modelIdShapeOk snapshotPath = true ∧
    (∃ s, exec boxStep (Box.init none 0 "") snapshotRun = some s ∧ s.chat.ops = none ∧
      ¬ s.Spares (deleteBody "org/a")) ∧
    (∃ s, exec boxStep (Box.init none 0 "") stopWaitingRun = some s ∧ s.chat.ops = none ∧
      ¬ s.Spares (deleteBody "org/a")) ∧
    (∃ s, exec boxStep (Box.init none 0 "org/clef") decisionsRun = some s ∧ s.chat.ops = none ∧
      ¬ s.Spares (deleteBody "org/clef")) := by
  have h1 : (exec boxStep (Box.init none 0 "") snapshotRun).map (·.view (deleteBody "org/a")) =
      some ⟨true, some snapshotPath, none, some ⟨"hf", "org/a"⟩⟩ := by decide +kernel
  have h2 : (exec boxStep (Box.init none 0 "") stopWaitingRun).map
      (·.view (deleteBody "org/a")) =
        some ⟨true, some "org/a", none, some ⟨"hf", "org/a"⟩⟩ := by decide +kernel
  have h3 : (exec boxStep (Box.init none 0 "org/clef") decisionsRun).map
      (·.view (deleteBody "org/clef")) =
        some ⟨true, none, some "org/clef", some ⟨"hf", "org/clef"⟩⟩ := by decide +kernel
  have hfree : ∀ (s : Box) data v, s.view data = v → v.free = true → s.chat.ops = none := by
    rintro s data v rfl hv
    exact Option.isNone_iff_eq_none.1 hv
  refine ⟨by decide +kernel, ?_, ?_, ?_⟩
  · obtain ⟨s, hs, hview⟩ := Option.map_eq_some_iff.1 h1
    exact ⟨s, hs, hfree _ _ _ hview rfl,
      not_spares_of_view hview (Or.inl rfl) (Or.inr (by decide +kernel)) rfl⟩
  · obtain ⟨s, hs, hview⟩ := Option.map_eq_some_iff.1 h2
    exact ⟨s, hs, hfree _ _ _ hview rfl,
      not_spares_of_view hview (Or.inl rfl) (Or.inl (by decide +kernel)) rfl⟩
  · obtain ⟨s, hs, hview⟩ := Option.map_eq_some_iff.1 h3
    exact ⟨s, hs, hfree _ _ _ hview rfl,
      not_spares_of_view hview (Or.inr rfl) (Or.inl (by decide +kernel)) rfl⟩

end Runner
