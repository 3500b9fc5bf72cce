import DgxPlatform.Lib.Run
import DgxPlatform.Lib.Lock
import DgxPlatform.Runner.Supervisor

/-! # The runner's service: launches, stops and the watchdog

The operations of `App` are serialised by the lock `ops`; the state file
`last_model.json` and the failure counter live on disk. Three kinds of actors
run concurrently:

* any number of calls of `App::stop` and `App::launch`, each with its own
  program counter;
* the watchdog thread, which acts on the copy `last` it read from the file;
* the threads of every process ever spawned (`Supervisor`).

`start_process` is shared by `launch` and the watchdog. What the outside world
decides (a `build_cmd` refusal, a `spawn` error, a failed write, the memory
readings, the argument check of the watchdog) comes with the label, so a run
covers every outcome.
-/

namespace Runner

/-- What `save_last_launch` writes. -/
structure LastLaunch where
  hfModelId : String
  modelName : String
  vllmArgs : String
  engine : String
deriving DecidableEq

/-- The arguments of `start_process`. -/
structure Launch where
  hfId : String
  name : String
  extra : List String
  engine : String

/-- The record `start_process` saves: the tokens as given, joined by spaces. -/
def Launch.saved (r : Launch) : LastLaunch :=
  ⟨r.hfId, r.name, " ".intercalate r.extra, r.engine⟩

/-- Who holds `ops`. -/
inductive Actor where
  | watchdog
  | call (i : Nat)
deriving DecidableEq

/-- Where `start_process` stands. -/
inductive StartPc where
  /-- before `build_cmd` -/
  | build
  /-- before the previous process is looked up -/
  | previous
  /-- inside `kill` of generation `g` -/
  | killing (g : Nat)
  /-- before logs, model, engine and status are rewritten -/
  | clearing
  /-- status "starting" is written; the journal, the memory wait, then `spawn` -/
  | spawning
  /-- spawned, before `save_last_launch` -/
  | saving
  /-- returned `Ok` or `Err` -/
  | finished (ok : Bool)

/-- One step of `start_process` with its outcome. -/
inductive StartAct where
  | build (ok : Bool)
  | previous
  | killed (gaveUp : Bool)
  | clear
  | journal (line : String)
  | spawn (result : Except String Nat)
  | save (result : Except String Unit)

/-- The program counter of one call of `stop` or `launch`. -/
inductive CallPc where
  | idle
  | launchReady (r : Launch)
  | launching (r : Launch) (pc : StartPc)
  | stopCleared
  | stopLocked
  | stopKilling (g : Nat)
  | stopKilled
  /-- about to return "stopped" (`true`) or "already_stopped" (`false`) -/
  | stopReturning (stopped : Bool)

/-- The moves of a call. -/
inductive CallAct where
  | stop
  | stopTake
  | stopProbe
  | stopKilled (gaveUp : Bool)
  | stopWrite
  | stopReturn
  | launch (r : Launch)
  | launchTake
  | start (a : StartAct)
  | launchReturn

/-- The program counter of the watchdog, with its locals. -/
inductive WatchdogPc where
  /-- `thread::sleep` -/
  | sleeping
  /-- the status has been read: the model is stable or not -/
  | tested (stable : Bool)
  /-- before `load_last_launch` -/
  | loading
  /-- `last` is read, before the first aliveness check -/
  | loaded (last : LastLaunch)
  /-- nothing runs: the counter and the arguments -/
  | checked (last : LastLaunch)
  /-- before the memory wait -/
  | admitted (r : Launch) (fails : Int)
  /-- memory confirmed, before `ops` is taken -/
  | wanting (r : Launch) (fails : Int)
  /-- `ops` is held, before the second aliveness check -/
  | locked (r : Launch) (fails : Int)
  | starting (r : Launch) (fails : Int) (pc : StartPc)

/-- The moves of the watchdog. -/
inductive WatchdogAct where
  | tick (elapsed : Bool)
  | reset
  | load
  | check
  | validate (tokens : Except String (List String))
  | memory (ok : Bool) (line : String)
  | take
  | recheck
  | start (a : StartAct)
  | finish

/-- What the actors share: the supervisor, the two files, the lock. -/
structure World where
  sup : Sup
  stateFile : Option LastLaunch
  resumeFails : Int
  ops : Option Actor

/-- The whole service. `announced` is the watchdog's `disabled_announced`. -/
structure App extends World where
  watchdog : WatchdogPc
  announced : Bool
  calls : Nat → CallPc

/-- A service that has just started, with whatever the disk holds. -/
def App.init (stateFile : Option LastLaunch) (resumeFails : Int) : App :=
  { sup := .init, stateFile := stateFile, resumeFails := resumeFails, ops := none
    watchdog := .sleeping, announced := false, calls := fun _ => .idle }

/-- `Config::max_auto_retries`. -/
def maxAutoRetries : Int := 3

def World.log (w : World) (line : String) : World := { w with sup := w.sup.log line }

/-- The critical section of `start_process` that announces the new model. -/
def Shared.announce (sh : Shared) (name engine : String) : Shared :=
  { sh with
    logs := sh.logs.clear, model := some name, engine := some engine, status := .starting }

/-- `kill` returns once the flag is seen, or after its waits have run out. -/
def Sup.killReturns (s : Sup) (g : Nat) (gaveUp : Bool) : Bool := (s.procs g).exited || gaveUp

/-- `App::start_process`, one step. -/
def startStep (r : Launch) (pc : StartPc) (a : StartAct) (w : World) : Option (StartPc × World) :=
  match pc, a with
  -- a refused command returns before anything is touched
  | .build, .build ok => some (if ok then .previous else .finished false, w)
  | .previous, .previous =>
      match w.sup.shared.proc with
      | some g =>
          if (w.sup.procs g).alive then
            some (.killing g, w.log "[runner] Stopping previous model…")
          else some (.clearing, w)
      | none => some (.clearing, w)
  | .killing g, .killed gaveUp =>
      if w.sup.killReturns g gaveUp then some (.clearing, w) else none
  | .clearing, .clear =>
      some (.spawning,
        { w with sup := { w.sup with shared := w.sup.shared.announce r.name r.engine } })
  | .spawning, .journal line => some (.spawning, w.log line)
  | .spawning, .spawn (.ok pid) => some (.saving, { w with sup := w.sup.spawn pid })
  -- the error goes to the caller: the announced "starting" stays
  | .spawning, .spawn (.error _) => some (.finished false, w)
  | .saving, .save (.ok _) => some (.finished true, { w with stateFile := some r.saved })
  | .saving, .save (.error e) =>
      some (.finished true, w.log ("[runner] could not save state for auto-resume: " ++ e))
  | _, _ => none

/-- `Shared` after `stop` has killed the process. -/
def Shared.markStopped (sh : Shared) : Shared := { sh with status := .stopped, model := none }

def Shared.setRetries (sh : Shared) (n : Int) : Shared := { sh with autoRetries := n }

/-- `App::stop` and `App::launch`, one step of call `i`. -/
def callStep (i : Nat) (pc : CallPc) (a : CallAct) (w : World) : Option (CallPc × World) :=
  match pc, a with
  -- the state file is cleared before the lock is taken
  | .idle, .stop => some (.stopCleared, { w with stateFile := none })
  | .stopCleared, .stopTake =>
      if w.ops = none then some (.stopLocked, { w with ops := some (.call i) }) else none
  | .stopLocked, .stopProbe =>
      match w.sup.shared.proc with
      | some g =>
          if (w.sup.procs g).alive then some (.stopKilling g, w.log "[runner] Stop requested.")
          else some (.stopReturning false, w) -- nothing to stop: the status is not written
      | none => some (.stopReturning false, w)
  | .stopKilling g, .stopKilled gaveUp =>
      if w.sup.killReturns g gaveUp then some (.stopKilled, w) else none
  | .stopKilled, .stopWrite =>
      some (.stopReturning true, { w with sup := { w.sup with shared := w.sup.shared.markStopped } })
  | .stopReturning _, .stopReturn => some (.idle, { w with ops := none })
  | .idle, .launch r => some (.launchReady r, w)
  | .launchReady r, .launchTake =>
      if w.ops = none then some (.launching r .build, { w with ops := some (.call i) }) else none
  | .launching r sp, .start sa => (startStep r sp sa w).map fun x => (.launching r x.1, x.2)
  | .launching _ (.finished ok), .launchReturn =>
      some (.idle,
        { w with
          ops := none
          sup := if ok then { w.sup with shared := w.sup.shared.setRetries 0 } else w.sup })
  | _, _ => none

/-- The launch the watchdog rebuilds from its copy, with the checked tokens. -/
def LastLaunch.relaunch (last : LastLaunch) (tokens : List String) : Launch :=
  ⟨last.hfModelId, last.modelName, tokens, last.engine⟩

/-- The journal line of an automatic start. -/
def attemptLine (fails : Int) : String :=
  "[runner] model stopped unexpectedly — auto-resume (attempt " ++ toString (fails + 1) ++ "/"
    ++ toString maxAutoRetries ++ ")…"

/-- The watchdog's journal line once the retries are used up. -/
def disabledLine (fails : Int) : String :=
  "[runner] auto-resume DISABLED after " ++ toString fails
    ++ " consecutive failures — relaunch manually from Admin."

/-- `watchdog`, one step: its position, `disabled_announced`, the shared world. -/
def watchdogStep (pc : WatchdogPc) (announced : Bool) (a : WatchdogAct) (w : World) :
    Option (WatchdogPc × Bool × World) :=
  match pc, a with
  | .sleeping, .tick elapsed =>
      some (.tested (w.sup.shared.status = .running && w.sup.shared.runningSince.isSome && elapsed),
        announced, w)
  | .tested stable, .reset =>
      if stable = true ∧ w.resumeFails ≠ 0 then
        let sup := { w.sup with shared := w.sup.shared.setRetries 0 }
        some (.loading, false,
          { w with
            resumeFails := 0
            sup := sup.log "[runner] model stable — auto-resume failure counter reset" })
      else some (.loading, announced, w)
  | .loading, .load =>
      match w.stateFile with
      -- the pass goes on with this copy, whatever happens to the file
      | some last => some (.loaded last, announced, w)
      | none => some (.sleeping, announced, w)
  | .loaded last, .check =>
      if w.sup.procAlive = true ∨ w.sup.shared.status = .starting then
        some (.sleeping, announced, w)
      else some (.checked last, announced, w)
  | .checked last, .validate tokens =>
      if w.resumeFails ≥ maxAutoRetries then
        some (.sleeping, true, if announced then w else w.log (disabledLine w.resumeFails))
      else
        match tokens with
        | .ok ts => some (.admitted (last.relaunch ts) w.resumeFails, announced, w)
        | .error e =>
            some (.sleeping, announced,
              { w.log ("[runner] auto-resume impossible, invalid args: " ++ e) with
                resumeFails := maxAutoRetries })
  | .admitted r fails, .memory ok line =>
      if ok then some (.wanting r fails, announced, w.log line)
      else some (.sleeping, announced, { w.log line with resumeFails := fails + 1 })
  | .wanting r fails, .take =>
      if w.ops = none then some (.locked r fails, announced, { w with ops := some .watchdog })
      else none
  | .locked r fails, .recheck =>
      -- the second check looks at the process only, not at the file
      if w.sup.procAlive then some (.sleeping, announced, { w with ops := none })
      else
        some (.starting r fails .build, announced,
          { w with
            resumeFails := fails + 1
            sup := { w.sup with shared := w.sup.shared.setRetries (fails + 1) } })
  | .starting r fails sp, .start sa =>
      (startStep r sp sa w).map fun x => (.starting r fails x.1, announced, x.2)
  | .starting _ fails (.finished _), .finish =>
      some (.sleeping, announced, { w.log (attemptLine fails) with ops := none })
  | _, _ => none

/-- A label of the service: who moves, and how. -/
inductive Act where
  | thread (g : Nat) (a : ThreadAct)
  | call (i : Nat) (a : CallAct)
  | watchdog (a : WatchdogAct)

/-- One step of the service. -/
def step (s : App) : Act → Option App
  | .thread g a => (s.sup.threadStep g a).map fun sup => { s with sup := sup }
  | .call i a =>
      (callStep i (s.calls i) a s.toWorld).map fun x =>
        { s with toWorld := x.2, calls := Function.update s.calls i x.1 }
  | .watchdog a =>
      (watchdogStep s.watchdog s.announced a s.toWorld).map fun x =>
        { s with toWorld := x.2.2, watchdog := x.1, announced := x.2.1 }

/-- The step starts a new engine process. -/
def Act.IsSpawn (a : Act) : Prop :=
  ∃ pid, (∃ i, a = .call i (.start (.spawn (.ok pid)))) ∨
    a = .watchdog (.start (.spawn (.ok pid)))

/-! ## The moves

What one step can be, move by move, with what it finds. The step functions are made of
exactly these (`startStep_move`, `callStep_move`, `watchdogStep_move`). -/

/-- The moves of `start_process`. -/
inductive StartMove (r : Launch) (w : World) : StartPc → StartAct → StartPc → World → Prop where
  | refused : StartMove r w .build (.build false) (.finished false) w
  | built : StartMove r w .build (.build true) .previous w
  | found (g : Nat) (hproc : w.sup.shared.proc = some g) (halive : (w.sup.procs g).alive = true) :
      StartMove r w .previous .previous (.killing g) (w.log "[runner] Stopping previous model…")
  | dead (g : Nat) (hproc : w.sup.shared.proc = some g) (hdead : (w.sup.procs g).alive = false) :
      StartMove r w .previous .previous .clearing w
  | none (hproc : w.sup.shared.proc = none) : StartMove r w .previous .previous .clearing w
  | killed (g : Nat) (gaveUp : Bool) (hkill : w.sup.killReturns g gaveUp = true) :
      StartMove r w (.killing g) (.killed gaveUp) .clearing w
  | cleared : StartMove r w .clearing .clear .spawning
      { w with sup := { w.sup with shared := w.sup.shared.announce r.name r.engine } }
  | journal (line : String) : StartMove r w .spawning (.journal line) .spawning (w.log line)
  | spawned (pid : Nat) :
      StartMove r w .spawning (.spawn (.ok pid)) .saving { w with sup := w.sup.spawn pid }
  | spawnFailed (e : String) : StartMove r w .spawning (.spawn (.error e)) (.finished false) w
  | saved : StartMove r w .saving (.save (.ok ())) (.finished true)
      { w with stateFile := some r.saved }
  | saveFailed (e : String) : StartMove r w .saving (.save (.error e)) (.finished true)
      (w.log ("[runner] could not save state for auto-resume: " ++ e))

/-- The moves of a call. -/
inductive CallMove (i : Nat) (w : World) : CallPc → CallAct → CallPc → World → Prop where
  | stop : CallMove i w .idle .stop .stopCleared { w with stateFile := none }
  | stopTake (hfree : w.ops = none) :
      CallMove i w .stopCleared .stopTake .stopLocked { w with ops := some (.call i) }
  | stopFound (g : Nat) (hproc : w.sup.shared.proc = some g)
      (halive : (w.sup.procs g).alive = true) :
      CallMove i w .stopLocked .stopProbe (.stopKilling g) (w.log "[runner] Stop requested.")
  | stopDead (g : Nat) (hproc : w.sup.shared.proc = some g)
      (hdead : (w.sup.procs g).alive = false) :
      CallMove i w .stopLocked .stopProbe (.stopReturning false) w
  | stopNone (hproc : w.sup.shared.proc = none) :
      CallMove i w .stopLocked .stopProbe (.stopReturning false) w
  | stopKilled (g : Nat) (gaveUp : Bool) (hkill : w.sup.killReturns g gaveUp = true) :
      CallMove i w (.stopKilling g) (.stopKilled gaveUp) .stopKilled w
  | stopWrite : CallMove i w .stopKilled .stopWrite (.stopReturning true)
      { w with sup := { w.sup with shared := w.sup.shared.markStopped } }
  | stopReturn (stopped : Bool) :
      CallMove i w (.stopReturning stopped) .stopReturn .idle { w with ops := none }
  | launch (r : Launch) : CallMove i w .idle (.launch r) (.launchReady r) w
  | launchTake (r : Launch) (hfree : w.ops = none) :
      CallMove i w (.launchReady r) .launchTake (.launching r .build) { w with ops := some (.call i) }
  | start (r : Launch) (sp : StartPc) (sa : StartAct) (sp' : StartPc) (w' : World)
      (hstart : startStep r sp sa w = some (sp', w')) :
      CallMove i w (.launching r sp) (.start sa) (.launching r sp') w'
  | launchOk (r : Launch) : CallMove i w (.launching r (.finished true)) .launchReturn .idle
      { w with ops := none, sup := { w.sup with shared := w.sup.shared.setRetries 0 } }
  | launchFailed (r : Launch) :
      CallMove i w (.launching r (.finished false)) .launchReturn .idle { w with ops := none }

/-- The moves of the watchdog, with its `disabled_announced`. -/
inductive WatchdogMove (w : World) (b : Bool) :
    WatchdogPc → WatchdogAct → WatchdogPc → Bool → World → Prop where
  | tick (elapsed : Bool) : WatchdogMove w b .sleeping (.tick elapsed)
      (.tested (w.sup.shared.status = .running && w.sup.shared.runningSince.isSome && elapsed)) b w
  | reset (hfails : w.resumeFails ≠ 0) : WatchdogMove w b (.tested true) .reset .loading false
      { w with
        resumeFails := 0
        sup := ({ w.sup with shared := w.sup.shared.setRetries 0 } : Sup).log
          "[runner] model stable — auto-resume failure counter reset" }
  | kept (stable : Bool) (hkept : ¬ (stable = true ∧ w.resumeFails ≠ 0)) :
      WatchdogMove w b (.tested stable) .reset .loading b w
  | load (last : LastLaunch) (hfile : w.stateFile = some last) :
      WatchdogMove w b .loading .load (.loaded last) b w
  | noFile (hfile : w.stateFile = none) : WatchdogMove w b .loading .load .sleeping b w
  | busy (last : LastLaunch) (hbusy : w.sup.procAlive = true ∨ w.sup.shared.status = .starting) :
      WatchdogMove w b (.loaded last) .check .sleeping b w
  | idle (last : LastLaunch)
      (hidle : ¬ (w.sup.procAlive = true ∨ w.sup.shared.status = .starting)) :
      WatchdogMove w b (.loaded last) .check (.checked last) b w
  | disabled (last : LastLaunch) (tokens : Except String (List String))
      (hmax : w.resumeFails ≥ maxAutoRetries) :
      WatchdogMove w b (.checked last) (.validate tokens) .sleeping true
        (if b then w else w.log (disabledLine w.resumeFails))
  | admitted (last : LastLaunch) (ts : List String) (hmax : ¬ w.resumeFails ≥ maxAutoRetries) :
      WatchdogMove w b (.checked last) (.validate (.ok ts))
        (.admitted (last.relaunch ts) w.resumeFails) b w
  | invalid (last : LastLaunch) (e : String) (hmax : ¬ w.resumeFails ≥ maxAutoRetries) :
      WatchdogMove w b (.checked last) (.validate (.error e)) .sleeping b
        { w.log ("[runner] auto-resume impossible, invalid args: " ++ e) with
          resumeFails := maxAutoRetries }
  | fits (r : Launch) (fails : Int) (line : String) :
      WatchdogMove w b (.admitted r fails) (.memory true line) (.wanting r fails) b (w.log line)
  | noMemory (r : Launch) (fails : Int) (line : String) :
      WatchdogMove w b (.admitted r fails) (.memory false line) .sleeping b
        { w.log line with resumeFails := fails + 1 }
  | take (r : Launch) (fails : Int) (hfree : w.ops = none) :
      WatchdogMove w b (.wanting r fails) .take (.locked r fails) b { w with ops := some .watchdog }
  | alive (r : Launch) (fails : Int) (halive : w.sup.procAlive = true) :
      WatchdogMove w b (.locked r fails) .recheck .sleeping b { w with ops := none }
  | begin (r : Launch) (fails : Int) (hdead : w.sup.procAlive = false) :
      WatchdogMove w b (.locked r fails) .recheck (.starting r fails .build) b
        { w with
          resumeFails := fails + 1
          sup := { w.sup with shared := w.sup.shared.setRetries (fails + 1) } }
  | start (r : Launch) (fails : Int) (sp : StartPc) (sa : StartAct) (sp' : StartPc) (w' : World)
      (hstart : startStep r sp sa w = some (sp', w')) :
      WatchdogMove w b (.starting r fails sp) (.start sa) (.starting r fails sp') b w'
  | finish (r : Launch) (fails : Int) (ok : Bool) :
      WatchdogMove w b (.starting r fails (.finished ok)) .finish .sleeping b
        { w.log (attemptLine fails) with ops := none }

variable {w w' : World}

theorem startStep_move {r : Launch} {pc pc' : StartPc} {a : StartAct}
    (h : startStep r pc a w = some (pc', w')) : StartMove r w pc a pc' w' := by
  unfold startStep at h
  split at h
  · next ok =>
      cases h
      cases ok
      · exact .refused
      · exact .built
  · split at h
    · next g hproc =>
        split at h
        · next halive =>
            cases h
            exact .found g hproc halive
        · next hdead =>
            cases h
            exact .dead g hproc (by simpa using hdead)
    · next hproc =>
        cases h
        exact .none hproc
  · next g gaveUp =>
      split at h
      · next hkill =>
          cases h
          exact .killed g gaveUp hkill
      · cases h
  · cases h
    exact .cleared
  · next line =>
      cases h
      exact .journal line
  · next pid =>
      cases h
      exact .spawned pid
  · next e =>
      cases h
      exact .spawnFailed e
  · cases h
    exact .saved
  · next e =>
      cases h
      exact .saveFailed e
  · cases h

theorem callStep_move {i : Nat} {pc pc' : CallPc} {a : CallAct}
    (h : callStep i pc a w = some (pc', w')) : CallMove i w pc a pc' w' := by
  unfold callStep at h
  split at h
  · cases h
    exact .stop
  · split at h
    · next hfree =>
        cases h
        exact .stopTake hfree
    · cases h
  · split at h
    · next g hproc =>
        split at h
        · next halive =>
            cases h
            exact .stopFound g hproc halive
        · next hdead =>
            cases h
            exact .stopDead g hproc (by simpa using hdead)
    · next hproc =>
        cases h
        exact .stopNone hproc
  · next g gaveUp =>
      split at h
      · next hkill =>
          cases h
          exact .stopKilled g gaveUp hkill
      · cases h
  · cases h
    exact .stopWrite
  · next stopped =>
      cases h
      exact .stopReturn stopped
  · next r =>
      cases h
      exact .launch r
  · next r =>
      split at h
      · next hfree =>
          cases h
          exact .launchTake r hfree
      · cases h
  · next r sp sa =>
      obtain ⟨⟨sp', w₁⟩, hstart, heq⟩ := Option.map_eq_some_iff.1 h
      cases heq
      exact .start r sp sa sp' w₁ hstart
  · next r ok =>
      cases h
      cases ok
      · exact .launchFailed r
      · exact .launchOk r
  · cases h

theorem watchdogStep_move {pc pc' : WatchdogPc} {b b' : Bool} {a : WatchdogAct}
    (h : watchdogStep pc b a w = some (pc', b', w')) : WatchdogMove w b pc a pc' b' w' := by
  unfold watchdogStep at h
  split at h
  · next elapsed =>
      cases h
      exact .tick elapsed
  · next stable =>
      split at h
      · next hreset =>
          cases h
          obtain ⟨rfl, hfails⟩ := hreset
          exact .reset hfails
      · next hkept =>
          cases h
          exact .kept stable hkept
  · split at h
    · next last hfile =>
        cases h
        exact .load last hfile
    · next hfile =>
        cases h
        exact .noFile hfile
  · next last =>
      split at h
      · next hbusy =>
          cases h
          exact .busy last hbusy
      · next hidle =>
          cases h
          exact .idle last hidle
  · next last tokens =>
      split at h
      · next hmax =>
          cases h
          exact .disabled last tokens hmax
      · next hmax =>
          split at h
          · next ts =>
              cases h
              exact .admitted last ts hmax
          · next e =>
              cases h
              exact .invalid last e hmax
  · next r fails ok line =>
      cases ok
      · cases h
        exact .noMemory r fails line
      · cases h
        exact .fits r fails line
  · next r fails =>
      split at h
      · next hfree =>
          cases h
          exact .take r fails hfree
      · cases h
  · next r fails =>
      split at h
      · next halive =>
          cases h
          exact .alive r fails halive
      · next hdead =>
          cases h
          exact .begin r fails (by simpa using hdead)
  · next r fails sp sa =>
      obtain ⟨⟨sp', w₁⟩, hstart, heq⟩ := Option.map_eq_some_iff.1 h
      cases heq
      exact .start r fails sp sa sp' w₁ hstart
  · next r fails ok =>
      cases h
      exact .finish r fails ok
  · cases h

/-! ## The lock

`ops` is held by exactly the actor whose program counter is inside its critical
section. -/

/-- The positions of a call between taking and releasing `ops`. -/
def CallPc.holdsOps : CallPc → Bool
  | .launching _ _ | .stopLocked | .stopKilling _ | .stopKilled | .stopReturning _ => true
  | .idle | .launchReady _ | .stopCleared => false

/-- The positions of the watchdog between taking and releasing `ops`. -/
def WatchdogPc.holdsOps : WatchdogPc → Bool
  | .locked _ _ | .starting _ _ _ => true
  | _ => false

/-- Who is inside the critical section of `ops`. -/
def App.held (s : App) : Actor → Bool
  | .watchdog => s.watchdog.holdsOps
  | .call i => (s.calls i).holdsOps

/-- The lock names its holder. -/
def App.LockOk (s : App) : Prop := Lock.Names s.held s.ops

theorem startStep_ops {r : Launch} {pc pc' : StartPc} {a : StartAct}
    (h : startStep r pc a w = some (pc', w')) : w'.ops = w.ops := by
  cases startStep_move h <;> rfl

theorem callStep_lock {i : Nat} {pc pc' : CallPc} {a : CallAct} (h : callStep i pc a w = some (pc', w')) :
    Lock.Move (.call i) pc.holdsOps pc'.holdsOps w.ops w'.ops := by
  cases callStep_move h with
  | stopTake hfree => exact Or.inl ⟨rfl, hfree, rfl, rfl⟩
  | launchTake r hfree => exact Or.inl ⟨rfl, hfree, rfl, rfl⟩
  | stopReturn stopped => exact Or.inr (Or.inl ⟨rfl, rfl, rfl⟩)
  | launchOk r => exact Or.inr (Or.inl ⟨rfl, rfl, rfl⟩)
  | launchFailed r => exact Or.inr (Or.inl ⟨rfl, rfl, rfl⟩)
  -- a step of `start_process`, inside the section throughout
  | start r sp sa sp' _ hstart => exact Or.inr (Or.inr ⟨rfl, startStep_ops hstart⟩)
  | _ => exact Or.inr (Or.inr ⟨rfl, rfl⟩)

theorem watchdogStep_lock {pc pc' : WatchdogPc} {b b' : Bool} {a : WatchdogAct}
    (h : watchdogStep pc b a w = some (pc', b', w')) :
    Lock.Move .watchdog pc.holdsOps pc'.holdsOps w.ops w'.ops := by
  cases watchdogStep_move h with
  | take r fails hfree => exact Or.inl ⟨rfl, hfree, rfl, rfl⟩
  | alive r fails halive => exact Or.inr (Or.inl ⟨rfl, rfl, rfl⟩)
  | finish r fails ok => exact Or.inr (Or.inl ⟨rfl, rfl, rfl⟩)
  -- a step of `start_process`, inside the section throughout
  | start r fails sp sa sp' _ hstart => exact Or.inr (Or.inr ⟨rfl, startStep_ops hstart⟩)
  | disabled last tokens hmax =>
    refine Or.inr (Or.inr ⟨rfl, ?_⟩)
    cases b <;> rfl
  | _ => exact Or.inr (Or.inr ⟨rfl, rfl⟩)

theorem lockOk_init (file : Option LastLaunch) (fails : Int) : (App.init file fails).LockOk := by
  intro x
  cases x <;> simp [App.init, App.held, CallPc.holdsOps, WatchdogPc.holdsOps]

variable {s s' : App}

theorem step_thread {g : Nat} {a : ThreadAct} (h : step s (.thread g a) = some s') :
    ∃ sup, s.sup.threadStep g a = some sup ∧ s' = { s with sup := sup } := by
  rcases Option.map_eq_some_iff.1 h with ⟨sup, hsup, rfl⟩
  exact ⟨sup, hsup, rfl⟩

theorem step_call {i : Nat} {a : CallAct} (h : step s (.call i a) = some s') :
    ∃ pc w, callStep i (s.calls i) a s.toWorld = some (pc, w) ∧
      s' = { s with toWorld := w, calls := Function.update s.calls i pc } := by
  rcases Option.map_eq_some_iff.1 h with ⟨⟨pc, w⟩, hx, rfl⟩
  exact ⟨pc, w, hx, rfl⟩

theorem step_watchdog {a : WatchdogAct} (h : step s (.watchdog a) = some s') :
    ∃ pc b w, watchdogStep s.watchdog s.announced a s.toWorld = some (pc, b, w) ∧
      s' = { s with toWorld := w, watchdog := pc, announced := b } := by
  rcases Option.map_eq_some_iff.1 h with ⟨⟨pc, b, w⟩, hx, rfl⟩
  exact ⟨pc, b, w, hx, rfl⟩

theorem held_update_call (s : App) (w : World) (i : Nat) (pc : CallPc) :
    ({ s with toWorld := w, calls := Function.update s.calls i pc } : App).held =
      Function.update s.held (.call i) pc.holdsOps := by
  funext x
  cases x with
  | watchdog => simp [App.held]
  | call j =>
    by_cases hj : j = i
    · subst hj
      simp [App.held]
    · simp [App.held, Function.update_of_ne, hj]

theorem held_update_watchdog (s : App) (w : World) (pc : WatchdogPc) (b : Bool) :
    ({ s with toWorld := w, watchdog := pc, announced := b } : App).held =
      Function.update s.held .watchdog pc.holdsOps := by
  funext x
  cases x <;> simp [App.held]

/-- Every step keeps the lock in agreement with the program counters. -/
theorem lockOk_step {a : Act} (h : step s a = some s') (hs : s.LockOk) : s'.LockOk := by
  cases a with
  | thread g a =>
    -- no thread of a process takes `ops`
    rcases step_thread h with ⟨sup, -, rfl⟩
    intro x
    have hx := hs x
    cases x <;> exact hx
  | call i a =>
    rcases step_call h with ⟨pc, w, hx, rfl⟩
    rw [App.LockOk, held_update_call]
    exact hs.move (callStep_lock hx)
  | watchdog a =>
    rcases step_watchdog h with ⟨pc, b, w, hx, rfl⟩
    rw [App.LockOk, held_update_watchdog]
    exact hs.move (watchdogStep_lock hx)

/-! ## What an operation does to the supervisor -/

theorem startStep_sup {r : Launch} {pc pc' : StartPc} {a : StartAct} (h : startStep r pc a w = some (pc', w')) :
    (∃ pid, a = .spawn (.ok pid) ∧ w'.sup = w.sup.spawn pid) ∨ w.sup.OpMove w'.sup := by
  cases startStep_move h with
  | spawned pid => exact Or.inl ⟨pid, rfl, rfl⟩
  | _ =>
    right
    constructor <;> simp [World.log, Sup.log, Shared.announce]

theorem callStep_sup {i : Nat} {pc pc' : CallPc} {a : CallAct} (h : callStep i pc a w = some (pc', w')) :
    (∃ pid, a = .start (.spawn (.ok pid)) ∧ w'.sup = w.sup.spawn pid) ∨
      w.sup.OpMove w'.sup := by
  cases callStep_move h with
  | start r sp sa sp' _ hstart =>
    rcases startStep_sup hstart with ⟨pid, rfl, hsup⟩ | hsup
    · exact Or.inl ⟨pid, rfl, hsup⟩
    · exact Or.inr hsup
  | _ =>
    -- `OpMove` does not read the retries that the return of a launch resets
    right
    constructor <;> simp [World.log, Sup.log, Shared.markStopped, Shared.setRetries]

theorem watchdogStep_sup {pc pc' : WatchdogPc} {b b' : Bool} {a : WatchdogAct}
    (h : watchdogStep pc b a w = some (pc', b', w')) :
    (∃ pid, a = .start (.spawn (.ok pid)) ∧ w'.sup = w.sup.spawn pid) ∨
      w.sup.OpMove w'.sup := by
  cases watchdogStep_move h with
  | start r fails sp sa sp' _ hstart =>
    rcases startStep_sup hstart with ⟨pid, rfl, hsup⟩ | hsup
    · exact Or.inl ⟨pid, rfl, hsup⟩
    · exact Or.inr hsup
  | disabled last tokens hmax =>
    right
    cases b <;> constructor <;> simp [World.log, Sup.log]
  | _ =>
    right
    constructor <;> simp [World.log, Sup.log, Shared.setRetries]

/-- A step of the service is a move of a thread, a spawn, or another operation. -/
theorem step_sup {a : Act} (h : step s a = some s') :
    (∃ g ta, a = .thread g ta ∧ s.sup.threadStep g ta = some s'.sup) ∨
      (a.IsSpawn ∧ ∃ pid, s'.sup = s.sup.spawn pid) ∨ s.sup.OpMove s'.sup := by
  cases a with
  | thread g a =>
    rcases step_thread h with ⟨sup, hsup, rfl⟩
    exact Or.inl ⟨g, a, rfl, hsup⟩
  | call i a =>
    rcases step_call h with ⟨pc, w, hx, rfl⟩
    rcases callStep_sup hx with ⟨pid, rfl, hsup⟩ | hsup
    · exact Or.inr (Or.inl ⟨⟨pid, Or.inl ⟨i, rfl⟩⟩, pid, hsup⟩)
    · exact Or.inr (Or.inr hsup)
  | watchdog a =>
    rcases step_watchdog h with ⟨pc, b, w, hx, rfl⟩
    rcases watchdogStep_sup hx with ⟨pid, rfl, hsup⟩ | hsup
    · exact Or.inr (Or.inl ⟨⟨pid, Or.inr rfl⟩, pid, hsup⟩)
    · exact Or.inr (Or.inr hsup)

theorem flagsOk_step {a : Act} (h : step s a = some s') (hs : s.sup.FlagsOk) : s'.sup.FlagsOk := by
  rcases step_sup h with ⟨g, ta, -, hth⟩ | ⟨-, pid, hsp⟩ | hop
  · exact flagsOk_threadStep hth hs
  · rw [hsp]
    exact flagsOk_spawn pid hs
  · exact flagsOk_opMove hop hs

end Runner
