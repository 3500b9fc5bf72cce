import DgxPlatform.Lib.Run
import DgxPlatform.Lib.Lock
import DgxPlatform.Runner.Supervisor

/-! # The decision service: a second supervisor

`Decisions` starts and stops one process of its own, on its own supervisor and
under its own `ops`. It has no state file and no watchdog. Unlike `App::stop`,
its `stop` writes "stopped" and takes the process out of the shared state in one
critical section, before it kills.
-/

namespace Runner

/-- What `Decisions::start` answers. -/
inductive StartAnswer where
  /-- `{"ok": true, "status": …, "already": true}` -/
  | already (status : Status)
  /-- `{"ok": true, "status": "starting", …}` -/
  | started
  /-- an error with its HTTP code: 400, 409 or 500 -/
  | refused (code : Nat)

/-- Where a call of `start` or `stop` stands. -/
inductive DecisionsPc where
  | idle
  | startWanting
  /-- `ops` is held, before the aliveness test -/
  | startLocked
  /-- nothing runs: the memory floor, the binary, the weights -/
  | startAdmitted
  /-- before logs, model, engine and status are rewritten -/
  | startClearing
  /-- status "starting" is written, before `spawn` -/
  | startSpawning
  | startReturning (answer : StartAnswer)
  | stopWanting
  | stopLocked
  /-- status "stopped" is written and the process taken out -/
  | stopTaken (proc : Option Nat)
  | stopKilling (g : Nat)
  | stopReturning (already : Bool)

/-- The moves of a call, with what the outside world answers. -/
inductive DecisionsAct where
  | start
  | startTake
  | startTest
  /-- the checks before the spawn: `none`, or the code of the refusal -/
  | startAdmit (refusal : Option Nat)
  | startClear (name : String)
  | spawn (result : Except String Nat)
  | startReturn
  | stop
  | stopTake
  | stopWrite
  | stopKill
  | stopKilled (gaveUp : Bool)
  | stopReturn

/-- What the calls share. -/
structure DecisionsWorld where
  sup : Sup
  ops : Option Nat

/-- The decision service; `enabled` is `!cfg.hf_id.is_empty()`. -/
structure Decisions extends DecisionsWorld where
  enabled : Bool
  calls : Nat → DecisionsPc

/-- `Decisions::new`. -/
def Decisions.init (enabled : Bool) : Decisions :=
  { sup := .init, ops := none, enabled := enabled, calls := fun _ => .idle }

/-- The critical section of `start` that announces the model. -/
def Shared.announceDecisions (sh : Shared) (name : String) : Shared :=
  { sh with
    logs := sh.logs.clear, model := some name, engine := some "decisions", status := .starting }

/-- The critical section of `stop`: "stopped", and the process taken out. -/
def Shared.takeStopped (sh : Shared) : Shared :=
  { sh with status := .stopped, runningSince := none, proc := none }

/-- `Decisions::start` and `Decisions::stop`, one step of call `i`. -/
def decisionsCallStep (enabled : Bool) (i : Nat) (pc : DecisionsPc) (a : DecisionsAct)
    (w : DecisionsWorld) : Option (DecisionsPc × DecisionsWorld) :=
  match pc, a with
  -- a service without a configured model answers 400 before it locks
  | .idle, .start => if enabled then some (.startWanting, w) else some (.idle, w)
  | .startWanting, .startTake =>
      if w.ops = none then some (.startLocked, { w with ops := some i }) else none
  | .startLocked, .startTest =>
      if w.sup.procAlive then some (.startReturning (.already w.sup.shared.status), w)
      else some (.startAdmitted, w)
  | .startAdmitted, .startAdmit refusal =>
      match refusal with
      | some code => some (.startReturning (.refused code), w)
      | none => some (.startClearing, w)
  | .startClearing, .startClear name =>
      some (.startSpawning,
        { w with sup := { w.sup with shared := w.sup.shared.announceDecisions name } })
  | .startSpawning, .spawn result =>
      match result with
      | .ok pid => some (.startReturning .started, { w with sup := w.sup.spawn pid })
      -- the announcement is not taken back
      | .error _ => some (.startReturning (.refused 500), w)
  | .startReturning _, .startReturn => some (.idle, { w with ops := none })
  | .idle, .stop => some (.stopWanting, w)
  | .stopWanting, .stopTake =>
      if w.ops = none then some (.stopLocked, { w with ops := some i }) else none
  -- one critical section: the status and the process go together
  | .stopLocked, .stopWrite =>
      some (.stopTaken w.sup.shared.proc,
        { w with sup := { w.sup with shared := w.sup.shared.takeStopped } })
  | .stopTaken proc, .stopKill =>
      match proc with
      | some g =>
          if (w.sup.procs g).alive then some (.stopKilling g, w) else some (.stopReturning true, w)
      | none => some (.stopReturning true, w)
  -- `kill` returns on the exit flag, or gives up waiting for it
  | .stopKilling g, .stopKilled gaveUp =>
      if (w.sup.procs g).exited || gaveUp then some (.stopReturning false, w) else none
  | .stopReturning _, .stopReturn => some (.idle, { w with ops := none })
  | _, _ => none

/-- A label of the decision service. -/
inductive DAct where
  | thread (g : Nat) (a : ThreadAct)
  | call (i : Nat) (a : DecisionsAct)

/-- One step of the decision service. -/
def dstep (s : Decisions) : DAct → Option Decisions
  | .thread g a => (s.sup.threadStep g a).map fun sup => { s with sup := sup }
  | .call i a =>
      (decisionsCallStep s.enabled i (s.calls i) a s.toDecisionsWorld).map fun x =>
        { s with toDecisionsWorld := x.2, calls := Function.update s.calls i x.1 }

variable {s s' : Decisions}

theorem dstep_thread {g : Nat} {a : ThreadAct} (h : dstep s (.thread g a) = some s') :
    ∃ sup, s.sup.threadStep g a = some sup ∧ s' = { s with sup := sup } := by
  rcases Option.map_eq_some_iff.1 h with ⟨sup, hsup, rfl⟩
  exact ⟨sup, hsup, rfl⟩

theorem dstep_call {i : Nat} {a : DecisionsAct} (h : dstep s (.call i a) = some s') :
    ∃ pc w, decisionsCallStep s.enabled i (s.calls i) a s.toDecisionsWorld = some (pc, w) ∧
      s' = { s with toDecisionsWorld := w, calls := Function.update s.calls i pc } := by
  rcases Option.map_eq_some_iff.1 h with ⟨⟨pc, w⟩, hx, rfl⟩
  exact ⟨pc, w, hx, rfl⟩

/-! ## The moves -/

/-- What one step of a call can be, with what it finds. -/
inductive DecisionsMove (enabled : Bool) (i : Nat) (w : DecisionsWorld) :
    DecisionsPc → DecisionsAct → DecisionsPc → DecisionsWorld → Prop where
  | start (henabled : enabled = true) : DecisionsMove enabled i w .idle .start .startWanting w
  | notConfigured (henabled : enabled = false) : DecisionsMove enabled i w .idle .start .idle w
  | startTake (hfree : w.ops = none) :
      DecisionsMove enabled i w .startWanting .startTake .startLocked { w with ops := some i }
  | alive (halive : w.sup.procAlive = true) :
      DecisionsMove enabled i w .startLocked .startTest
        (.startReturning (.already w.sup.shared.status)) w
  | dead (hdead : w.sup.procAlive = false) :
      DecisionsMove enabled i w .startLocked .startTest .startAdmitted w
  | refused (code : Nat) :
      DecisionsMove enabled i w .startAdmitted (.startAdmit (some code))
        (.startReturning (.refused code)) w
  | admitted : DecisionsMove enabled i w .startAdmitted (.startAdmit none) .startClearing w
  | cleared (name : String) : DecisionsMove enabled i w .startClearing (.startClear name) .startSpawning
      { w with sup := { w.sup with shared := w.sup.shared.announceDecisions name } }
  | spawned (pid : Nat) : DecisionsMove enabled i w .startSpawning (.spawn (.ok pid))
      (.startReturning .started) { w with sup := w.sup.spawn pid }
  | spawnFailed (e : String) : DecisionsMove enabled i w .startSpawning (.spawn (.error e))
      (.startReturning (.refused 500)) w
  | startReturn (answer : StartAnswer) :
      DecisionsMove enabled i w (.startReturning answer) .startReturn .idle { w with ops := none }
  | stop : DecisionsMove enabled i w .idle .stop .stopWanting w
  | stopTake (hfree : w.ops = none) :
      DecisionsMove enabled i w .stopWanting .stopTake .stopLocked { w with ops := some i }
  | stopWrite : DecisionsMove enabled i w .stopLocked .stopWrite (.stopTaken w.sup.shared.proc)
      { w with sup := { w.sup with shared := w.sup.shared.takeStopped } }
  | stopFound (g : Nat) (halive : (w.sup.procs g).alive = true) :
      DecisionsMove enabled i w (.stopTaken (some g)) .stopKill (.stopKilling g) w
  | stopDead (g : Nat) (hdead : (w.sup.procs g).alive = false) :
      DecisionsMove enabled i w (.stopTaken (some g)) .stopKill (.stopReturning true) w
  | stopNone : DecisionsMove enabled i w (.stopTaken none) .stopKill (.stopReturning true) w
  | stopKilled (g : Nat) (gaveUp : Bool) (hkill : ((w.sup.procs g).exited || gaveUp) = true) :
      DecisionsMove enabled i w (.stopKilling g) (.stopKilled gaveUp) (.stopReturning false) w
  | stopReturn (already : Bool) :
      DecisionsMove enabled i w (.stopReturning already) .stopReturn .idle { w with ops := none }

variable {pc pc' : DecisionsPc} {w w' : DecisionsWorld}

theorem decisionsCallStep_move {en : Bool} {i : Nat} {a : DecisionsAct}
    (h : decisionsCallStep en i pc a w = some (pc', w')) :
    DecisionsMove en i w pc a pc' w' := by
  unfold decisionsCallStep at h
  split at h
  · split at h
    · next hen =>
        cases h
        exact .start hen
    · next hen =>
        cases h
        exact .notConfigured (by simpa using hen)
  · split at h
    · next hfree =>
        cases h
        exact .startTake hfree
    · cases h
  · split at h
    · next halive =>
        cases h
        exact .alive halive
    · next hdead =>
        cases h
        exact .dead (by simpa using hdead)
  · split at h
    · next code =>
        cases h
        exact .refused code
    · cases h
      exact .admitted
  · next name =>
      cases h
      exact .cleared name
  · split at h
    · next pid =>
        cases h
        exact .spawned pid
    · next e =>
        cases h
        exact .spawnFailed e
  · next answer =>
      cases h
      exact .startReturn answer
  · cases h
    exact .stop
  · split at h
    · next hfree =>
        cases h
        exact .stopTake hfree
    · cases h
  · cases h
    exact .stopWrite
  · split at h
    · next g =>
        split at h
        · next halive =>
            cases h
            exact .stopFound g halive
        · next hdead =>
            cases h
            exact .stopDead g (by simpa using hdead)
    · cases h
      exact .stopNone
  · next g gaveUp =>
      split at h
      · next hkill =>
          cases h
          exact .stopKilled g gaveUp hkill
      · cases h
  · next already =>
      cases h
      exact .stopReturn already
  · cases h

/-! ## The lock -/

/-- The positions of a call between taking and releasing `ops`. -/
def DecisionsPc.holdsOps : DecisionsPc → Bool
  | .idle | .startWanting | .stopWanting => false
  | _ => true

/-- Who is inside the critical section of `ops`. -/
def Decisions.held (s : Decisions) (i : Nat) : Bool := (s.calls i).holdsOps

/-- The lock names its holder. -/
def Decisions.LockOk (s : Decisions) : Prop := Lock.Names s.held s.ops

theorem decisionsLockOk_init (enabled : Bool) : (Decisions.init enabled).LockOk := by
  intro i
  simp [Decisions.held, Decisions.init, DecisionsPc.holdsOps]

theorem decisionsCallStep_lock {en : Bool} {i : Nat} {a : DecisionsAct}
    (h : decisionsCallStep en i pc a w = some (pc', w')) :
    Lock.Move i pc.holdsOps pc'.holdsOps w.ops w'.ops := by
  cases decisionsCallStep_move h with
  | startTake hfree => exact Or.inl ⟨rfl, hfree, rfl, rfl⟩
  | stopTake hfree => exact Or.inl ⟨rfl, hfree, rfl, rfl⟩
  | startReturn answer => exact Or.inr (Or.inl ⟨rfl, rfl, rfl⟩)
  | stopReturn already => exact Or.inr (Or.inl ⟨rfl, rfl, rfl⟩)
  | _ => exact Or.inr (Or.inr ⟨rfl, rfl⟩)

theorem decisionsLockOk_step {a : DAct} (h : dstep s a = some s') (hs : s.LockOk) : s'.LockOk := by
  cases a with
  | thread g a =>
    rcases dstep_thread h with ⟨sup, -, rfl⟩
    exact hs
  | call i a =>
    rcases dstep_call h with ⟨pc, w, hx, rfl⟩
    have hheld : ({ s with toDecisionsWorld := w, calls := Function.update s.calls i pc } :
        Decisions).held = Function.update s.held i pc.holdsOps := by
      funext j
      by_cases hj : j = i
      · subst hj
        simp [Decisions.held]
      · simp [Decisions.held, Function.update_of_ne, hj]
    rw [Decisions.LockOk, hheld]
    exact hs.move (decisionsCallStep_lock hx)

/-! ## What a call does to the supervisor -/

/-- The step starts a new process of the decision engine. -/
def DAct.IsSpawn (a : DAct) : Prop := ∃ i pid, a = .call i (.spawn (.ok pid))

theorem decisionsCallStep_sup {en : Bool} {i : Nat} {a : DecisionsAct}
    (h : decisionsCallStep en i pc a w = some (pc', w')) :
    (∃ pid, a = .spawn (.ok pid) ∧ w'.sup = w.sup.spawn pid) ∨ w.sup.OpMove w'.sup := by
  cases decisionsCallStep_move h with
  -- the only move that installs a process
  | spawned pid => exact Or.inl ⟨pid, rfl, rfl⟩
  | _ =>
    right
    constructor <;> simp [Shared.announceDecisions, Shared.takeStopped]

theorem dstep_sup {a : DAct} (h : dstep s a = some s') :
    (∃ g ta, a = .thread g ta ∧ s.sup.threadStep g ta = some s'.sup) ∨
      (a.IsSpawn ∧ ∃ pid, s'.sup = s.sup.spawn pid) ∨ s.sup.OpMove s'.sup := by
  cases a with
  | thread g a =>
    rcases dstep_thread h with ⟨sup, hsup, rfl⟩
    exact Or.inl ⟨g, a, rfl, hsup⟩
  | call i a =>
    rcases dstep_call h with ⟨pc, w, hx, rfl⟩
    rcases decisionsCallStep_sup hx with ⟨pid, rfl, hsup⟩ | hsup
    · exact Or.inr (Or.inl ⟨⟨i, pid, rfl⟩, pid, hsup⟩)
    · exact Or.inr (Or.inr hsup)

theorem flagsOk_dstep {a : DAct} (h : dstep s a = some s') (hs : s.sup.FlagsOk) : s'.sup.FlagsOk := by
  rcases dstep_sup h with ⟨g, ta, -, hth⟩ | ⟨-, pid, hsp⟩ | hop
  · exact flagsOk_threadStep hth hs
  · rw [hsp]
    exact flagsOk_spawn pid hs
  · exact flagsOk_opMove hop hs

end Runner
