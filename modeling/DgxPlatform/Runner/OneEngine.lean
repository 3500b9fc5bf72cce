import DgxPlatform.Runner.Service
import DgxPlatform.Runner.Decisions

/-! # One engine per supervisor

Both services replace their process in several separate sections: `start_process`
looks the previous one up, kills it, announces the new model and spawns;
`Decisions::stop` takes the process out of the shared state before it kills it.

What carries the argument is which process may be alive at all (`Sup.Sole`), as
the actor that holds `ops` knows it (`engine`): the recorded one, the one being
killed, or none once a kill has returned. `kill` gives up after its waits; that it
only returns once the process has exited is the assumption `killWaits`.
-/

namespace Runner

open Run

/-- No process but `e` is alive. -/
def Sup.Sole (s : Sup) (e : Option Nat) : Prop := ∀ g, (s.procs g).alive = true → e = some g

variable {s s' : Sup} {e : Option Nat}

theorem sole_init : Sup.init.Sole none := by
  intro g hg
  simp [Sup.init, Proc.absent, Proc.alive] at hg

theorem Sup.Sole.of_none (h : s.Sole none) (e : Option Nat) : s.Sole e := by
  intro g hg
  cases h g hg

theorem Sup.Sole.of_procs (h : s.Sole e) (hp : s'.procs = s.procs) : s'.Sole e := by
  intro g hg
  rw [hp] at hg
  exact h g hg

theorem move_alive {p p' : Proc} {a : ThreadAct} (h : p.move a = some p') (hp : p'.alive = true) :
    p.alive = true := by
  unfold Proc.alive at hp ⊢
  rcases move_reader h with ⟨hex, -⟩ | ⟨hex, -⟩ | ⟨hex, -⟩ | ⟨-, hex, -⟩
  · rwa [hex] at hp
  · rwa [hex] at hp
  · rw [hex] at hp
    cases hp
  · rwa [hex] at hp

theorem Sup.Sole.threadStep {g : Nat} {a : ThreadAct} (h : s.Sole e)
    (hs : s.threadStep g a = some s') : s'.Sole e := by
  obtain ⟨p, hp, rfl⟩ := Option.map_eq_some_iff.1 hs
  intro g' hg'
  by_cases hgg : g' = g
  · subst hgg
    exact h g' (move_alive hp (by simpa using hg'))
  · exact h g' (by simpa [Function.update_of_ne hgg] using hg')

theorem Sup.Sole.spawn (h : s.Sole none) (pid : Nat) :
    (s.spawn pid).Sole (s.spawn pid).shared.proc := by
  intro g hg
  by_cases hgg : g = s.nextGen
  · rw [hgg]
    rfl
  · cases h g (by simpa [Sup.spawn, Function.update_of_ne hgg] using hg)

theorem Sup.Sole.exited {g : Nat} (h : s.Sole (some g)) (hg : (s.procs g).alive = false) :
    s.Sole none := by
  intro g' hg'
  obtain rfl : g = g' := Option.some.inj (h g' hg')
  rw [hg] at hg'
  cases hg'

theorem Sup.Sole.not_alive (h : s.Sole s.shared.proc) (halive : s.procAlive = false) :
    s.Sole none := by
  unfold Sup.procAlive at halive
  rcases hp : s.shared.proc with _ | g
  · rwa [hp] at h
  · rw [hp] at h halive
    exact h.exited halive

/-! ## The operating-system process

The flag `exited` is what the supervisor looks at. It follows the process itself as
long as `wait` returns only once the process is gone. -/

/-- A running process is not flagged, and nobody has waited for it. -/
def Proc.Honest (p : Proc) : Prop :=
  p.live = true → p.exited = false ∧ ∀ code, p.reader ≠ .waited code

theorem honest_move {p p' : Proc} {a : ThreadAct} (h : p.move a = some p')
    (hwait : ∀ code, a = .wait code → p.live = false) (hp : p.Honest) : p'.Honest := by
  intro hlive
  cases procMove_of_move h with
  | wait code hreader hgone =>
    rw [hwait code rfl] at hlive
    cases hlive
  | store code hreader => exact absurd hreader ((hp hlive).2 code)
  | exit => cases hlive
  | line text pc hreader hpc =>
    refine ⟨(hp hlive).1, ?_⟩
    intro code
    rcases hpc with rfl | rfl <;> simp
  | startup | interrupted | eof | record => exact ⟨(hp hlive).1, by simp⟩
  | _ =>
    -- the probe and the memory guard
    exact hp hlive

/-- `wait` returns only once the process is gone. -/
def Sup.waitReturns (s : Sup) (g : Nat) : ThreadAct → Prop
  | .wait _ => (s.procs g).live = false
  | _ => True

instance (s : Sup) (g : Nat) (a : ThreadAct) : Decidable (s.waitReturns g a) := by
  unfold Sup.waitReturns
  split <;> infer_instance

def App.waitReturns (s : App) : Act → Prop
  | .thread g a => s.sup.waitReturns g a
  | _ => True

instance (s : App) (a : Act) : Decidable (s.waitReturns a) := by
  unfold App.waitReturns
  split <;> infer_instance

def Sup.Honest (s : Sup) : Prop := ∀ g, (s.procs g).Honest

theorem honest_init : Sup.init.Honest := by
  intro g hlive
  cases hlive

theorem Sup.Honest.threadStep {g : Nat} {a : ThreadAct} (h : s.Honest) (hwait : s.waitReturns g a)
    (hs : s.threadStep g a = some s') : s'.Honest := by
  obtain ⟨p, hp, rfl⟩ := Option.map_eq_some_iff.1 hs
  intro g'
  dsimp only
  by_cases hgg : g' = g
  · subst hgg
    rw [Function.update_self]
    refine honest_move hp ?_ (h g')
    rintro code rfl
    exact hwait
  · rw [Function.update_of_ne hgg]
    exact h g'

theorem Sup.Honest.spawn (h : s.Honest) (pid : Nat) : (s.spawn pid).Honest := by
  intro g
  by_cases hgg : g = s.nextGen
  · subst hgg
    intro _
    simp [Sup.spawn, Proc.spawned]
  · simpa [Sup.spawn, Function.update_of_ne hgg] using h g

theorem Sup.Honest.opMove (h : s.Honest) (hop : s.OpMove s') : s'.Honest := by
  intro g
  rw [hop.procs]
  exact h g

/-- Along a run whose waits return for processes that are gone, a process that runs is
one the supervisor sees as alive. -/
theorem live_alive (file : Option LastLaunch) (fails : Int) (acts : List Act)
    (hwait : Meets step App.waitReturns (App.init file fails) acts) :
    Always step (fun s => ∀ g, (s.sup.procs g).live = true → (s.sup.procs g).alive = true)
      (App.init file fails) acts := by
  have halive : ∀ s : App, s.sup.Honest →
      ∀ g, (s.sup.procs g).live = true → (s.sup.procs g).alive = true := by
    intro s h g hlive
    simp [Proc.alive, (h g hlive).1]
  refine always_of_meets halive ?_ honest_init hwait
  intro s a s' h hG hs
  rcases step_sup hs with ⟨g, ta, rfl, hth⟩ | ⟨-, pid, hsp⟩ | hop
  · exact h.threadStep hG hth
  · rw [hsp]
    exact h.spawn pid
  · exact h.opMove hop

/-! ## The chat service -/

/-- The process that may be alive while `start_process` stands at `pc`. -/
def StartPc.engine (proc : Option Nat) : StartPc → Option Nat
  | .killing g => some g
  | .clearing => none
  | .spawning => none
  | _ => proc

def CallPc.engine (proc : Option Nat) : CallPc → Option Nat
  | .launching _ pc => pc.engine proc
  | _ => proc

def WatchdogPc.engine (proc : Option Nat) : WatchdogPc → Option Nat
  | .starting _ _ pc => pc.engine proc
  | _ => proc

/-- The process that may be alive, as the holder of `ops` knows it. -/
def App.engine (s : App) : Option Nat :=
  match s.ops with
  | none => s.sup.shared.proc
  | some .watchdog => s.watchdog.engine s.sup.shared.proc
  | some (.call i) => (s.calls i).engine s.sup.shared.proc

/-- `start_process` does not return from `kill` while the process is alive. -/
def StartPc.killWaits (procs : Nat → Proc) : StartPc → StartAct → Prop
  | .killing g, .killed _ => (procs g).exited = true
  | _, _ => True

/-- `kill` returns only once the killed process has exited. -/
def killWaits (s : App) : Act → Prop
  | .call i (.start a) =>
      match s.calls i with
      | .launching _ pc => pc.killWaits s.sup.procs a
      | _ => True
  | .call i (.stopKilled _) =>
      match s.calls i with
      | .stopKilling g => (s.sup.procs g).exited = true
      | _ => True
  | .watchdog (.start a) =>
      match s.watchdog with
      | .starting _ _ pc => pc.killWaits s.sup.procs a
      | _ => True
  | _ => True

instance (procs : Nat → Proc) (pc : StartPc) (a : StartAct) :
    Decidable (pc.killWaits procs a) := by
  unfold StartPc.killWaits
  split <;> infer_instance

instance (s : App) (a : Act) : Decidable (killWaits s a) := by
  unfold killWaits
  split
  · split <;> infer_instance
  · split <;> infer_instance
  · split <;> infer_instance
  · infer_instance

/-- At most one process is alive, and when `ops` is free it is the recorded one. -/
def OneEngine (sup : Sup) (free : Prop) : Prop :=
  (∀ g g', (sup.procs g).alive = true → (sup.procs g').alive = true → g = g') ∧
    (free → ∀ g, (sup.procs g).alive = true → sup.shared.proc = some g)

theorem startStep_sole {r : Launch} {pc pc' : StartPc} {a : StartAct} {w w' : World}
    (h : startStep r pc a w = some (pc', w')) (hkill : pc.killWaits w.sup.procs a)
    (hsole : w.sup.Sole (pc.engine w.sup.shared.proc)) :
    w'.sup.Sole (pc'.engine w'.sup.shared.proc) := by
  cases startStep_move h with
  -- the previous process: to be killed, or not there any more
  | found g hproc halive =>
    simp only [StartPc.engine, hproc] at hsole
    exact hsole.of_procs rfl
  | dead g hproc hdead =>
    simp only [StartPc.engine, hproc] at hsole
    exact hsole.exited hdead
  | none hproc => simpa only [StartPc.engine, hproc] using hsole
  -- the kill has returned: the process has exited
  | killed g gaveUp hreturns =>
    have hex : (w.sup.procs g).exited = true := hkill
    exact Sup.Sole.exited hsole (by simp [Proc.alive, hex])
  | cleared => exact hsole.of_procs rfl
  | journal line => exact hsole.of_procs rfl
  | spawned pid => exact Sup.Sole.spawn hsole pid
  | spawnFailed e => exact Sup.Sole.of_none hsole _
  | saveFailed e => exact hsole.of_procs rfl
  | _ => exact hsole

/-- What a move of a call does, `start_process` apart, leaves the processes alone. -/
theorem callStep_cases {i : Nat} {pc pc' : CallPc} {a : CallAct} {w w' : World}
    (h : callStep i pc a w = some (pc', w')) :
    (∃ r sp sp' sa, pc = .launching r sp ∧ a = .start sa ∧ pc' = .launching r sp' ∧
      startStep r sp sa w = some (sp', w')) ∨
    (w'.sup.procs = w.sup.procs ∧ w'.sup.shared.proc = w.sup.shared.proc ∧
      pc.engine w.sup.shared.proc = w.sup.shared.proc ∧
      pc'.engine w.sup.shared.proc = w.sup.shared.proc) := by
  cases callStep_move h with
  | start r sp sa sp' _ hstart => exact Or.inl ⟨r, sp, sp', sa, rfl, rfl, rfl, hstart⟩
  | _ => exact Or.inr ⟨rfl, rfl, rfl, rfl⟩

theorem watchdogStep_cases {pc pc' : WatchdogPc} {b b' : Bool} {a : WatchdogAct} {w w' : World}
    (h : watchdogStep pc b a w = some (pc', b', w')) :
    (∃ r f sp sp' sa, pc = .starting r f sp ∧ a = .start sa ∧ pc' = .starting r f sp' ∧
      startStep r sp sa w = some (sp', w')) ∨
    (w'.sup.procs = w.sup.procs ∧ w'.sup.shared.proc = w.sup.shared.proc ∧
      pc.engine w.sup.shared.proc = w.sup.shared.proc ∧
      (pc'.engine w.sup.shared.proc = w.sup.shared.proc)) := by
  cases watchdogStep_move h with
  | start r fails sp sa sp' _ hstart => exact Or.inl ⟨r, fails, sp, sp', sa, rfl, rfl, rfl, hstart⟩
  | disabled last tokens hmax =>
    cases b <;> exact Or.inr ⟨rfl, rfl, rfl, rfl⟩
  | _ => exact Or.inr ⟨rfl, rfl, rfl, rfl⟩

theorem callPc_engine_of_not_holds {pc : CallPc} (h : pc.holdsOps = false) (proc : Option Nat) :
    pc.engine proc = proc := by
  cases pc <;> simp_all [CallPc.holdsOps, CallPc.engine]

theorem watchdogPc_engine_of_not_holds {pc : WatchdogPc} (h : pc.holdsOps = false)
    (proc : Option Nat) : pc.engine proc = proc := by
  cases pc <;> simp_all [WatchdogPc.holdsOps, WatchdogPc.engine]

/-- What an actor at its program counter knows to be alive. -/
def App.engineAt (s : App) : Actor → Option Nat
  | .watchdog => s.watchdog.engine s.sup.shared.proc
  | .call i => (s.calls i).engine s.sup.shared.proc

theorem engineAt_of_not_held {s : App} {x : Actor} (h : s.held x = false) :
    s.engineAt x = s.sup.shared.proc := by
  cases x with
  | watchdog => exact watchdogPc_engine_of_not_holds h _
  | call i => exact callPc_engine_of_not_holds h _

theorem engine_eq_engineAt {s : App} {x : Actor} (hlock : s.LockOk)
    (hx : s.ops = none ∨ s.ops = some x) : s.engine = s.engineAt x := by
  rcases hx with hfree | hheld
  · rw [engineAt_of_not_held (hlock.free hfree x)]
    simp only [App.engine, hfree]
  · unfold App.engine
    rw [hheld]
    cases x <;> rfl

/-- When `ops` is held by another, the engine does not depend on the actor `x`. -/
theorem engine_eq_of_other {s s' : App} {x : Actor} (hother : ¬ (s.ops = none ∨ s.ops = some x))
    (hops : s'.ops = s.ops)
    (hat : ∀ y, y ≠ x → s'.engineAt y = s.engineAt y) : s'.engine = s.engine := by
  rcases hs : s.ops with _ | y
  · exact absurd (Or.inl hs) hother
  · have hne : y ≠ x := fun e => hother (Or.inr (hs.trans (congrArg some e)))
    have hy := hat y hne
    unfold App.engine
    rw [hops, hs]
    cases y <;> exact hy

/-- Only the process the holder of `ops` knows of is alive. -/
structure App.EngineOk (s : App) : Prop where
  lock : s.LockOk
  sole : s.sup.Sole s.engine

theorem engineOk_init (file : Option LastLaunch) (fails : Int) : (App.init file fails).EngineOk where
  lock := lockOk_init file fails
  sole := sole_init

/-- A move of the actor `x`: while `ops` is free or its own it takes what it knows to
be alive along, otherwise it leaves the processes and the others alone. -/
theorem engineOk_move {s s' : App} {x : Actor} (h : s.EngineOk) (hlock : s'.LockOk)
    (hmove : Lock.Move x (s.held x) (s'.held x) s.ops s'.ops)
    (hown : s.sup.Sole (s.engineAt x) → s'.sup.Sole (s'.engineAt x))
    (hother : s.held x = false → s'.sup.procs = s.sup.procs ∧
      s'.sup.shared.proc = s.sup.shared.proc)
    (hat : s'.sup.shared.proc = s.sup.shared.proc → ∀ y, y ≠ x → s'.engineAt y = s.engineAt y) :
    s'.EngineOk := by
  refine ⟨hlock, ?_⟩
  by_cases hx : s.ops = none ∨ s.ops = some x
  · rw [engine_eq_engineAt hlock (hmove.own hx)]
    refine hown ?_
    rw [← engine_eq_engineAt h.lock hx]
    exact h.sole
  · have hheld : s.held x = false := h.lock.not_held hx
    obtain ⟨hprocs, hproc⟩ := hother hheld
    rw [engine_eq_of_other hx (hmove.other hheld hx) (hat hproc)]
    exact h.sole.of_procs hprocs

theorem engineOk_step {s s' : App} {a : Act} (h : s.EngineOk) (hkill : killWaits s a)
    (hs : step s a = some s') : s'.EngineOk := by
  have hlock : s'.LockOk := lockOk_step hs h.lock
  cases a with
  | thread g ta =>
    obtain ⟨sup, hsup, rfl⟩ := step_thread hs
    refine ⟨hlock, ?_⟩
    have hproc : sup.shared.proc = s.sup.shared.proc := by
      obtain ⟨p, -, rfl⟩ := Option.map_eq_some_iff.1 hsup
      exact effect_proc _ _ _ _
    have hengine : ({ s with sup := sup } : App).engine = s.engine := by
      unfold App.engine
      rw [hproc]
    rw [hengine]
    exact h.sole.threadStep hsup
  | call i ca =>
    obtain ⟨pc, w, hx, rfl⟩ := step_call hs
    refine engineOk_move (x := .call i) h hlock ?_ ?_ ?_ ?_
    · simpa [App.held] using callStep_lock hx
    · simp only [App.engineAt, Function.update_self]
      intro hsole
      rcases callStep_cases hx with ⟨r, sp, sp', sa, hpc, rfl, rfl, hstart⟩ |
        ⟨hprocs, hproc, hpc, hpc'⟩
      · rw [hpc] at hsole
        exact startStep_sole hstart (by simpa [killWaits, hpc] using hkill) hsole
      · rw [hpc] at hsole
        rw [hproc, hpc']
        exact hsole.of_procs hprocs
    · intro hheld
      rcases callStep_cases hx with ⟨r, sp, sp', sa, hpc, -⟩ | ⟨hprocs, hproc, -⟩
      · simp [App.held, hpc, CallPc.holdsOps] at hheld
      · exact ⟨hprocs, hproc⟩
    · intro hproc y hy
      cases y with
      | watchdog => exact congrArg (fun p => s.watchdog.engine p) hproc
      | call j =>
        have hji : j ≠ i := fun e => hy (by rw [e])
        simp only [App.engineAt, Function.update_of_ne hji]
        exact congrArg (fun p => (s.calls j).engine p) hproc
  | watchdog wa =>
    obtain ⟨pc, b, w, hx, rfl⟩ := step_watchdog hs
    refine engineOk_move (x := .watchdog) h hlock (watchdogStep_lock hx) ?_ ?_ ?_
    · simp only [App.engineAt]
      intro hsole
      rcases watchdogStep_cases hx with ⟨r, f, sp, sp', sa, hpc, rfl, rfl, hstart⟩ |
        ⟨hprocs, hproc, hpc, hpc'⟩
      · rw [hpc] at hsole
        exact startStep_sole hstart (by simpa [killWaits, hpc] using hkill) hsole
      · rw [hpc] at hsole
        rw [hproc, hpc']
        exact hsole.of_procs hprocs
    · intro hheld
      rcases watchdogStep_cases hx with ⟨r, f, sp, sp', sa, hpc, -⟩ | ⟨hprocs, hproc, -⟩
      · simp [App.held, hpc, WatchdogPc.holdsOps] at hheld
      · exact ⟨hprocs, hproc⟩
    · intro hproc y hy
      cases y with
      | watchdog => exact absurd rfl hy
      | call j => exact congrArg (fun p => (s.calls j).engine p) hproc

theorem oneEngine_of_sole {sup : Sup} {e : Option Nat} {free : Prop} (h : sup.Sole e)
    (hfree : free → e = sup.shared.proc) : OneEngine sup free := by
  constructor
  · intro g g' hg hg'
    exact Option.some.inj ((h g hg).symm.trans (h g' hg'))
  · intro hf g hg
    exact (hfree hf).symm.trans (h g hg)

theorem App.EngineOk.oneEngine {s : App} (h : s.EngineOk) : OneEngine s.sup (s.ops = none) := by
  refine oneEngine_of_sole h.sole ?_
  intro hfree
  simp only [App.engine, hfree]

/-! ## The decision service -/

/-- The process that may be alive while a call stands at `pc`. -/
def DecisionsPc.engine (proc : Option Nat) : DecisionsPc → Option Nat
  | .startAdmitted | .startClearing | .startSpawning => none
  | .stopTaken p => p
  | .stopKilling g => some g
  | _ => proc

/-- The process that may be alive, as the holder of `ops` knows it. -/
def Decisions.engine (s : Decisions) : Option Nat :=
  match s.ops with
  | none => s.sup.shared.proc
  | some i => (s.calls i).engine s.sup.shared.proc

/-- `kill` returns only once the killed process has exited. -/
def decisionsKillWaits (s : Decisions) : DAct → Prop
  | .call i (.stopKilled _) =>
      match s.calls i with
      | .stopKilling g => (s.sup.procs g).exited = true
      | _ => True
  | _ => True

instance (s : Decisions) (a : DAct) : Decidable (decisionsKillWaits s a) := by
  unfold decisionsKillWaits
  split
  · split <;> infer_instance
  · infer_instance

theorem decisionsCallStep_sole {en : Bool} {i : Nat} {pc pc' : DecisionsPc} {a : DecisionsAct}
    {w w' : DecisionsWorld} (h : decisionsCallStep en i pc a w = some (pc', w'))
    (hkill : ∀ g b, pc = .stopKilling g → a = .stopKilled b → (w.sup.procs g).exited = true)
    (hsole : w.sup.Sole (pc.engine w.sup.shared.proc)) :
    w'.sup.Sole (pc'.engine w'.sup.shared.proc) := by
  cases decisionsCallStep_move h with
  -- the aliveness test: past it, nothing is alive
  | dead hdead => exact Sup.Sole.not_alive hsole hdead
  | refused code => exact Sup.Sole.of_none hsole _
  | cleared name => exact hsole.of_procs rfl
  | spawned pid => exact Sup.Sole.spawn hsole pid
  | spawnFailed e => exact Sup.Sole.of_none hsole _
  -- the process is taken out of the record, the call keeps it
  | stopWrite => exact hsole.of_procs rfl
  | stopDead g hdead => exact (Sup.Sole.exited hsole hdead).of_none _
  | stopNone => exact Sup.Sole.of_none hsole _
  | stopKilled g gaveUp hreturns =>
    have hex := hkill g gaveUp rfl rfl
    exact (Sup.Sole.exited hsole (by simp [Proc.alive, hex])).of_none _
  | _ => exact hsole

theorem decisionsCallStep_frame {en : Bool} {i : Nat} {pc pc' : DecisionsPc} {a : DecisionsAct}
    {w w' : DecisionsWorld} (h : decisionsCallStep en i pc a w = some (pc', w'))
    (hpc : pc.holdsOps = false) : w'.sup = w.sup := by
  cases decisionsCallStep_move h with
  | start henabled => rfl
  | notConfigured henabled => rfl
  | startTake hfree => rfl
  | stop => rfl
  | stopTake hfree => rfl
  | _ => cases hpc

theorem decisionsPc_engine_of_not_holds {pc : DecisionsPc} (h : pc.holdsOps = false)
    (proc : Option Nat) : pc.engine proc = proc := by
  cases pc <;> simp_all [DecisionsPc.holdsOps, DecisionsPc.engine]

structure Decisions.EngineOk (s : Decisions) : Prop where
  lock : s.LockOk
  sole : s.sup.Sole s.engine

theorem decisionsEngineOk_init (enabled : Bool) : (Decisions.init enabled).EngineOk where
  lock := decisionsLockOk_init enabled
  sole := sole_init

theorem decisionsEngine_eq {s : Decisions} {i : Nat} (hlock : s.LockOk)
    (hi : s.ops = none ∨ s.ops = some i) :
    s.engine = (s.calls i).engine s.sup.shared.proc := by
  rcases hi with hfree | hheld
  · rw [decisionsPc_engine_of_not_holds (hlock.free hfree i)]
    simp only [Decisions.engine, hfree]
  · simp only [Decisions.engine, hheld]

theorem decisionsEngineOk_step {s s' : Decisions} {a : DAct} (h : s.EngineOk)
    (hkill : decisionsKillWaits s a) (hs : dstep s a = some s') : s'.EngineOk := by
  have hlock : s'.LockOk := decisionsLockOk_step hs h.lock
  refine ⟨hlock, ?_⟩
  cases a with
  | thread g ta =>
    obtain ⟨sup, hsup, rfl⟩ := dstep_thread hs
    have hproc : sup.shared.proc = s.sup.shared.proc := by
      obtain ⟨p, -, rfl⟩ := Option.map_eq_some_iff.1 hsup
      exact effect_proc _ _ _ _
    have hengine : ({ s with sup := sup } : Decisions).engine = s.engine := by
      unfold Decisions.engine
      rw [hproc]
    rw [hengine]
    exact h.sole.threadStep hsup
  | call i ca =>
    obtain ⟨pc, w, hx, rfl⟩ := dstep_call hs
    have hmove := decisionsCallStep_lock hx
    by_cases hi : s.ops = none ∨ s.ops = some i
    · rw [decisionsEngine_eq hlock (hmove.own hi)]
      simp only [Function.update_self]
      refine decisionsCallStep_sole hx ?_ ?_
      · rintro g b hpc rfl
        simpa [decisionsKillWaits, hpc] using hkill
      · rw [← decisionsEngine_eq h.lock hi]
        exact h.sole
    · -- another call holds `ops`: what it knows is untouched
      rcases hs : s.ops with _ | j
      · exact absurd (Or.inl hs) hi
      · have hji : j ≠ i := fun e => hi (Or.inr (hs.trans (congrArg some e)))
        have hheld : (s.calls i).holdsOps = false := h.lock.not_held hi
        have hops : w.ops = some j := (hmove.other hheld hi).trans hs
        have hsup := decisionsCallStep_frame hx hheld
        have hsole := h.sole
        simp only [Decisions.engine, hs] at hsole
        simp only [Decisions.engine, hops, Function.update_of_ne hji, hsup]
        exact hsole

theorem Decisions.EngineOk.oneEngine {s : Decisions} (h : s.EngineOk) :
    OneEngine s.sup (s.ops = none) := by
  refine oneEngine_of_sole h.sole ?_
  intro hfree
  simp only [Decisions.engine, hfree]

/-- As long as `kill` only returns once the killed process has exited, each of the
two supervisors has at most one process alive at any time, and when its `ops` is free
the one alive is the one it records. -/
theorem one_engine_per_supervisor (file : Option LastLaunch) (fails : Int) (acts : List Act)
    (enabled : Bool) (dacts : List DAct)
    (hkill : Meets step killWaits (App.init file fails) acts)
    (hdkill : Meets dstep decisionsKillWaits (Decisions.init enabled) dacts) :
    Always step (fun s => OneEngine s.sup (s.ops = none)) (App.init file fails) acts ∧
      Always dstep (fun s => OneEngine s.sup (s.ops = none)) (Decisions.init enabled) dacts := by
  constructor
  · exact always_of_meets (fun _ h => h.oneEngine) (fun _ _ _ h hG hs => engineOk_step h hG hs)
      (engineOk_init file fails) hkill
  · exact always_of_meets (fun _ h => h.oneEngine)
      (fun _ _ _ h hG hs => decisionsEngineOk_step h hG hs) (decisionsEngineOk_init enabled) hdkill

/-- A launch from the request to the return; `kill` is what happens while the
previous process is killed. -/
def replacingLaunch (i pid : Nat) (r : Launch) (kill : List Act) : List Act :=
  [.call i (.launch r), .call i .launchTake, .call i (.start (.build true)),
    .call i (.start .previous)] ++ kill ++
  [.call i (.start .clear), .call i (.start (.spawn (.ok pid))), .call i (.start (.save (.ok ()))),
    .call i .launchReturn]

/-- A model replaced by another: the first one exits while it is killed. -/
def replaceRun : List Act :=
  replacingLaunch 0 10 ⟨"org/a", "a", [], "vllm"⟩ [] ++
    replacingLaunch 1 11 ⟨"org/b", "b", [], "vllm"⟩
      [.thread 1 .exit, .thread 1 .eof, .thread 1 (.wait (some 0)), .thread 1 .store,
        .call 1 (.start (.killed false))]

/-- The decision engine started and stopped. -/
def startStopRun : List DAct :=
  [.call 0 .start, .call 0 .startTake, .call 0 .startTest, .call 0 (.startAdmit none),
    .call 0 (.startClear "d"), .call 0 (.spawn (.ok 12)), .call 0 .startReturn,
    .call 1 .stop, .call 1 .stopTake, .call 1 .stopWrite, .call 1 .stopKill,
    .thread 1 .exit, .thread 1 .eof, .thread 1 (.wait (some 0)), .thread 1 .store,
    .call 1 (.stopKilled false), .call 1 .stopReturn]

theorem replaceRun_one_engine :
    Meets step killWaits (App.init none 0) replaceRun ∧
    Meets dstep decisionsKillWaits (Decisions.init true) startStopRun ∧
    (exec step (App.init none 0) replaceRun).isSome = true ∧
    (exec dstep (Decisions.init true) startStopRun).isSome = true ∧
    Always step (fun s => OneEngine s.sup (s.ops = none)) (App.init none 0) replaceRun ∧
    Always dstep (fun s => OneEngine s.sup (s.ops = none)) (Decisions.init true) startStopRun := by
  have hkill : Meets step killWaits (App.init none 0) replaceRun := by decide +kernel
  have hdkill : Meets dstep decisionsKillWaits (Decisions.init true) startStopRun := by
    decide +kernel
  exact ⟨hkill, hdkill, by decide +kernel, by decide +kernel,
    one_engine_per_supervisor none 0 replaceRun true startStopRun hkill hdkill⟩

theorem live_alive_replaceRun :
    Meets step App.waitReturns (App.init none 0) replaceRun ∧
    Always step (fun s => ∀ g, (s.sup.procs g).live = true → (s.sup.procs g).alive = true)
      (App.init none 0) replaceRun := by
  have hwait : Meets step App.waitReturns (App.init none 0) replaceRun := by decide +kernel
  exact ⟨hwait, live_alive none 0 replaceRun hwait⟩

end Runner
