import DgxPlatform.Runner.Service
import DgxPlatform.Runner.Decisions

/-! # When a failed launch wedges the runner

`start_process` writes "starting" before the fallible `spawn`, and the watchdog
skips its pass as long as the status is "starting". A spawn error leaves that
status behind: if no process is current, or the exit of the current one is
already recorded, no thread will ever change it again.
-/

namespace Runner

open Run

/-- The current process exists and its exit has not been recorded yet. -/
def Sup.Unrecorded (s : Sup) : Prop :=
  ∃ g, s.shared.proc = some g ∧ (s.procs g).reader ≠ .recorded

/-- `Sup.Unrecorded`, executed. -/
def Sup.unrecorded (s : Sup) : Bool :=
  match s.shared.proc with
  | some g => (s.procs g).reader != .recorded
  | none => false

theorem unrecorded_iff {s : Sup} : s.unrecorded = true ↔ s.Unrecorded := by
  unfold Sup.unrecorded Sup.Unrecorded
  split <;> simp_all

/-- Only the last critical section of the reader records the exit. -/
theorem reader_recorded_move {p p' : Proc} {a : ThreadAct} (h : p.move a = some p')
    (hp : p.reader ≠ .recorded) (ha : a ≠ .record) : p'.reader ≠ .recorded := by
  rcases move_reader h with ⟨-, hreader⟩ | ⟨-, -, hafter⟩ | ⟨-, -, code, hafter⟩ | ⟨hrecord, -⟩
  · rw [hreader]
    exact hp
  · intro he
    rw [he] at hafter
    cases hafter
  · rw [hafter]
    simp
  · exact absurd hrecord ha

/-- "starting" found after a move of a thread was there before, and the current
process is as unrecorded as it was. -/
theorem starting_threadStep {s s' : Sup} {g : Nat} {a : ThreadAct}
    (h : s.threadStep g a = some s') (hst : s'.shared.status = .starting) :
    s.shared.status = .starting ∧ (s.Unrecorded → s'.Unrecorded) := by
  rcases Option.map_eq_some_iff.1 h with ⟨p, hp, rfl⟩
  rcases effect_starting ⟨p, hp⟩ hst with ⟨hold, hrec⟩
  refine ⟨hold, ?_⟩
  rintro ⟨g', hcur, hg'⟩
  refine ⟨g', by simpa using hcur, ?_⟩
  by_cases hgg : g' = g
  · subst hgg
    have ha : a ≠ .record := fun e => hrec e hcur
    simpa using reader_recorded_move hp hg' ha
  · simpa [Function.update_of_ne hgg] using hg'

theorem unrecorded_spawn (s : Sup) (pid : Nat) : (s.spawn pid).Unrecorded :=
  ⟨s.nextGen, rfl, by simp [Sup.spawn, Proc.spawned]⟩

theorem procAlive_of_recorded {s : Sup} (hflag : s.FlagsOk) (hs : ¬ s.Unrecorded) :
    s.procAlive = false := by
  unfold Sup.procAlive
  split
  · rename_i g hg
    have hrec : (s.procs g).reader = .recorded := by
      by_contra hne
      exact hs ⟨g, hg, hne⟩
    have hex : (s.procs g).exited = true := (hflag g).2 (Or.inr hrec)
    simp [Proc.alive, hex]
  · rfl

/-! ## The chat engine -/

/-- Some actor is between the announcement "starting" and its spawn. -/
def App.Spawning (s : App) : Prop :=
  (∃ i r, s.calls i = .launching r .spawning) ∨ ∃ r fails, s.watchdog = .starting r fails .spawning

/-- "starting" has a reason: an exit still to be recorded, or a spawn still to come. -/
structure StartingOk (s : App) : Prop where
  lock : s.LockOk
  flags : s.sup.FlagsOk
  starting : s.sup.shared.status = .starting → s.sup.Unrecorded ∨ s.Spawning

/-- With the lock free, "starting" means that the exit of the current process is
still to be recorded; and the watchdog does not skip its pass once it is. -/
def App.NotWedged (t : App) : Prop :=
  t.ops = none →
    (t.sup.shared.status = .starting → t.sup.Unrecorded) ∧
    (¬ t.sup.Unrecorded → ∀ last b,
      watchdogStep (.loaded last) b .check t.toWorld = some (.checked last, b, t.toWorld))

/-- A spawn fails only while the exit of the current process is to be recorded. -/
def spawnErrorCovered (s : App) : Act → Bool
  | .call _ (.start (.spawn (.error _))) => s.sup.unrecorded
  | .watchdog (.start (.spawn (.error _))) => s.sup.unrecorded
  | _ => true

/-- After a step of `start_process`, "starting" was announced, spawned, or is
the status of an unchanged supervisor; a spawn still to come is left only by a
failed spawn. -/
theorem startStep_starting {r : Launch} {pc pc' : StartPc} {a : StartAct} {w w' : World}
    (h : startStep r pc a w = some (pc', w')) (hst : w'.sup.shared.status = .starting) :
    pc' = .spawning ∨ (∃ pid, w'.sup = w.sup.spawn pid) ∨
      (w.sup.shared.status = .starting ∧ w'.sup.shared.proc = w.sup.shared.proc ∧
        w'.sup.procs = w.sup.procs ∧
        (pc = .spawning → ∃ e, a = .spawn (.error e) ∧ w' = w)) := by
  cases startStep_move h with
  | cleared => exact Or.inl rfl
  | journal line => exact Or.inl rfl
  | spawned pid => exact Or.inr (Or.inl ⟨pid, rfl⟩)
  | spawnFailed e => exact Or.inr (Or.inr ⟨hst, rfl, rfl, fun _ => ⟨e, rfl, rfl⟩⟩)
  | _ => exact Or.inr (Or.inr ⟨hst, rfl, rfl, by simp⟩)

theorem callStep_starting {i : Nat} {pc pc' : CallPc} {a : CallAct} {w w' : World}
    (h : callStep i pc a w = some (pc', w')) (hst : w'.sup.shared.status = .starting) :
    (∃ r, pc' = .launching r .spawning) ∨ (∃ pid, w'.sup = w.sup.spawn pid) ∨
      (w.sup.shared.status = .starting ∧ w'.sup.shared.proc = w.sup.shared.proc ∧
        w'.sup.procs = w.sup.procs ∧
        ((∃ r, pc = .launching r .spawning) → ∃ e, a = .start (.spawn (.error e)))) := by
  cases callStep_move h with
  -- inside `start_process`: the step is one of its own
  | start r sp sa sp' _ hstart =>
    rcases startStep_starting hstart hst with rfl | hsp | ⟨h1, h2, h3, h4⟩
    · exact Or.inl ⟨r, rfl⟩
    · exact Or.inr (Or.inl hsp)
    · refine Or.inr (Or.inr ⟨h1, h2, h3, ?_⟩)
      rintro ⟨r', hr'⟩
      cases hr'
      rcases h4 rfl with ⟨e, rfl, -⟩
      exact ⟨e, rfl⟩
  | stopWrite => cases hst
  | _ => exact Or.inr (Or.inr ⟨hst, rfl, rfl, by simp⟩)

theorem watchdogStep_starting {pc pc' : WatchdogPc} {b b' : Bool} {a : WatchdogAct}
    {w w' : World} (h : watchdogStep pc b a w = some (pc', b', w'))
    (hst : w'.sup.shared.status = .starting) :
    (∃ r fails, pc' = .starting r fails .spawning) ∨ (∃ pid, w'.sup = w.sup.spawn pid) ∨
      (w.sup.shared.status = .starting ∧ w'.sup.shared.proc = w.sup.shared.proc ∧
        w'.sup.procs = w.sup.procs ∧
        ((∃ r fails, pc = .starting r fails .spawning) → ∃ e, a = .start (.spawn (.error e)))) := by
  cases watchdogStep_move h with
  -- inside `start_process`: the step is one of its own
  | start r fails sp sa sp' _ hstart =>
    rcases startStep_starting hstart hst with rfl | hsp | ⟨h1, h2, h3, h4⟩
    · exact Or.inl ⟨r, fails, rfl⟩
    · exact Or.inr (Or.inl hsp)
    · refine Or.inr (Or.inr ⟨h1, h2, h3, ?_⟩)
      rintro ⟨r', fails', hr'⟩
      cases hr'
      rcases h4 rfl with ⟨e, rfl, -⟩
      exact ⟨e, rfl⟩
  | disabled last tokens hmax =>
    cases b <;> exact Or.inr (Or.inr ⟨hst, rfl, rfl, by simp⟩)
  | _ => exact Or.inr (Or.inr ⟨hst, rfl, rfl, by simp⟩)

theorem unrecorded_congr {s s' : Sup} (hproc : s'.shared.proc = s.shared.proc)
    (hprocs : s'.procs = s.procs) (hs : s.Unrecorded) : s'.Unrecorded := by
  rcases hs with ⟨g, hcur, hg⟩
  exact ⟨g, by rw [hproc, hcur], by rwa [hprocs]⟩

theorem startingOk_init (file : Option LastLaunch) (fails : Int) :
    StartingOk (App.init file fails) where
  lock := lockOk_init file fails
  flags := flagsOk_init
  starting := by simp [App.init, Sup.init]

theorem startingOk_step {s s' : App} {a : Act} (hs : StartingOk s)
    (hG : spawnErrorCovered s a) (h : step s a = some s') : StartingOk s' := by
  refine ⟨lockOk_step h hs.lock, flagsOk_step h hs.flags, fun hst => ?_⟩
  cases a with
  | thread g a =>
    rcases step_thread h with ⟨sup, hth, rfl⟩
    rcases starting_threadStep hth hst with ⟨hold, hkeep⟩
    rcases hs.starting hold with hu | hsp
    · exact Or.inl (hkeep hu)
    · exact Or.inr hsp
  | call i a =>
    rcases step_call h with ⟨pc, w, hx, rfl⟩
    rcases callStep_starting hx hst with ⟨r, rfl⟩ | ⟨pid, hsp⟩ | ⟨hold, hproc, hprocs, hpc⟩
    · exact Or.inr (Or.inl ⟨i, r, by simp⟩)
    · left
      rw [show _ = _ from hsp]
      exact unrecorded_spawn s.sup pid
    · rcases hs.starting hold with hu | ⟨j, r, hj⟩ | hw
      · exact Or.inl (unrecorded_congr hproc hprocs hu)
      · by_cases hji : j = i
        · -- the spawning call itself moved on: only by a failed spawn
          subst hji
          rcases hpc ⟨r, hj⟩ with ⟨e, rfl⟩
          have hu : s.sup.Unrecorded := unrecorded_iff.1 hG
          exact Or.inl (unrecorded_congr hproc hprocs hu)
        · exact Or.inr (Or.inl ⟨j, r, by simpa [Function.update_of_ne hji] using hj⟩)
      · exact Or.inr (Or.inr hw)
  | watchdog a =>
    rcases step_watchdog h with ⟨pc, b, w, hx, rfl⟩
    rcases watchdogStep_starting hx hst with ⟨r, fails, rfl⟩ | ⟨pid, hsp⟩ |
      ⟨hold, hproc, hprocs, hpc⟩
    · exact Or.inr (Or.inr ⟨r, fails, rfl⟩)
    · left
      rw [show _ = _ from hsp]
      exact unrecorded_spawn s.sup pid
    · rcases hs.starting hold with hu | hc | ⟨r, fails, hw⟩
      · exact Or.inl (unrecorded_congr hproc hprocs hu)
      · exact Or.inr (Or.inl hc)
      · -- the watchdog itself moved on: only by a failed spawn
        rcases hpc ⟨r, fails, hw⟩ with ⟨e, rfl⟩
        have hu : s.sup.Unrecorded := unrecorded_iff.1 hG
        exact Or.inl (unrecorded_congr hproc hprocs hu)

theorem not_spawning_of_free {s : App} (hlock : s.LockOk) (hops : s.ops = none) :
    ¬ s.Spawning := by
  rintro (⟨i, r, hi⟩ | ⟨r, fails, hw⟩)
  · have hfree := hlock.free hops (.call i)
    simp [App.held, hi, CallPc.holdsOps] at hfree
  · have hfree := hlock.free hops .watchdog
    simp [App.held, hw, WatchdogPc.holdsOps] at hfree

theorem notWedged_of_startingOk {t : App} (ht : StartingOk t) : t.NotWedged := by
  intro hops
  have hstart : t.sup.shared.status = .starting → t.sup.Unrecorded := by
    intro hst
    rcases ht.starting hst with hu | hsp
    · exact hu
    · exact absurd hsp (not_spawning_of_free ht.lock hops)
  refine ⟨hstart, fun hrec last b => ?_⟩
  -- neither half of the skip condition of the pass holds
  have halive := procAlive_of_recorded ht.flags hrec
  have hst : t.sup.shared.status ≠ .starting := fun hst => hrec (hstart hst)
  simp [watchdogStep, halive, hst]

/-! ## The decision engine -/

/-- With the lock free, "starting" means that the exit of the current process is
still to be recorded. -/
def Decisions.NotWedged (t : Decisions) : Prop :=
  t.ops = none → t.sup.shared.status = .starting → t.sup.Unrecorded

structure DStartingOk (s : Decisions) : Prop where
  lock : s.LockOk
  starting : s.sup.shared.status = .starting →
    s.sup.Unrecorded ∨ ∃ i, s.calls i = .startSpawning

/-- A spawn fails only while the exit of the current process is to be recorded. -/
def spawnErrorCoveredD (s : Decisions) : DAct → Bool
  | .call _ (.spawn (.error _)) => s.sup.unrecorded
  | _ => true

theorem decisionsCallStep_starting {en : Bool} {i : Nat} {pc pc' : DecisionsPc}
    {a : DecisionsAct} {w w' : DecisionsWorld}
    (h : decisionsCallStep en i pc a w = some (pc', w'))
    (hst : w'.sup.shared.status = .starting) :
    pc' = .startSpawning ∨ (∃ pid, w'.sup = w.sup.spawn pid) ∨
      (w.sup.shared.status = .starting ∧ w'.sup.shared.proc = w.sup.shared.proc ∧
        w'.sup.procs = w.sup.procs ∧
        (pc = .startSpawning → ∃ e, a = .spawn (.error e))) := by
  cases decisionsCallStep_move h with
  | cleared name => exact Or.inl rfl
  | spawned pid => exact Or.inr (Or.inl ⟨pid, rfl⟩)
  | spawnFailed e => exact Or.inr (Or.inr ⟨hst, rfl, rfl, fun _ => ⟨e, rfl⟩⟩)
  | stopWrite => cases hst
  | _ => exact Or.inr (Or.inr ⟨hst, rfl, rfl, by simp⟩)

theorem dstartingOk_init (enabled : Bool) : DStartingOk (Decisions.init enabled) where
  lock := decisionsLockOk_init enabled
  starting := by simp [Decisions.init, Sup.init]

theorem dstartingOk_step {s s' : Decisions} {a : DAct} (hs : DStartingOk s)
    (hG : spawnErrorCoveredD s a) (h : dstep s a = some s') : DStartingOk s' := by
  refine ⟨decisionsLockOk_step h hs.lock, fun hst => ?_⟩
  cases a with
  | thread g a =>
    rcases dstep_thread h with ⟨sup, hth, rfl⟩
    rcases starting_threadStep hth hst with ⟨hold, hkeep⟩
    rcases hs.starting hold with hu | hsp
    · exact Or.inl (hkeep hu)
    · exact Or.inr hsp
  | call i a =>
    rcases dstep_call h with ⟨pc, w, hx, rfl⟩
    rcases decisionsCallStep_starting hx hst with rfl | ⟨pid, hsp⟩ | ⟨hold, hproc, hprocs, hpc⟩
    · exact Or.inr ⟨i, by simp⟩
    · left
      rw [show _ = _ from hsp]
      exact unrecorded_spawn s.sup pid
    · rcases hs.starting hold with hu | ⟨j, hj⟩
      · exact Or.inl (unrecorded_congr hproc hprocs hu)
      · by_cases hji : j = i
        · subst hji
          -- the spawning call itself moved on: only by a failed spawn
          rcases hpc hj with ⟨e, rfl⟩
          have hu : s.sup.Unrecorded := unrecorded_iff.1 hG
          exact Or.inl (unrecorded_congr hproc hprocs hu)
        · exact Or.inr ⟨j, by simpa [Function.update_of_ne hji] using hj⟩

theorem notWedged_of_dstartingOk {t : Decisions} (ht : DStartingOk t) : t.NotWedged := by
  intro hops hst
  rcases ht.starting hst with hu | ⟨i, hi⟩
  · exact hu
  · have hfree := ht.lock.free hops i
    simp [Decisions.held, hi, DecisionsPc.holdsOps] at hfree

/-- Every state reached by the run is not wedged. -/
def NoWedge (file : Option LastLaunch) (fails : Int) (run : List Act) : Prop :=
  ∀ t, exec step (App.init file fails) run = some t → t.NotWedged

def DNoWedge (enabled : Bool) (run : List DAct) : Prop :=
  ∀ t, exec dstep (Decisions.init enabled) run = some t → t.NotWedged

/-- Both services: no run wedges in which every failed spawn finds the exit of
the current process still to be recorded. -/
theorem not_wedged_of_spawn_errors (file : Option LastLaunch) (fails : Int) (enabled : Bool) :
    (∀ run, Meets step (spawnErrorCovered · ·) (App.init file fails) run →
      NoWedge file fails run) ∧
    (∀ run, Meets dstep (spawnErrorCoveredD · ·) (Decisions.init enabled) run →
      DNoWedge enabled run) := by
  constructor
  · intro run hG t hrun
    exact notWedged_of_startingOk
      (exec_inv (fun s a s' hs hGa h => startingOk_step hs hGa h) (startingOk_init file fails)
        hG hrun)
  · intro run hG t hrun
    exact notWedged_of_dstartingOk
      (exec_inv (fun s a s' hs hGa h => dstartingOk_step hs hGa h) (dstartingOk_init enabled)
        hG hrun)

/-- The first launch of a service, whose engine binary cannot be started. -/
def failedLaunch : List Act :=
  [.call 0 (.launch ⟨"org/model", "model", [], "vllm"⟩), .call 0 .launchTake,
    .call 0 (.start (.build true)), .call 0 (.start .previous), .call 0 (.start .clear),
    .call 0 (.start (.spawn (.error "No such file or directory (os error 2)"))),
    .call 0 .launchReturn]

/-- One failed spawn wedges the service: the lock is free, no process exists, and
the status stays "starting". -/
theorem launch_failure_wedges : ¬ NoWedge none 0 failedLaunch := by
  intro h
  rcases (h _ rfl rfl).1 rfl with ⟨g, hg, -⟩
  cases hg

/-- A refused command and a refused admission do not wedge. -/
theorem refused_launch_not_wedged :
    NoWedge none 0
      [.call 0 (.launch ⟨"org/model", "model", [], "vllm"⟩), .call 0 .launchTake,
        .call 0 (.start (.build false)), .call 0 .launchReturn] ∧
    DNoWedge true [.call 0 .start, .call 0 .startTake, .call 0 .startTest,
      .call 0 (.startAdmit (some 409)), .call 0 .startReturn] :=
  ⟨(not_wedged_of_spawn_errors _ _ true).1 _ (by decide),
    (not_wedged_of_spawn_errors none 0 true).2 _ (by decide)⟩

end Runner
