import DgxPlatform.Runner.Service

/-! # When a deliberate stop is final

`App::stop` forgets the launch by removing the state file, before it takes
`ops`; `launch` and the watchdog write that file under `ops`, and the watchdog
acts on a copy it read earlier. So a stop is final only if nothing of the old
launch survives the moment it gets the lock: the file is still absent and the
watchdog carries no copy.

The invariant is `StopsForget`: while a stop holds the lock, the launch is
forgotten (`Forgotten`); being forgotten is kept by every step but a launch's
`launchTake`.
-/

namespace Runner

open Run

/-- The watchdog carries a copy `last` of the state file. -/
def WatchdogPc.hasCopy : WatchdogPc → Bool
  | .sleeping | .tested _ | .loading => false
  | _ => true

/-- The call is inside `start_process`. -/
def CallPc.isLaunching : CallPc → Bool
  | .launching _ _ => true
  | _ => false

/-- The call is a stop that has taken `ops`. -/
def CallPc.stopHolds : CallPc → Bool
  | .stopLocked | .stopKilling _ | .stopKilled | .stopReturning _ => true
  | _ => false

/-- A launch takes `ops`. -/
def Act.IsLaunchTake (a : Act) : Prop := ∃ i, a = .call i .launchTake

/-- A run from a fresh service in which call `i` of `stop` returns after
`before` and no launch takes `ops` in `after`: nothing is spawned in `after` and
the state file is absent at its end. -/
def StopFinal (file : Option LastLaunch) (fails : Int) (before : List Act) (i : Nat)
    (after : List Act) : Prop :=
  ∀ t, exec step (App.init file fails) (before ++ .call i .stopReturn :: after) = some t →
    (∀ a ∈ after, ¬ a.IsLaunchTake) → t.stateFile = none ∧ ∀ a ∈ after, ¬ a.IsSpawn

/-- Whenever a stop takes `ops`, the state file is absent and the watchdog
carries no copy of it. -/
def stopUndisturbed (s : App) : Act → Bool
  | .call _ .stopTake => s.stateFile.isNone && !s.watchdog.hasCopy
  | _ => true

/-- Nothing of the old launch survives: no file, no copy, no `start_process`. -/
structure Forgotten (s : App) : Prop where
  file : s.stateFile = none
  copy : s.watchdog.hasCopy = false
  launching : ∀ i, (s.calls i).isLaunching = false

/-- While a stop holds the lock, the launch is forgotten. -/
structure StopsForget (s : App) : Prop where
  lock : s.LockOk
  forgotten : ∀ i, (s.calls i).stopHolds = true → Forgotten s

theorem holdsOps_of_isLaunching {pc : CallPc} (h : pc.isLaunching = true) : pc.holdsOps = true := by
  cases pc <;> simp_all [CallPc.isLaunching, CallPc.holdsOps]

theorem holdsOps_of_stopHolds {pc : CallPc} (h : pc.stopHolds = true) : pc.holdsOps = true := by
  cases pc <;> simp_all [CallPc.stopHolds, CallPc.holdsOps]

variable {i : Nat}

/-- A call that is not launching starts no `start_process` except by
`launchTake`, and only clears the state file. -/
theorem callStep_forgotten {pc pc' : CallPc} {a : CallAct} {w w' : World}
    (h : callStep i pc a w = some (pc', w')) (hpc : pc.isLaunching = false)
    (ha : a ≠ .launchTake) (hw : w.stateFile = none) :
    pc'.isLaunching = false ∧ w'.stateFile = none := by
  cases callStep_move h with
  | launchTake r hfree => exact absurd rfl ha
  | start r sp sa sp' _ hstart => cases hpc
  | launchOk r => cases hpc
  | launchFailed r => cases hpc
  | stop => exact ⟨rfl, rfl⟩
  | _ => exact ⟨rfl, hw⟩

/-- A watchdog without a copy finds none when the state file is absent. -/
theorem watchdogStep_forgotten {pc pc' : WatchdogPc} {b b' : Bool} {a : WatchdogAct}
    {w w' : World} (h : watchdogStep pc b a w = some (pc', b', w')) (hpc : pc.hasCopy = false)
    (hw : w.stateFile = none) : pc'.hasCopy = false ∧ w'.stateFile = none := by
  cases watchdogStep_move h with
  | load last hfile =>
    rw [hw] at hfile
    cases hfile
  | tick elapsed => exact ⟨rfl, hw⟩
  | reset hfails => exact ⟨rfl, hw⟩
  | kept stable hkept => exact ⟨rfl, hw⟩
  | noFile hfile => exact ⟨rfl, hw⟩
  | _ => cases hpc

variable {s s' : App}

theorem forgotten_step {a : Act} (h : step s a = some s') (hs : Forgotten s)
    (ha : ¬ a.IsLaunchTake) : Forgotten s' := by
  cases a with
  | thread g a =>
    rcases step_thread h with ⟨sup, -, rfl⟩
    exact ⟨hs.file, hs.copy, hs.launching⟩
  | call i a =>
    rcases step_call h with ⟨pc, w, hx, rfl⟩
    have ha' : a ≠ .launchTake := fun e => ha ⟨i, by rw [e]⟩
    have hcall := callStep_forgotten hx (hs.launching i) ha' hs.file
    refine ⟨hcall.2, hs.copy, fun j => ?_⟩
    by_cases hj : j = i
    · subst hj
      simpa using hcall.1
    · simpa [Function.update_of_ne hj] using hs.launching j
  | watchdog a =>
    rcases step_watchdog h with ⟨pc, b, w, hx, rfl⟩
    have hw := watchdogStep_forgotten hx hs.copy hs.file
    exact ⟨hw.2, hw.1, hs.launching⟩

theorem step_spawn_of_forgotten {s : App} {a : Act} (hs : Forgotten s) (ha : a.IsSpawn) : step s a = none := by
  by_contra hne
  obtain ⟨s', hs'⟩ := Option.ne_none_iff_exists'.1 hne
  rcases ha with ⟨pid, ⟨i, rfl⟩ | rfl⟩
  · have hi := hs.launching i
    obtain ⟨pc, w, hx, -⟩ := step_call hs'
    generalize s.calls i = pc₀ at hi hx
    cases callStep_move hx with
    | start r sp sa sp' _ hstart => cases hi
  · have hw := hs.copy
    obtain ⟨pc, b, w, hx, -⟩ := step_watchdog hs'
    generalize s.watchdog = pc₀ at hw hx
    cases watchdogStep_move hx with
    | start r fails sp sa sp' _ hstart => cases hw

theorem not_launchTake_of_stopHolds {a : Act} (h : step s a = some s')
    (hlock : s.LockOk) (hi : (s.calls i).stopHolds = true) : ¬ a.IsLaunchTake := by
  rintro ⟨j, rfl⟩
  have hops : s.ops = some (.call i) := (hlock (.call i)).1 (holdsOps_of_stopHolds hi)
  obtain ⟨pc, w, hx, -⟩ := step_call h
  generalize s.calls j = pc₀ at hx
  cases callStep_move hx with
  | launchTake r hfree =>
    rw [hfree] at hops
    cases hops

/-- A call enters the critical section of a stop only by `stopTake`. -/
theorem callStep_stopHolds {pc pc' : CallPc} {a : CallAct} {w w' : World}
    (h : callStep i pc a w = some (pc', w')) (hpc' : pc'.stopHolds = true)
    (hpc : pc.stopHolds = false) : a = .stopTake ∧ w.ops = none ∧ w'.stateFile = w.stateFile := by
  cases callStep_move h with
  | stopTake hfree => exact ⟨rfl, hfree, rfl⟩
  | stopFound g hproc halive => cases hpc
  | stopDead g hproc hdead => cases hpc
  | stopNone hproc => cases hpc
  | stopKilled g gaveUp hkill => cases hpc
  | stopWrite => cases hpc
  | _ => cases hpc'

theorem stopsForget_init (file : Option LastLaunch) (fails : Int) : StopsForget (App.init file fails) where
  lock := lockOk_init file fails
  forgotten := by simp [App.init, CallPc.stopHolds]

/-- The step that gives a stop the lock: under the condition, the launch is
forgotten from there. -/
theorem forgotten_of_stopTake (h : step s (.call i .stopTake) = some s')
    (hlock : s.LockOk) (hG : stopUndisturbed s (.call i .stopTake)) : Forgotten s' := by
  have hcond : s.stateFile = none ∧ s.watchdog.hasCopy = false := by
    simpa [stopUndisturbed] using hG
  rcases hcond with ⟨hfile, hcopy⟩
  have hops : s.ops = none := by
    obtain ⟨pc, w, hx, -⟩ := step_call h
    generalize s.calls i = pc₀ at hx
    cases callStep_move hx with
    | stopTake hfree => exact hfree
  -- the lock was free, so no call was inside `start_process`
  have hidle : ∀ j, (s.calls j).isLaunching = false := by
    intro j
    by_contra hj
    have hheld : s.held (.call j) = true := holdsOps_of_isLaunching (by simpa using hj)
    rw [hlock.free hops] at hheld
    cases hheld
  refine forgotten_step h ⟨hfile, hcopy, hidle⟩ ?_
  rintro ⟨j, hj⟩
  cases hj

theorem stopsForget_step {a : Act} (hs : StopsForget s) (hG : stopUndisturbed s a)
    (h : step s a = some s') : StopsForget s' := by
  refine ⟨lockOk_step h hs.lock, fun i hi => ?_⟩
  by_cases hold : (s.calls i).stopHolds = true
  · -- the stop already held the lock: every step keeps `Forgotten`
    exact forgotten_step h (hs.forgotten i hold) (not_launchTake_of_stopHolds h hs.lock hold)
  · -- the stop has just taken it
    have hold' : (s.calls i).stopHolds = false := by simpa using hold
    cases a with
    | thread g a =>
      rcases step_thread h with ⟨sup, -, rfl⟩
      exact absurd hi hold
    | watchdog a =>
      rcases step_watchdog h with ⟨pc, b, w, -, rfl⟩
      exact absurd hi hold
    | call j a =>
      rcases step_call h with ⟨pc, w, hx, hs'⟩
      by_cases hij : i = j
      · subst hij
        have hpc : pc.stopHolds = true := by simpa [hs'] using hi
        rcases callStep_stopHolds hx hpc hold' with ⟨rfl, -, -⟩
        exact forgotten_of_stopTake h hs.lock hG
      · have hsame : (s'.calls i).stopHolds = (s.calls i).stopHolds := by
          simp [hs', Function.update_of_ne hij]
        rw [hsame] at hi
        exact absurd hi hold

theorem forgotten_of_stopReturn
    (h : step s (.call i .stopReturn) = some s') (hs : StopsForget s) : Forgotten s' := by
  have hi : (s.calls i).stopHolds = true := by
    rcases step_call h with ⟨pc, w, hx, -⟩
    unfold callStep at hx
    split at hx <;> simp_all [CallPc.stopHolds]
  refine forgotten_step h (hs.forgotten i hi) ?_
  rintro ⟨j, hj⟩
  cases hj

/-- In every run in which each stop takes the lock undisturbed, a stop that has
returned is final until a launch takes the lock. -/
theorem stop_final_of_undisturbed (file : Option LastLaunch) (fails : Int) (before : List Act)
    (i : Nat) (after : List Act)
    (hG : Meets step (stopUndisturbed · ·) (App.init file fails)
      (before ++ .call i .stopReturn :: after)) :
    StopFinal file fails before i after := by
  intro t hrun hlaunch
  have hafter : ∀ (post : List Act) (u : App), (∀ a ∈ post, ¬ a.IsLaunchTake) →
      Meets step (stopUndisturbed · ·) (App.init file fails) (before ++ .call i .stopReturn :: post) →
      exec step (App.init file fails) (before ++ .call i .stopReturn :: post) = some u →
      Forgotten u := by
    intro post u hpost hGpost hu
    exact (exec_after (R := Act.IsLaunchTake)
      (fun s a s' hs hGa h => stopsForget_step hs hGa h)
      (fun s a s' _ hQ _ hR h => forgotten_step h hQ hR)
      (fun m m' _ hm _ h => forgotten_of_stopReturn h hm)
      (stopsForget_init file fails) hGpost hpost hu).2
  refine ⟨(hafter after t hlaunch hG hrun).file, ?_⟩
  intro a ha hspawn
  -- cut the run right before the spawn: the state there disables it
  rcases List.append_of_mem ha with ⟨post, rest, rfl⟩
  have hsplit : before ++ Act.call i .stopReturn :: (post ++ a :: rest) =
      (before ++ .call i .stopReturn :: post) ++ a :: rest := by simp
  rw [hsplit] at hrun hG
  rcases exec_append_eq_some.1 hrun with ⟨u, hu, hut⟩
  rcases exec_cons_eq_some.1 hut with ⟨u', hua, -⟩
  have hforgot : Forgotten u :=
    hafter post u (fun b hb => hlaunch b (by simp [hb])) (meets_append.1 hG).1 hu
  rw [step_spawn_of_forgotten hforgot hspawn] at hua
  cases hua

/-- The watchdog holds its copy while an admin stops the crashed model. -/
def resumeRace : List Act :=
  [.watchdog (.tick false), .watchdog .reset, .watchdog .load, .watchdog .check,
    .watchdog (.validate (.ok [])), .watchdog (.memory true "[runner] Memory released"),
    .call 0 .stop, .call 0 .stopTake, .call 0 .stopProbe]

/-- The watchdog then takes the lock and starts the stopped model again. -/
def resumeAfterStop : List Act :=
  [.watchdog .take, .watchdog .recheck, .watchdog (.start (.build true)),
    .watchdog (.start .previous), .watchdog (.start .clear),
    .watchdog (.start (.spawn (.ok 4242))), .watchdog (.start (.save (.ok ())))]

/-- A stop is not final in general: the watchdog, which read the file before the
stop removed it, spawns the model and writes the file again. -/
theorem stop_not_final :
    ¬ StopFinal (some ⟨"org/model", "model", "", "vllm"⟩) 0 resumeRace 0 resumeAfterStop := by
  intro h
  have hlaunch : ∀ a ∈ resumeAfterStop, ¬ a.IsLaunchTake := by
    simp [resumeAfterStop, Act.IsLaunchTake]
  have hfile := (h _ rfl hlaunch).1
  simp [Launch.saved] at hfile

/-- A stop between two passes of the watchdog is undisturbed: the run exists, and
the next pass finds no file. -/
theorem stop_final_between_passes : (exec step (App.init (some ⟨"org/model", "model", "", "vllm"⟩) 0)
      [.call 0 .stop, .call 0 .stopTake, .call 0 .stopProbe, .call 0 .stopReturn,
        .watchdog (.tick false), .watchdog .reset, .watchdog .load]).isSome ∧
    StopFinal (some ⟨"org/model", "model", "", "vllm"⟩) 0
      [.call 0 .stop, .call 0 .stopTake, .call 0 .stopProbe] 0
      [.watchdog (.tick false), .watchdog .reset, .watchdog .load] :=
  ⟨by decide, stop_final_of_undisturbed _ _ _ _ _ (by decide)⟩

end Runner
