import Mathlib.Algebra.Order.Ring.Int
import DgxPlatform.Runner.Service

/-! # Auto-resume is bounded

The watchdog resumes a model that stopped on its own, and counts the failures on
disk. It reads the counter early in its pass and writes it in four places: 0 once
a model is stable, the maximum when the saved arguments are refused, one more when
the memory is not there, one more when it starts the model.

The runs here are those of the service with restarts of the daemon at any point: a
restart loses everything but the two files. The counter read in a pass stays the
one on disk until the pass writes it (`CounterOk`), since nobody else writes it;
from a 0 on, every automatic start costs one of the retries.
-/

namespace Runner

open Run

/-- A label of the daemon: a step of the service, or the daemon starts anew. -/
inductive DaemonAct where
  | act (a : Act)
  | restart

/-- One step of the daemon. A restart keeps what is on disk. -/
def daemonStep (s : App) : DaemonAct → Option App
  | .act a => step s a
  | .restart => some (App.init s.stateFile s.resumeFails)

/-- The watchdog is inside `start_process`. -/
def WatchdogPc.isStarting : WatchdogPc → Bool
  | .starting _ _ _ => true
  | _ => false

/-- The step from `s` to `s'` is an automatic start: the watchdog calls
`start_process`. -/
def autoStart (s s' : App) : Bool := !s.watchdog.isStarting && s'.watchdog.isStarting

/-- What the watchdog writes into the counter file in one step. -/
def watchdogWrites (pc : WatchdogPc) (a : WatchdogAct) (w : World) : Option Int :=
  match pc, a with
  | .tested stable, .reset => if stable = true ∧ w.resumeFails ≠ 0 then some 0 else none
  | .checked _, .validate tokens =>
      if w.resumeFails ≥ maxAutoRetries then none
      else
        match tokens with
        | .ok _ => none
        | .error _ => some maxAutoRetries
  | .admitted _ fails, .memory ok _ => if ok then none else some (fails + 1)
  | .locked _ fails, .recheck => if w.sup.procAlive then none else some (fails + 1)
  | _, _ => none

/-- What a step writes into the counter file. -/
def written (s : App) : DaemonAct → Option Int
  | .act (.watchdog a) => watchdogWrites s.watchdog a s.toWorld
  | _ => none

/-- The automatic starts along a run. -/
def autoStarts (s : App) : List DaemonAct → Nat
  | [] => 0
  | a :: as =>
      match daemonStep s a with
      | none => 0
      | some s' => (if autoStart s s' then 1 else 0) + autoStarts s' as

/-! ## Who writes the counter -/

theorem startStep_resumeFails {r : Launch} {pc pc' : StartPc} {a : StartAct} {w w' : World}
    (h : startStep r pc a w = some (pc', w')) : w'.resumeFails = w.resumeFails := by
  cases startStep_move h <;> rfl

theorem callStep_resumeFails {i : Nat} {pc pc' : CallPc} {a : CallAct} {w w' : World}
    (h : callStep i pc a w = some (pc', w')) : w'.resumeFails = w.resumeFails := by
  cases callStep_move h with
  | start r sp sa sp' _ hstart => exact startStep_resumeFails hstart
  | _ => rfl

/-- The counter a pass has read is the one on disk, and below the maximum. -/
def WatchdogPc.counterOk (disk : Int) : WatchdogPc → Prop
  | .admitted _ fails => disk = fails ∧ fails < maxAutoRetries
  | .wanting _ fails => disk = fails ∧ fails < maxAutoRetries
  | .locked _ fails => disk = fails ∧ fails < maxAutoRetries
  | _ => True

theorem watchdogStep_resumeFails {pc pc' : WatchdogPc} {b b' : Bool} {a : WatchdogAct}
    {w w' : World} (h : watchdogStep pc b a w = some (pc', b', w')) :
    w'.resumeFails = (watchdogWrites pc a w).getD w.resumeFails := by
  cases watchdogStep_move h with
  | start r fails sp sa sp' _ hstart => exact startStep_resumeFails hstart
  | reset hfails => simp [watchdogWrites, hfails]
  | kept stable hkept => rw [watchdogWrites, if_neg hkept, Option.getD_none]
  | disabled last tokens hmax =>
    have hw : watchdogWrites (.checked last) (.validate tokens) w = none := if_pos hmax
    rw [hw]
    cases b <;> rfl
  | admitted last ts hmax =>
    rw [watchdogWrites, if_neg hmax]
    rfl
  | invalid last e hmax =>
    rw [watchdogWrites, if_neg hmax]
    rfl
  | alive r fails halive => simp [watchdogWrites, halive]
  | begin r fails hdead => simp [watchdogWrites, hdead]
  | _ => rfl

theorem watchdogStep_counterOk {pc pc' : WatchdogPc} {b b' : Bool} {a : WatchdogAct}
    {w w' : World} (h : watchdogStep pc b a w = some (pc', b', w'))
    (hok : pc.counterOk w.resumeFails) : pc'.counterOk w'.resumeFails := by
  cases watchdogStep_move h with
  | admitted last ts hmax => exact ⟨rfl, not_le.1 hmax⟩
  | fits r fails line => exact hok
  | take r fails hfree => exact hok
  | _ => trivial

/-- The watchdog enters `start_process` only below the maximum, with one more on
disk. -/
theorem watchdogStep_start {pc pc' : WatchdogPc} {b b' : Bool} {a : WatchdogAct}
    {w w' : World} (h : watchdogStep pc b a w = some (pc', b', w'))
    (hok : pc.counterOk w.resumeFails) (hout : pc.isStarting = false)
    (hin : pc'.isStarting = true) :
    w.resumeFails < maxAutoRetries ∧ w'.resumeFails = w.resumeFails + 1 := by
  cases watchdogStep_move h with
  | begin r fails hdead =>
    obtain ⟨hdisk, hmax⟩ := hok
    rw [hdisk]
    exact ⟨hmax, rfl⟩
  | start r fails sp sa sp' _ hstart => cases hout
  | _ => cases hin

theorem le_of_watchdogWrites {pc : WatchdogPc} {a : WatchdogAct} {w : World} {n : Int}
    (hok : pc.counterOk w.resumeFails) (h : watchdogWrites pc a w = some n) (hn : n ≠ 0) :
    w.resumeFails ≤ n := by
  unfold watchdogWrites at h
  split at h
  case h_1 =>
    split at h
    · cases h
      exact absurd rfl hn
    · cases h
  case h_2 =>
    split at h
    · cases h
    · split at h <;> cases h
      omega
  case h_3 r fails ok line =>
    obtain ⟨hd, -⟩ := hok
    split at h <;> cases h
    omega
  case h_4 r fails =>
    obtain ⟨hd, -⟩ := hok
    split at h <;> cases h
    omega
  case h_5 => cases h

/-! ## Runs of the daemon -/

/-- The counter the watchdog goes by is the one on disk. -/
def App.CounterOk (s : App) : Prop := s.watchdog.counterOk s.resumeFails

theorem counterOk_init (file : Option LastLaunch) (fails : Int) :
    (App.init file fails).CounterOk := trivial

/-- A step of the daemon writes what `written` says, keeps the watchdog's copy of the
counter right, and starts a model only below the maximum and with one more on disk. -/
theorem daemonStep_counter {s s' : App} {a : DaemonAct} (h : daemonStep s a = some s')
    (hs : s.CounterOk) :
    s'.CounterOk ∧ s'.resumeFails = (written s a).getD s.resumeFails ∧
      (autoStart s s' = true →
        s.resumeFails < maxAutoRetries ∧ s'.resumeFails = s.resumeFails + 1) := by
  cases a with
  | restart =>
    cases h
    refine ⟨counterOk_init _ _, rfl, ?_⟩
    intro hst
    simp [autoStart, App.init, WatchdogPc.isStarting] at hst
  | act a =>
    cases a with
    | thread g a =>
      rcases step_thread h with ⟨sup, -, rfl⟩
      exact ⟨hs, rfl, fun hst => by simp [autoStart] at hst⟩
    | call i a =>
      rcases step_call h with ⟨pc, w, hx, rfl⟩
      have hf : w.resumeFails = s.resumeFails := callStep_resumeFails hx
      refine ⟨?_, hf, fun hst => by simp [autoStart] at hst⟩
      show s.watchdog.counterOk w.resumeFails
      rw [hf]
      exact hs
    | watchdog a =>
      rcases step_watchdog h with ⟨pc, b, w, hx, rfl⟩
      refine ⟨watchdogStep_counterOk hx hs, watchdogStep_resumeFails hx, ?_⟩
      intro hst
      simp only [autoStart, Bool.and_eq_true, Bool.not_eq_true'] at hst
      exact watchdogStep_start hx hs hst.1 hst.2

theorem counterOk_reachable {file : Option LastLaunch} {fails : Int} {pre : List DaemonAct}
    {s : App} (hpre : exec daemonStep (App.init file fails) pre = some s) : s.CounterOk := by
  refine exec_kept ?_ (counterOk_init file fails) hpre
  intro m a m' hm hstep
  exact (daemonStep_counter hstep hm).1

theorem daemonStep_mono {s s' : App} {a : DaemonAct} (h : daemonStep s a = some s')
    (hs : s.CounterOk) (hz : written s a ≠ some 0) : s.resumeFails ≤ s'.resumeFails := by
  have hw := (daemonStep_counter h hs).2.1
  cases hn : written s a with
  | none =>
    rw [hn] at hw
    exact le_of_eq hw.symm
  | some n =>
    rw [hn] at hw hz
    have hne : n ≠ 0 := fun h0 => hz (by rw [h0])
    rw [hw]
    cases a with
    | restart => cases hn
    | act a =>
      cases a with
      | thread g a => cases hn
      | call i a => cases hn
      | watchdog a => exact le_of_watchdogWrites hs hn hne

/-- From a counter `c` on, as long as no 0 is written, at most `max - c` automatic
starts: each one moves the counter up, and none happens at the maximum. -/
theorem autoStarts_le {as : List DaemonAct} {s : App} (hs : s.CounterOk)
    (hz : Meets daemonStep (fun s a => written s a ≠ some 0) s as) :
    (autoStarts s as : Int) ≤ max 0 (maxAutoRetries - s.resumeFails) := by
  induction as generalizing s with
  | nil => simp [autoStarts]
  | cons a as ih =>
    rw [autoStarts]
    cases hstep : daemonStep s a with
    | none => simp
    | some s' =>
      obtain ⟨hok, -, hstart⟩ := daemonStep_counter hstep hs
      have hrest := ih hok (hz.2 s' hstep)
      have hmono := daemonStep_mono hstep hs hz.1
      by_cases hst : autoStart s s' = true
      · obtain ⟨hlt, hplus⟩ := hstart hst
        simp only [hst, if_true]
        push_cast
        omega
      · simp only [hst]
        push_cast
        omega

/-- Auto-resume is bounded: an automatic start finds the counter below the maximum and
leaves one more on disk, and between two writes of 0 there are at most
`maxAutoRetries` of them, across any restarts of the daemon. -/
theorem auto_resume_bounded (file : Option LastLaunch) (fails : Int) (pre : List DaemonAct)
    {s : App} (hpre : exec daemonStep (App.init file fails) pre = some s) :
    (∀ a s', daemonStep s a = some s' → autoStart s s' = true →
      s.resumeFails < maxAutoRetries ∧ s'.resumeFails = s.resumeFails + 1) ∧
    (∀ z s', daemonStep s z = some s' → written s z = some 0 →
      ∀ mid, Meets daemonStep (fun s a => written s a ≠ some 0) s' mid →
        (autoStarts s' mid : Int) ≤ maxAutoRetries) := by
  have hs : s.CounterOk := counterOk_reachable hpre
  constructor
  · intro a s' ha hst
    exact (daemonStep_counter ha hs).2.2 hst
  · intro z s' hstep hw mid hz
    obtain ⟨hok, hdisk, -⟩ := daemonStep_counter hstep hs
    have hzero : s'.resumeFails = 0 := by simpa [hw] using hdisk
    have hle := autoStarts_le hok hz
    rw [hzero] at hle
    simpa [maxAutoRetries] using hle

/-- A pass of the watchdog up to `start_process`. -/
def resumePass : List DaemonAct :=
  [.act (.watchdog (.tick false)), .act (.watchdog .reset), .act (.watchdog .load),
    .act (.watchdog .check), .act (.watchdog (.validate (.ok []))),
    .act (.watchdog (.memory true "")), .act (.watchdog .take), .act (.watchdog .recheck)]

/-- A resumed model answers its probe and holds: the watchdog is about to reset the
counter. -/
def stableRun : List DaemonAct :=
  resumePass ++
    [.act (.watchdog (.start (.build true))), .act (.watchdog (.start .previous)),
      .act (.watchdog (.start .clear)), .act (.watchdog (.start (.spawn (.ok 4242)))),
      .act (.watchdog (.start (.save (.ok ())))), .act (.watchdog .finish),
      .act (.thread 1 .test), .act (.thread 1 (.probe true)), .act (.thread 1 (.healthSet 0)),
      .act (.watchdog (.tick true))]

/-- The daemon crashes in its first start after the reset of the counter, and starts the
model again. -/
def crashedStarts : List DaemonAct := .restart :: resumePass ++ .restart :: resumePass

theorem auto_resume_bounded_stableRun :
    ∃ s s', exec daemonStep (App.init (some ⟨"org/a", "a", "", "vllm"⟩) 2) stableRun = some s ∧
      daemonStep s (.act (.watchdog .reset)) = some s' ∧
      written s (.act (.watchdog .reset)) = some 0 ∧
      autoStarts s' crashedStarts = 2 ∧ (autoStarts s' crashedStarts : Int) ≤ maxAutoRetries := by
  have hstable : (exec daemonStep (App.init (some ⟨"org/a", "a", "", "vllm"⟩) 2)
      stableRun).isSome = true := by decide +kernel
  obtain ⟨s, hs⟩ := Option.isSome_iff_exists.1 hstable
  have hreset : ((exec daemonStep (App.init (some ⟨"org/a", "a", "", "vllm"⟩) 2)
      stableRun).bind fun s => daemonStep s (.act (.watchdog .reset))).isSome = true := by
    decide +kernel
  have hzero : ((exec daemonStep (App.init (some ⟨"org/a", "a", "", "vllm"⟩) 2)
      stableRun).bind fun s => written s (.act (.watchdog .reset))) = some 0 := by
    decide +kernel
  have htwo : ((exec daemonStep (App.init (some ⟨"org/a", "a", "", "vllm"⟩) 2)
      stableRun).bind fun s => (daemonStep s (.act (.watchdog .reset))).map fun s' =>
        autoStarts s' crashedStarts) = some 2 := by
    decide +kernel
  have hkept : ((exec daemonStep (App.init (some ⟨"org/a", "a", "", "vllm"⟩) 2)
      stableRun).bind fun s => (daemonStep s (.act (.watchdog .reset))).map fun s' =>
        decide (Meets daemonStep (fun s a => written s a ≠ some 0) s' crashedStarts)) =
          some true := by
    decide +kernel
  rw [hs, Option.bind_some] at hreset hzero htwo hkept
  obtain ⟨s', hs'⟩ := Option.isSome_iff_exists.1 hreset
  rw [hs', Option.map_some, Option.some_inj] at htwo hkept
  exact ⟨s, s', hs, hs', hzero, htwo,
    (auto_resume_bounded _ _ _ hs).2 _ s' hs' hzero crashedStarts (of_decide_eq_true hkept)⟩

end Runner
