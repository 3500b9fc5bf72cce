import DgxPlatform.Runner.Service
import DgxPlatform.Runner.Decisions

/-! # When the status agrees with the process

`health_watch` tests `alive` and asks the engine before it takes the lock; under
the lock it compares only the generation. A probe that was answered before the
end of its process therefore still writes "running" after the exit has been
recorded, or after `App::stop` has written "stopped".
-/

namespace Runner

open Run

/-- No probe of this process is between its aliveness test and its write. -/
def Proc.noLateProbe (p : Proc) : Bool := p.health != .probing && p.health != .answered

/-- The process is over: its flag is set and no probe is left to write. -/
def Proc.Over (p : Proc) : Prop := p.exited = true ∧ p.noLateProbe = true

/-- The current process, if any, is over, and the status is not "running". -/
structure Sup.Settled (s : Sup) : Prop where
  status : s.shared.status ≠ .running
  ended : ∀ g, s.shared.proc = some g → (s.procs g).Over

/-- A process that is over stays so: the probe's next test ends its thread. -/
theorem over_move {p p' : Proc} {a : ThreadAct} (h : p.move a = some p') (hp : p.Over) :
    p'.Over := by
  rcases hp with ⟨hex, hprobe⟩
  cases procMove_of_move h with
  | store => exact ⟨rfl, hprobe⟩
  | test =>
    -- the flag is set, so the test ends the thread
    refine ⟨hex, ?_⟩
    simp [Proc.noLateProbe, Proc.alive, hex]
  | probe answer hhealth => simp [Proc.noLateProbe, hhealth] at hprobe
  | healthSet | wake => exact ⟨hex, rfl⟩
  | _ => exact ⟨hex, hprobe⟩

/-- A process that is over has no thread left that writes "running". -/
theorem not_marks_of_over {p p' : Proc} {a : ThreadAct} (h : p.move a = some p')
    (hflag : p.FlagOk) (hp : p.Over) (now : Nat) : a ≠ .startup now ∧ a ≠ .healthSet now := by
  rcases hp with ⟨hex, hprobe⟩
  constructor
  · rintro rfl
    -- the reader has left its loop, so it is not at a startup line
    cases procMove_of_move h with
    | startup now hreader =>
      rcases hflag.1 hex with ⟨code, hc⟩ | hc <;> rw [hreader] at hc <;> cases hc
  · rintro rfl
    -- only an answered probe writes, and none is left
    cases procMove_of_move h with
    | healthSet now hhealth => simp [Proc.noLateProbe, hhealth] at hprobe

theorem settled_threadStep {s s' : Sup} {g : Nat} {a : ThreadAct}
    (h : s.threadStep g a = some s') (hflag : s.FlagsOk) (hs : s.Settled) : s'.Settled := by
  rcases Option.map_eq_some_iff.1 h with ⟨p, hp, rfl⟩
  constructor
  · intro hrun
    -- "running" was there, or a thread of the current process wrote it
    rcases effect_running hrun with hold | ⟨hcur, now, hmark⟩
    · exact hs.status hold
    · have hnot := not_marks_of_over hp (hflag g) (hs.ended g hcur) now
      rcases hmark with rfl | rfl
      · exact hnot.1 rfl
      · exact hnot.2 rfl
  · intro g' hg'
    have hcur : s.shared.proc = some g' := by simpa using hg'
    by_cases hgg : g' = g
    · subst hgg
      simpa using over_move hp (hs.ended g' hcur)
    · simpa [Function.update_of_ne hgg] using hs.ended g' hcur

theorem settled_opMove {s s' : Sup} (h : s.OpMove s') (hs : s.Settled) : s'.Settled := by
  constructor
  · rcases h.shared with ⟨-, hst⟩ | ⟨-, hst⟩ | ⟨-, hst⟩
    · rw [hst]
      exact hs.status
    · simp [hst]
    · simp [hst]
  · intro g hg
    rw [h.procs]
    apply hs.ended g
    -- an operation keeps the current process or takes it out
    rcases h.shared with ⟨hp, -⟩ | ⟨hp, -⟩ | ⟨hp | hp, -⟩ <;> rw [hp] at hg
    · exact hg
    · exact hg
    · exact hg
    · cases hg

/-- Recording the exit of the current generation settles the supervisor. -/
theorem settled_of_record {s s' : Sup} {g : Nat} (h : s.threadStep g .record = some s')
    (hflag : s.FlagsOk) (hcur : s.shared.proc = some g)
    (hprobe : (s.procs g).noLateProbe = true) : s'.Settled := by
  rcases Option.map_eq_some_iff.1 h with ⟨p, hp, rfl⟩
  have hstored : ∃ code, (s.procs g).reader = .stored code := by
    cases procMove_of_move hp with
    | record code hreader => exact ⟨code, hreader⟩
  rcases hstored with ⟨code, hcode⟩
  -- the flag was stored before the lock was taken
  have hover : (s.procs g).Over := ⟨(hflag g).2 (Or.inl ⟨code, hcode⟩), hprobe⟩
  constructor
  · simp only [Shared.effect, hcode]
    exact recordExit_status_ne hcur (Or.inl rfl)
  · intro g' hg'
    have hg : g' = g := by
      have hsome : some g = some g' := by simpa [hcur] using hg'
      exact (Option.some.inj hsome).symm
    subst hg
    simpa using over_move hp hover

/-! ## The chat engine -/

/-- The exit of the current generation is recorded, or a stop writes its status. -/
def App.Ends (m : App) (e : Act) : Prop :=
  (∃ g, e = .thread g .record ∧ m.sup.shared.proc = some g) ∨ ∃ i, e = .call i .stopWrite

/-- Along a run that ends a process with `e` and spawns nothing after it, the
status is not "running". -/
def StatusAgrees (file : Option LastLaunch) (fails : Int) (before : List Act) (e : Act)
    (after : List Act) : Prop :=
  ∀ m t, exec step (App.init file fails) before = some m →
    exec step (App.init file fails) (before ++ e :: after) = some t →
    m.Ends e → (∀ a ∈ after, ¬ a.IsSpawn) → t.sup.shared.status ≠ .running

/-- When the exit of the current process is recorded, no probe of it is on its
way; when `App::stop` writes "stopped", its exit flag is set as well. -/
def endsProbed (s : App) : Act → Bool
  | .thread g .record => s.sup.shared.proc != some g || (s.sup.procs g).noLateProbe
  | .call _ .stopWrite =>
      match s.sup.shared.proc with
      | some g => (s.sup.procs g).exited && (s.sup.procs g).noLateProbe
      | none => true
  | _ => true

theorem settled_step {s s' : App} {a : Act} (h : step s a = some s') (hflag : s.sup.FlagsOk)
    (hs : s.sup.Settled) (ha : ¬ a.IsSpawn) : s'.sup.Settled := by
  rcases step_sup h with ⟨g, ta, -, hth⟩ | ⟨hsp, -⟩ | hop
  · exact settled_threadStep hth hflag hs
  · exact absurd hsp ha
  · exact settled_opMove hop hs

theorem settled_of_stopWrite {s s' : App} {i : Nat} (h : step s (.call i .stopWrite) = some s')
    (hG : endsProbed s (.call i .stopWrite)) : s'.sup.Settled := by
  have hsup : s'.sup = { s.sup with shared := s.sup.shared.markStopped } := by
    obtain ⟨pc, w, hx, rfl⟩ := step_call h
    generalize s.calls i = pc₀ at hx
    cases callStep_move hx with
    | stopWrite => rfl
  rw [hsup]
  refine ⟨by simp [Shared.markStopped], fun g hg => ?_⟩
  have hcur : s.sup.shared.proc = some g := hg
  have hcond : (s.sup.procs g).exited = true ∧ (s.sup.procs g).noLateProbe = true := by
    simpa [endsProbed, hcur] using hG
  exact hcond

/-! ## The decision engine -/

/-- The exit of the current generation is recorded, or a stop writes its status. -/
def Decisions.Ends (m : Decisions) (e : DAct) : Prop :=
  (∃ g, e = .thread g .record ∧ m.sup.shared.proc = some g) ∨ ∃ i, e = .call i .stopWrite

def DStatusAgrees (enabled : Bool) (before : List DAct) (e : DAct) (after : List DAct) : Prop :=
  ∀ m t, exec dstep (Decisions.init enabled) before = some m →
    exec dstep (Decisions.init enabled) (before ++ e :: after) = some t →
    m.Ends e → (∀ a ∈ after, ¬ a.IsSpawn) → t.sup.shared.status ≠ .running

/-- When the exit of the current process is recorded, no probe of it is on its way. -/
def endsProbedD (s : Decisions) : DAct → Bool
  | .thread g .record => s.sup.shared.proc != some g || (s.sup.procs g).noLateProbe
  | _ => true

theorem settled_dstep {s s' : Decisions} {a : DAct} (h : dstep s a = some s')
    (hflag : s.sup.FlagsOk) (hs : s.sup.Settled) (ha : ¬ a.IsSpawn) : s'.sup.Settled := by
  rcases dstep_sup h with ⟨g, ta, -, hth⟩ | ⟨hsp, -⟩ | hop
  · exact settled_threadStep hth hflag hs
  · exact absurd hsp ha
  · exact settled_opMove hop hs

/-- `Decisions::stop` needs no condition: no process is current after its write. -/
theorem settled_of_takeStopped {s s' : Decisions} {i : Nat}
    (h : dstep s (.call i .stopWrite) = some s') : s'.sup.Settled := by
  have hsup : s'.sup = { s.sup with shared := s.sup.shared.takeStopped } := by
    obtain ⟨pc, w, hx, rfl⟩ := dstep_call h
    generalize s.calls i = pc₀ at hx
    cases decisionsCallStep_move hx with
    | stopWrite => rfl
  rw [hsup]
  exact ⟨by simp [Shared.takeStopped], fun g hg => by simp [Shared.takeStopped] at hg⟩

/-- Both supervisors: once the exit of the current process is recorded, or a
stop has written "stopped", the status is not "running" before the next spawn,
in every run whose steps meet the conditions on late probes. -/
theorem status_agrees_of_no_late_probe (file : Option LastLaunch) (fails : Int) (enabled : Bool) :
    (∀ before e after,
      Meets step (endsProbed · ·) (App.init file fails) (before ++ e :: after) →
        StatusAgrees file fails before e after) ∧
    (∀ before e after,
      Meets dstep (endsProbedD · ·) (Decisions.init enabled) (before ++ e :: after) →
        DStatusAgrees enabled before e after) := by
  constructor
  · intro before e after hG m t hm hrun hends hspawn
    have hend : ∀ x x', exec step (App.init file fails) before = some x → x.sup.FlagsOk →
        endsProbed x e → step x e = some x' → x'.sup.Settled := by
      intro x x' hx hflag hGx h
      obtain rfl : x = m := by simpa [hm] using hx.symm
      rcases hends with ⟨g, rfl, hcur⟩ | ⟨i, rfl⟩
      · rcases step_thread h with ⟨sup, hth, rfl⟩
        have hprobe : (x.sup.procs g).noLateProbe = true := by
          simpa [endsProbed, hcur] using hGx
        exact settled_of_record hth hflag hcur hprobe
      · exact settled_of_stopWrite h hGx
    exact (exec_after (R := Act.IsSpawn) (fun s a s' hs _ h => flagsOk_step h hs)
      (fun s a s' hf hQ _ hR h => settled_step h hf hQ hR) hend flagsOk_init hG hspawn
      hrun).2.status
  · intro before e after hG m t hm hrun hends hspawn
    have hend : ∀ x x', exec dstep (Decisions.init enabled) before = some x → x.sup.FlagsOk →
        endsProbedD x e → dstep x e = some x' → x'.sup.Settled := by
      intro x x' hx hflag hGx h
      obtain rfl : x = m := by simpa [hm] using hx.symm
      rcases hends with ⟨g, rfl, hcur⟩ | ⟨i, rfl⟩
      · rcases dstep_thread h with ⟨sup, hth, rfl⟩
        have hprobe : (x.sup.procs g).noLateProbe = true := by
          simpa [endsProbedD, hcur] using hGx
        exact settled_of_record hth hflag hcur hprobe
      · exact settled_of_takeStopped h
    exact (exec_after (R := DAct.IsSpawn) (fun s a s' hs _ h => flagsOk_dstep h hs)
      (fun s a s' hf hQ _ hR h => settled_dstep h hf hQ hR) hend flagsOk_init hG hspawn
      hrun).2.status

/-- A launch that succeeds: generation 1 is current and "starting". -/
def launchRun : List Act :=
  [.call 0 (.launch ⟨"org/model", "model", [], "vllm"⟩), .call 0 .launchTake,
    .call 0 (.start (.build true)), .call 0 (.start .previous), .call 0 (.start .clear),
    .call 0 (.start (.spawn (.ok 4242))), .call 0 (.start (.save (.ok ()))),
    .call 0 .launchReturn]

/-- The engine answers its probe, then dies; its reader has stored the exit. -/
def answeredThenDead : List Act :=
  launchRun ++
    [.thread 1 .test, .thread 1 (.probe true), .thread 1 .exit, .thread 1 .eof,
      .thread 1 (.wait (some 1)), .thread 1 .store]

/-- The status does not agree in general: after the exit is recorded, the probe
that was answered before writes "running". -/
theorem status_disagrees :
    ¬ StatusAgrees none 0 answeredThenDead (.thread 1 .record) [.thread 1 (.healthSet 0)] := by
  intro h
  have hspawn : ∀ a ∈ [Act.thread 1 (.healthSet 0)], ¬ a.IsSpawn := by
    simp [Act.IsSpawn]
  exact h _ _ rfl rfl (Or.inl ⟨1, rfl, rfl⟩) hspawn rfl

/-- The conditions hold on a run whose probe is never asked: the exit is recorded
and the probe's thread ends at its next test. -/
theorem status_agrees_without_probe :
    (exec step (App.init none 0) (launchRun ++
      [.thread 1 .exit, .thread 1 .eof, .thread 1 (.wait (some 1)), .thread 1 .store,
        .thread 1 .record, .thread 1 .test])).isSome ∧
    StatusAgrees none 0 (launchRun ++
      [.thread 1 .exit, .thread 1 .eof, .thread 1 (.wait (some 1)), .thread 1 .store])
      (.thread 1 .record) [.thread 1 .test] :=
  ⟨by decide, (status_agrees_of_no_late_probe none 0 true).1 _ _ _ (by decide)⟩

end Runner
