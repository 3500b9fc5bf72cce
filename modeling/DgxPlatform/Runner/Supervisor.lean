import Mathlib.Logic.Function.Basic
import DgxPlatform.Lib.Text

/-! # The supervisor: one engine process and the threads that watch it

`Supervisor::spawn` starts three threads per process: the reader of its output
(`read_output`), the readiness probe (`health_watch`) and the memory guard.
They share `Shared` under one lock. Each thread is a program counter of its
process record, and one move of a thread is one critical section or one
observation made outside the lock:

* the reader appends a line, writes "running" after the startup line, and at
  the end waits for the child, stores `exited`, then records the exit under the
  lock (three separate moves: the flag is visible before the status is);

A process handle (`Arc<Proc>`) is its generation. Signals only request an end:
the end of the operating-system process is a move of its own (`exit`), possible
at any time, so every outcome of `kill` is covered.
-/

namespace Runner

/-- The values of `Shared.status`. -/
inductive Status where
  | stopped
  | starting
  | running
  | error
deriving DecidableEq, Repr

/-- `LogBuffer`: the in-memory log. -/
structure LogBuffer where
  lines : List String := []

/-- `LogBuffer::append`: past 2 000 lines the oldest 500 go. -/
def LogBuffer.append (b : LogBuffer) (line : String) : LogBuffer :=
  let lines := b.lines ++ [line]
  if lines.length > 2000 then ⟨lines.drop 500⟩ else ⟨lines⟩

/-- `LogBuffer::clear`. -/
def LogBuffer.clear (_ : LogBuffer) : LogBuffer := ⟨[]⟩

/-- Where the reader thread stands in `read_output`. -/
inductive ReaderPc where
  /-- in the loop over the output lines -/
  | reading
  /-- a line holds the startup text, its status is not written yet -/
  | startup
  /-- the output has ended: `child.wait()` -/
  | waiting
  /-- `wait` has returned -/
  | waited (code : Option Int)
  /-- `exited` is stored, the lock is not taken yet -/
  | stored (code : Option Int)
  /-- the exit is recorded under the lock: the thread has ended -/
  | recorded
deriving DecidableEq

/-- Where the probe thread stands in `health_watch`. -/
inductive HealthPc where
  /-- at the loop test `proc.alive()` -/
  | testing
  /-- inside `probe_models` -/
  | probing
  /-- the engine answered, the lock is not taken yet -/
  | answered
  /-- the 3 s pause -/
  | pausing
  | ended
deriving DecidableEq

/-- One engine process: `Proc` with the state of its threads. `live` is the
operating-system process itself, `exited` the flag the threads can see. -/
structure Proc where
  pid : Nat
  exited : Bool
  code : Option Int
  live : Bool
  reader : ReaderPc
  health : HealthPc
  memory : Bool

/-- `Proc::alive`: `proc.poll() is None`. -/
def Proc.alive (p : Proc) : Bool := !p.exited

/-- The record of a generation that was never spawned: no thread runs. -/
def Proc.absent : Proc :=
  { pid := 0, exited := true, code := none, live := false
    reader := .recorded, health := .ended, memory := false }

/-- A process just spawned, its three threads at their first statement. -/
def Proc.spawned (pid : Nat) : Proc :=
  { pid := pid, exited := false, code := none, live := true
    reader := .reading, health := .testing, memory := true }

/-- The shared state under the supervisor's lock. -/
structure Shared where
  logs : LogBuffer := {}
  proc : Option Nat := none
  model : Option String := none
  engine : Option String := none
  status : Status := .stopped
  autoRetries : Int := 0
  runningSince : Option Nat := none
  generation : Nat := 0

def Shared.log (sh : Shared) (line : String) : Shared :=
  { sh with logs := sh.logs.append line }

/-- What the startup line and the probe both write: "running", for the current
generation only. -/
def Shared.markRunning (sh : Shared) (g now : Nat) : Shared :=
  if sh.proc = some g then
    { sh with status := .running, runningSince := some now, autoRetries := 0 }
  else sh

/-- The text of an exit code in the log. -/
def codeText : Option Int → String
  | some c => toString c
  | none => "None"

/-- A code that means a requested end: 0, SIGTERM, SIGKILL. -/
def cleanExit (code : Option Int) : Bool :=
  code == some 0 || code == some (-15) || code == some (-9)

/-- The last critical section of `read_output`: the exit of generation `g`. -/
def Shared.recordExit (sh : Shared) (g : Nat) (code : Option Int) : Shared :=
  let sh' :=
    if sh.proc = some g ∧ sh.status ≠ .stopped then
      { sh with status := if cleanExit code then .stopped else .error }
    else sh
  sh'.log ("[runner] Process exited (code " ++ codeText code ++ ")")

/-- The moves of the threads of one process, with what the outside world
answers (the line read, the code waited for, the probe's answer, the clock). -/
inductive ThreadAct where
  | line (text : String)
  | startup (now : Nat)
  | interrupted (msg : String)
  | eof
  | exit
  | wait (code : Option Int)
  | store
  | record
  | test
  | probe (answer : Bool)
  | healthSet (now : Nat)
  | wake
  | memoryGuard (free : String)

/-- The startup text of the engines. -/
def startupText : String := "Application startup complete"

/-- The line as `read_output` keeps it. -/
def keptLine (text : String) : String := String.ofList (Text.trimEnd text.toList)

/-- How a move changes the record of its own process. -/
def Proc.move (p : Proc) : ThreadAct → Option Proc
  | .line text =>
      -- a startup line is logged first, its status is written in a section of its own
      if p.reader = .reading then
        some { p with
          reader := if Text.contains (keptLine text).toList startupText.toList
            then .startup else .reading }
      else none
  | .startup _ => if p.reader = .startup then some { p with reader := .reading } else none
  | .interrupted _ => if p.reader = .reading then some { p with reader := .waiting } else none
  | .eof => if p.reader = .reading then some { p with reader := .waiting } else none
  | .exit => if p.live then some { p with live := false } else none
  | .wait code =>
      -- `wait` blocks until the process is gone; a failing `wait` gives no code
      if p.reader = .waiting ∧ (p.live = false ∨ code = none) then
        some { p with reader := .waited code }
      else none
  | .store =>
      match p.reader with
      | .waited code => some { p with exited := true, code := code, reader := .stored code }
      | _ => none
  | .record =>
      match p.reader with
      | .stored _ => some { p with reader := .recorded }
      | _ => none
  | .test =>
      -- the only look at the flag: what follows acts on an answer that may be late
      if p.health = .testing then
        some { p with health := if p.alive then .probing else .ended }
      else none
  | .probe answer =>
      if p.health = .probing then
        some { p with health := if answer then .answered else .pausing }
      else none
  | .healthSet _ => if p.health = .answered then some { p with health := .ended } else none
  | .wake => if p.health = .pausing then some { p with health := .testing } else none
  | .memoryGuard _ => if p.memory then some { p with memory := false } else none

/-- What a move of generation `g` writes to the shared state. -/
def Shared.effect (sh : Shared) (g : Nat) (p : Proc) : ThreadAct → Shared
  | .line text => sh.log (keptLine text)
  | .startup now => sh.markRunning g now
  | .interrupted msg => sh.log ("[runner] read interrupted: " ++ msg)
  | .record =>
      match p.reader with
      | .stored code => sh.recordExit g code
      | _ => sh
  | .healthSet now => sh.markRunning g now
  | .memoryGuard free =>
      sh.log ("[runner] CRITICAL MEMORY: " ++ free ++ " GiB available — force-stopping the model "
        ++ "to avoid a machine-wide OOM.")
  | _ => sh

/-- A supervisor: the shared state, the processes by generation, `next_gen`. -/
structure Sup where
  shared : Shared
  procs : Nat → Proc
  nextGen : Nat

/-- `Supervisor::default`. -/
def Sup.init : Sup := { shared := {}, procs := fun _ => .absent, nextGen := 1 }

/-- The current process is alive (`s.proc.as_ref().is_some_and(|p| p.alive())`). -/
def Sup.procAlive (s : Sup) : Bool :=
  match s.shared.proc with
  | some g => (s.procs g).alive
  | none => false

def Sup.log (s : Sup) (line : String) : Sup := { s with shared := s.shared.log line }

/-- One move of a thread of generation `g`. -/
def Sup.threadStep (s : Sup) (g : Nat) (a : ThreadAct) : Option Sup :=
  ((s.procs g).move a).map fun p =>
    { s with procs := Function.update s.procs g p, shared := s.shared.effect g (s.procs g) a }

/-- `Supervisor::spawn` once the command has started: a new generation, current
and "starting". -/
def Sup.spawn (s : Sup) (pid : Nat) : Sup :=
  { shared := { s.shared with
      generation := s.nextGen, proc := some s.nextGen, status := .starting }
    procs := Function.update s.procs s.nextGen (.spawned pid)
    nextGen := s.nextGen + 1 }

/-! ## What a thread can change -/

/-- The moves of a thread, with the position each one starts from. `Proc.move` is made
of exactly these (`procMove_of_move`). -/
inductive ProcMove (p : Proc) : ThreadAct → Proc → Prop where
  | line (text : String) (pc : ReaderPc) (hreader : p.reader = .reading)
      (hpc : pc = .startup ∨ pc = .reading) : ProcMove p (.line text) { p with reader := pc }
  | startup (now : Nat) (hreader : p.reader = .startup) :
      ProcMove p (.startup now) { p with reader := .reading }
  | interrupted (msg : String) (hreader : p.reader = .reading) :
      ProcMove p (.interrupted msg) { p with reader := .waiting }
  | eof (hreader : p.reader = .reading) : ProcMove p .eof { p with reader := .waiting }
  | exit (hlive : p.live = true) : ProcMove p .exit { p with live := false }
  | wait (code : Option Int) (hreader : p.reader = .waiting)
      (hgone : p.live = false ∨ code = none) :
      ProcMove p (.wait code) { p with reader := .waited code }
  | store (code : Option Int) (hreader : p.reader = .waited code) :
      ProcMove p .store { p with exited := true, code := code, reader := .stored code }
  | record (code : Option Int) (hreader : p.reader = .stored code) :
      ProcMove p .record { p with reader := .recorded }
  | test (hhealth : p.health = .testing) :
      ProcMove p .test { p with health := if p.alive then .probing else .ended }
  | probe (answer : Bool) (hhealth : p.health = .probing) :
      ProcMove p (.probe answer) { p with health := if answer then .answered else .pausing }
  | healthSet (now : Nat) (hhealth : p.health = .answered) :
      ProcMove p (.healthSet now) { p with health := .ended }
  | wake (hhealth : p.health = .pausing) : ProcMove p .wake { p with health := .testing }
  | memoryGuard (free : String) (hmemory : p.memory = true) :
      ProcMove p (.memoryGuard free) { p with memory := false }

variable {a : ThreadAct}

theorem procMove_of_move {p p' : Proc} (h : p.move a = some p') : ProcMove p a p' := by
  cases a with
  | line text =>
    simp only [Proc.move, Option.ite_none_right_eq_some, Option.some.injEq] at h
    obtain ⟨hreader, rfl⟩ := h
    exact .line text _ hreader (ite_eq_or_eq _ _ _)
  | store =>
    simp only [Proc.move] at h
    split at h
    · next code hreader =>
        cases h
        exact .store code hreader
    · cases h
  | record =>
    simp only [Proc.move] at h
    split at h
    · next code hreader =>
        cases h
        exact .record code hreader
    · cases h
  | wait code =>
    simp only [Proc.move, Option.ite_none_right_eq_some, Option.some.injEq] at h
    obtain ⟨⟨hreader, hgone⟩, rfl⟩ := h
    exact .wait code hreader hgone
  | _ =>
    simp only [Proc.move, Option.ite_none_right_eq_some, Option.some.injEq] at h
    obtain ⟨hfrom, rfl⟩ := h
    constructor
    exact hfrom

@[simp] theorem log_status (sh : Shared) (line : String) : (sh.log line).status = sh.status := rfl
@[simp] theorem log_proc (sh : Shared) (line : String) : (sh.log line).proc = sh.proc := rfl

@[simp] theorem markRunning_proc (sh : Shared) (g now : Nat) :
    (sh.markRunning g now).proc = sh.proc := by
  unfold Shared.markRunning
  split <;> rfl

@[simp] theorem recordExit_proc (sh : Shared) (g : Nat) (code : Option Int) :
    (sh.recordExit g code).proc = sh.proc := by
  simp only [Shared.recordExit, log_proc]
  split <;> rfl

@[simp] theorem effect_proc (sh : Shared) (g : Nat) (p : Proc) (a : ThreadAct) :
    (sh.effect g p a).proc = sh.proc := by
  cases a <;> simp only [Shared.effect, log_proc, markRunning_proc]
  split <;> simp

variable {sh : Shared} {g : Nat} {code : Option Int}

/-- A recorded exit never leaves "running" for its own generation. -/
theorem recordExit_status_ne {st : Status} (hg : sh.proc = some g) (hst : st = .running ∨ st = .starting) :
    (sh.recordExit g code).status ≠ st := by
  simp only [Shared.recordExit, log_status]
  by_cases hs : sh.status = .stopped
  · -- a stop has written "stopped" already, and it stays
    rw [if_neg (by simp [hs]), hs]
    rcases hst with rfl | rfl <;> simp
  · rw [if_pos ⟨hg, hs⟩]
    dsimp only
    rcases hst with rfl | rfl <;> split <;> simp

theorem recordExit_status_of_ne (hg : sh.proc ≠ some g) : (sh.recordExit g code).status = sh.status := by
  simp [Shared.recordExit, hg]

/-- Whatever status a recorded exit leaves, "running" and "starting" were there before. -/
theorem recordExit_status {st : Status}
    (hst : st = .running ∨ st = .starting) (h : (sh.recordExit g code).status = st) :
    sh.status = st ∧ sh.proc ≠ some g := by
  have hg : sh.proc ≠ some g := fun hg => recordExit_status_ne hg hst h
  exact ⟨by rwa [recordExit_status_of_ne hg] at h, hg⟩

/-- Only the two moves that write "running" and the recorded exit touch the status. -/
theorem effect_status {p : Proc} (hstartup : ∀ now, a ≠ .startup now) (hprobe : ∀ now, a ≠ .healthSet now)
    (hrecord : a ≠ .record) : (sh.effect g p a).status = sh.status := by
  cases a with
  | startup now => exact absurd rfl (hstartup now)
  | healthSet now => exact absurd rfl (hprobe now)
  | record => exact absurd rfl hrecord
  | line text => exact log_status sh _
  | interrupted msg => exact log_status sh _
  | memoryGuard free => exact log_status sh _
  | _ => rfl

/-- A thread that leaves "running" found it, or is a startup line or a probe of
the current generation. -/
theorem effect_running {p : Proc} (h : (sh.effect g p a).status = .running) :
    sh.status = .running ∨
      (sh.proc = some g ∧ ∃ now, a = .startup now ∨ a = .healthSet now) := by
  have hmark : ∀ now, (sh.markRunning g now).status = .running →
      sh.status = .running ∨ sh.proc = some g := by
    intro now hm
    unfold Shared.markRunning at hm
    split at hm
    · exact Or.inr ‹_›
    · exact Or.inl hm
  cases a with
  | startup now =>
    rcases hmark now h with hr | hg
    · exact Or.inl hr
    · exact Or.inr ⟨hg, now, Or.inl rfl⟩
  | healthSet now =>
    rcases hmark now h with hr | hg
    · exact Or.inl hr
    · exact Or.inr ⟨hg, now, Or.inr rfl⟩
  | record =>
    simp only [Shared.effect] at h
    split at h
    · exact Or.inl (recordExit_status (Or.inl rfl) h).1
    · exact Or.inl h
  | _ =>
    rw [effect_status (by simp) (by simp) (by simp)] at h
    exact Or.inl h

/-- A thread that leaves "starting" found it, and is not the recorded exit of
the current generation. -/
theorem effect_starting {p : Proc} (hp : ∃ p', p.move a = some p') (h : (sh.effect g p a).status = .starting) :
    sh.status = .starting ∧ (a = .record → sh.proc ≠ some g) := by
  have hmark : ∀ now, (sh.markRunning g now).status = .starting → sh.status = .starting := by
    intro now hm
    unfold Shared.markRunning at hm
    split at hm
    · cases hm
    · exact hm
  cases a with
  | startup now => exact ⟨hmark now h, by simp⟩
  | healthSet now => exact ⟨hmark now h, by simp⟩
  | record =>
    rcases hp with ⟨p', hp'⟩
    cases procMove_of_move hp' with
    | record code hreader =>
      simp only [Shared.effect, hreader] at h
      exact ⟨(recordExit_status (Or.inr rfl) h).1, fun _ => (recordExit_status (Or.inr rfl) h).2⟩
  | _ =>
    rw [effect_status (by simp) (by simp) (by simp)] at h
    exact ⟨h, by simp⟩

/-- The reader has stored the flag `exited`. -/
def ReaderPc.isFlagged : ReaderPc → Bool
  | .stored _ => true
  | .recorded => true
  | _ => false

/-- What a move can do to the reader and to its flag: nothing, a step before the flag
is stored, the store itself, or the recorded exit after it. -/
theorem move_reader {p p' : Proc} (h : p.move a = some p') : (p'.exited = p.exited ∧ p'.reader = p.reader) ∨
    (p'.exited = p.exited ∧ p.reader.isFlagged = false ∧ p'.reader.isFlagged = false) ∨
    (p'.exited = true ∧ p.reader.isFlagged = false ∧ ∃ code, p'.reader = .stored code) ∨
    (a = .record ∧ p'.exited = p.exited ∧ (∃ code, p.reader = .stored code) ∧
      p'.reader = .recorded) := by
  cases procMove_of_move h with
  | line text pc hreader hpc =>
    refine Or.inr (Or.inl ⟨rfl, by rw [hreader]; rfl, ?_⟩)
    rcases hpc with rfl | rfl <;> rfl
  | startup now hreader => exact Or.inr (Or.inl ⟨rfl, by rw [hreader]; rfl, rfl⟩)
  | interrupted msg hreader => exact Or.inr (Or.inl ⟨rfl, by rw [hreader]; rfl, rfl⟩)
  | eof hreader => exact Or.inr (Or.inl ⟨rfl, by rw [hreader]; rfl, rfl⟩)
  | wait code hreader hgone => exact Or.inr (Or.inl ⟨rfl, by rw [hreader]; rfl, rfl⟩)
  | store code hreader =>
    exact Or.inr (Or.inr (Or.inl ⟨rfl, by rw [hreader]; rfl, code, rfl⟩))
  | record code hreader =>
    exact Or.inr (Or.inr (Or.inr ⟨rfl, rfl, ⟨code, hreader⟩, rfl⟩))
  | _ =>
    -- the moves of the other threads, and the end of the process itself
    exact Or.inl ⟨rfl, rfl⟩

/-- The flag `exited` is set exactly when the reader has stored it. -/
def Proc.FlagOk (p : Proc) : Prop :=
  p.exited = true ↔ (∃ code, p.reader = .stored code) ∨ p.reader = .recorded

theorem flagOk_iff {p : Proc} : p.FlagOk ↔ p.exited = p.reader.isFlagged := by
  unfold Proc.FlagOk
  cases p.reader <;> cases p.exited <;> simp [ReaderPc.isFlagged]

theorem flagOk_absent : Proc.absent.FlagOk := by simp [Proc.FlagOk, Proc.absent]

theorem flagOk_spawned (pid : Nat) : (Proc.spawned pid).FlagOk := by
  simp [Proc.FlagOk, Proc.spawned]

theorem flagOk_move {p p' : Proc} (h : p.move a = some p') (hp : p.FlagOk) : p'.FlagOk := by
  rw [flagOk_iff] at hp ⊢
  rcases move_reader h with ⟨hex, hreader⟩ | ⟨hex, hbefore, hafter⟩ | ⟨hex, -, code, hafter⟩ |
    ⟨-, hex, ⟨code, hbefore⟩, hafter⟩
  · rw [hex, hreader, hp]
  · rw [hex, hafter, hp, hbefore]
  · rw [hex, hafter]
    rfl
  · rw [hex, hafter, hp, hbefore]
    rfl

/-- Every reader's flag agrees with its position. -/
def Sup.FlagsOk (s : Sup) : Prop := ∀ g, (s.procs g).FlagOk

theorem flagsOk_init : Sup.init.FlagsOk := fun _ => flagOk_absent

theorem flagsOk_threadStep {s s' : Sup} (h : s.threadStep g a = some s') (hs : s.FlagsOk) : s'.FlagsOk := by
  rcases Option.map_eq_some_iff.1 h with ⟨p, hp, rfl⟩
  intro g'
  by_cases hg : g' = g
  · subst hg
    simpa using flagOk_move hp (hs g')
  · simpa [Function.update_of_ne hg] using hs g'

theorem flagsOk_spawn {s : Sup} (pid : Nat) (hs : s.FlagsOk) : (s.spawn pid).FlagsOk := by
  intro g
  by_cases hg : g = s.nextGen
  · subst hg
    simpa [Sup.spawn] using flagOk_spawned pid
  · simpa [Sup.spawn, Function.update_of_ne hg] using hs g

/-- What an operation other than a spawn does to the supervisor: it leaves the
processes alone, and keeps process and status, announces a start, or stops. -/
structure Sup.OpMove (s s' : Sup) : Prop where
  procs : s'.procs = s.procs
  nextGen : s'.nextGen = s.nextGen
  shared : (s'.shared.proc = s.shared.proc ∧ s'.shared.status = s.shared.status) ∨
    (s'.shared.proc = s.shared.proc ∧ s'.shared.status = .starting) ∨
    ((s'.shared.proc = s.shared.proc ∨ s'.shared.proc = none) ∧ s'.shared.status = .stopped)

theorem flagsOk_opMove {s s' : Sup} (h : s.OpMove s') (hs : s.FlagsOk) : s'.FlagsOk := by
  intro g
  rw [h.procs]
  exact hs g

end Runner
