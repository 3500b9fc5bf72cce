import DgxPlatform.Lib.Calls

/-! # The reaper of the dictation sidecar

Every 30 s a pass looks whether the dictation container may be stopped; what it goes by
are files that the transcriptions and the admin's buttons write. Passes and transcriptions
are interleaved at their awaits and between their file operations.

* `gate` and `needsRepair` are the two decisions, `passMove` the pass, `transcribeMove`
  the route `api_transcribe`.
-/

namespace Portal.AsrReaper

open Calls

/-! ## Constants and decisions -/

def IDLE_S : Nat := 600

def CALL_MAX_S : Nat := 300

def LOCK_MAX_S : Nat := 60

def REPAIR_S : Nat := 180

def RESTART_S : Nat := 60

def ASR_PIN_S : Nat := 3600

/-- `AUTO_MIN_GIB`, in KiB as `/proc/meminfo` counts. -/
def AUTO_MIN_KIB : Nat := 8 * 1024 * 1024

/-- The clock counts milliseconds. -/
def seconds (n : Nat) : Nat := n * 1000

inductive Gate where
  | keep
  | arm
  | stop
deriving DecidableEq

def gate (callsInFlight : Nat) (pinned : Bool) (idle : Option Nat) (chatRunning : Bool) : Gate :=
  if 0 < callsInFlight ∨ pinned ∨ chatRunning then .keep
  else
    match idle with
    | none => .arm
    | some idle => if seconds IDLE_S ≤ idle then .stop else .keep

def needsRepair (chatRunning containerRunning modelLoaded : Bool) (free min : Nat) : Bool :=
  chatRunning && containerRunning && !modelLoaded && decide (min ≤ free)

/-! ## The state directory -/

/-- A file of `inflight/`. -/
structure Marker where
  name : Nat
  mtime : Nat
deriving DecidableEq

/-- The files of the state directory by their mtimes, the pin by its content, and the two
throttles of the process. -/
structure Shared where
  now : Nat
  inflight : List Marker
  pinnedUntil : Option Nat
  activity : Option Nat
  lock : Option Nat
  lastRepair : Option Nat
  lastStart : Option Nat
deriving DecidableEq

namespace Shared

variable (s : Shared)

/-- `age_of`: no age for a file of the future. -/
def ageOf (mtime : Nat) : Option Nat := if mtime ≤ s.now then some (s.now - mtime) else none

def noteActivity : Shared := { s with activity := some s.now }

/-- `calls_in_flight`: the markers younger than the limit. -/
def callsInFlight : Nat :=
  (s.inflight.filter fun m => (s.ageOf m.mtime).any fun age => decide (age < seconds CALL_MAX_S)).length

/-- The stale markers are removed on the way. -/
def sweep : Shared :=
  { s with
    inflight := s.inflight.filter fun m =>
      !(s.ageOf m.mtime).any fun age => decide (seconds CALL_MAX_S ≤ age) }

def pinned : Bool := s.pinnedUntil.any fun epoch => decide (s.now < epoch)

def idle : Option Nat := s.activity.bind s.ageOf

/-- `decide`. -/
def decideGate (chatRunning : Bool) : Shared × Gate :=
  let g := gate s.callsInFlight s.pinned s.idle chatRunning
  (if g = .arm then s.sweep.noteActivity else s.sweep, g)

/-- Whether a clock of the process is older than `limit` seconds or was never set. -/
def elapsed (last : Option Nat) (limit : Nat) : Bool :=
  !last.any fun t => decide (s.now - t < seconds limit)

/-- `InFlight::start`, which writes over a file of that name. -/
def create (name : Nat) : Shared :=
  { s with inflight := s.inflight.filter (fun m => m.name ≠ name) ++ [⟨name, s.now⟩] }

/-- The marker goes and the idle clock restarts. -/
def drop (name : Option Nat) : Shared :=
  ({ s with inflight := s.inflight.filter fun m => some m.name ≠ name }).noteActivity

def pin : Shared := { s with pinnedUntil := some (s.now + seconds ASR_PIN_S) }

def unpin : Shared := { s with pinnedUntil := none }

/-- The success of an automatic start silences the next attempts. -/
def noteStart (ok : Bool) : Shared := if ok then { s with lastStart := some s.now } else s

end Shared

/-! ## Passes and transcriptions -/

/-- The state of the container as the runner tells it. -/
inductive Status where
  | running
  | stopped
  | unknown
  | unreachable
  | other
deriving DecidableEq

/-- Where a pass stands. -/
inductive Pass where
  /-- Waiting for the status of the chat model. -/
  | begun
  /-- The chat model runs: waiting for the state of the container. -/
  | following
  | starting
  /-- The container runs too: waiting for its model. -/
  | inspecting
  /-- In front of the stop order of a repair. -/
  | repairing
  | repairStopped
  | repairStarted
  /-- No chat model runs: in front of the first gate. -/
  | gating
  | locking
  /-- Under the lock, in front of the second gate. -/
  | regating
  /-- Both gates say stop: waiting for the state of the container. -/
  | checking
  /-- In front of the stop order. -/
  | stopping
  | stopped
  | unlocking (stopped : Bool)
  | done (stopped : Bool)
deriving DecidableEq

inductive Reply where
  /-- An empty text with `starting`. -/
  | starting
  /-- 503: too little memory for a start. -/
  | memory
  /-- 503: the start failed. -/
  | notStarted
  /-- 503: the model could not be loaded. -/
  | notLoaded
  /-- What the upstream call came to. -/
  | upstream (ok : Bool)
deriving DecidableEq

/-- Where a transcription stands. -/
inductive Transcription where
  | arrived
  /-- Waiting for the state of the model. -/
  | informing
  /-- It is not loaded, perhaps with an error: waiting for the state of the container. -/
  | locating (error : Bool)
  | starting
  | ready
  | calling (marker : Option Nat)
  | replied (reply : Reply)
deriving DecidableEq

inductive Party where
  | pass (p : Pass)
  | transcription (t : Transcription)
deriving DecidableEq

/-- A request: a pass of the watcher or a dictation. -/
inductive Request where
  | pass
  | transcribe

def Request.first : Request → Party
  | .pass => .pass .begun
  | .transcribe => .transcription .arrived

/-- A move: a local step, or what is answered behind an await. `free` is the available memory
read then, in KiB. -/
inductive Move where
  | go
  | chat (running : Bool)
  | container (status : Status) (free : Option Nat)
  | info (loaded error : Bool) (free : Option Nat)
  | answer (ok : Bool)
  /-- `InFlight::start`, without a file when it cannot be created. -/
  | marker (name : Option Nat)
  /-- The lock file cannot be opened. -/
  | fail
deriving DecidableEq

/-- The check of a repair: it is needed, and the last one is long ago. -/
def Shared.repairs (s : Shared) (loaded : Bool) (free : Option Nat) : Bool :=
  needsRepair true true loaded (free.getD 0) AUTO_MIN_KIB && s.elapsed s.lastRepair REPAIR_S

def passMove (s : Shared) : Pass → Move → Option (Shared × Pass)
  | .begun, .chat true => some (s, .following)
  | .begun, .chat false => some (s, .gating)
  | .following, .container status _ =>
      if status = .running then some (s, .inspecting)
      else if s.elapsed s.lastStart RESTART_S then some (s, .starting)
      else some (s, .done false)
  | .starting, .answer ok => some (s.noteStart ok, .done false)
  | .inspecting, .info loaded _ free =>
      if s.repairs loaded free then some ({ s with lastRepair := some s.now }, .repairing)
      else some (s, .done false)
  | .repairing, .go => some (s, .repairStopped)
  | .repairStopped, .answer _ => some (s, .repairStarted)
  | .repairStarted, .answer _ => some (s.noteActivity, .done false)
  | .gating, .go =>
      let r := s.decideGate false
      if r.2 = .stop then some (r.1, .locking) else some (r.1, .done false)
  | .locking, .go =>
      match s.lock with
      | none => some ({ s with lock := some s.now }, .regating)
      | some t =>
          if (s.ageOf t).any fun age => decide (seconds LOCK_MAX_S < age) then
            some ({ s with lock := none }, .done false)
          else some (s, .done false)
  | .locking, .fail => some (s, .done false)
  | .regating, .go =>
      let r := s.decideGate false
      if r.2 = .stop then some (r.1, .checking) else some (r.1, .unlocking false)
  | .checking, .container status _ =>
      if status = .running then some (s, .stopping) else some (s.noteActivity, .unlocking false)
  | .stopping, .go => some (s, .stopped)
  | .stopped, .answer ok => some (s.noteActivity, .unlocking ok)
  | .unlocking ok, .go => some ({ s with lock := none }, .done ok)
  | _, _ => none

/-- `memory_refusal`. -/
def memoryRefusal (free : Option Nat) : Bool := !free.any fun kib => decide (AUTO_MIN_KIB ≤ kib)

def transcribeMove (s : Shared) : Transcription → Move → Option (Shared × Transcription)
  | .arrived, .go => some (s.noteActivity, .informing)
  | .informing, .info loaded error _ => some (s, if loaded then .ready else .locating error)
  | .locating error, .container status free =>
      match status with
      | .running =>
          if !error then some (s, .replied .starting)
          else if memoryRefusal free then some (s, .replied .notLoaded)
          -- memory freed since the failed load: the sidecar retries on demand
          else some (s, .ready)
      | .stopped | .unknown =>
          if memoryRefusal free then some (s, .replied .memory)
          else if s.elapsed s.lastStart RESTART_S then some (s, .starting)
          else some (s, .replied .starting)
      | .unreachable | .other => some (s, .ready)
  | .starting, .answer ok =>
      some (s.noteStart ok, .replied (if ok then .starting else .notStarted))
  | .ready, .marker (some name) => some (s.create name, .calling (some name))
  | .ready, .marker none => some (s, .calling none)
  | .calling name, .answer ok => some (s.drop name, .replied (.upstream ok))
  | _, _ => none

def move (s : Shared) : Party → Move → Option (Shared × Party)
  | .pass p, m => (passMove s p m).map fun r => (r.1, .pass r.2)
  | .transcription t, m => (transcribeMove s t m).map fun r => (r.1, .transcription r.2)

/-- What else happens: time passes, the admin starts (which pins) or stops the sidecar, the
process starts again. -/
inductive Event where
  | tick (d : Nat)
  | pin
  | unpin
  | restart
deriving DecidableEq

def event (s : Shared) : Event → Shared
  | .tick d => { s with now := s.now + d }
  | .pin => s.pin
  | .unpin => s.unpin
  | .restart => { s with lastRepair := none, lastStart := none }

def dictation : Machine Shared Request Party Move Event where
  first := Request.first
  move := move
  env s e := some (event s e)

/-- An empty state directory. -/
def Shared.init (now : Nat) : Shared := ⟨now, [], none, none, none, none, none⟩

/-! ## A free sidecar -/

/-- No call is in flight whose marker is younger than the limit, and no pin is active. -/
structure Shared.Free (s : Shared) : Prop where
  idle : ∀ m ∈ s.inflight, m.mtime + seconds CALL_MAX_S ≤ s.now
  unpinned : s.pinned = false

/-- The next local step of the party orders a stop. -/
def Party.orders : Party → Bool
  | .pass .stopping => true
  | .pass .repairing => true
  | _ => false

/-- A pass that orders a stop finds the sidecar free. -/
def OrdersFree (s : Conf Shared Party) : Act Request Move Event → Prop
  | .move i .go => ∀ c ∈ s.calls[i]?, c.orders = true → s.shared.Free
  | _ => True

/-- The pass has decided on a stop and not ordered it yet. -/
def Party.decided : Party → Bool
  | .pass .checking => true
  | .pass .stopping => true
  | .pass .repairing => true
  | _ => false

/-- No pass stands between its decision and its order. -/
def NoneDecided (s : Conf Shared Party) : Prop := ∀ c ∈ s.calls, c.decided = false

/-- No call starts and no pin is set while a pass stands between its decision and its order, and
a repair is decided on only while the sidecar is free. -/
def Undisturbed (s : Conf Shared Party) : Act Request Move Event → Prop
  | .env .pin => NoneDecided s
  | .move i (.marker _) => .transcription .ready ∈ s.calls[i]? → NoneDecided s
  | .move i (.info loaded _ free) =>
      .pass .inspecting ∈ s.calls[i]? → s.shared.repairs loaded free = true → s.shared.Free
  | _ => True

/-! ## What the moves leave -/

/-- No call is begun and no pin set: the time, the pin, and at most the markers there were. -/
structure Calmer (s s' : Shared) : Prop where
  now : s'.now = s.now
  pinned : s'.pinnedUntil = s.pinnedUntil
  inflight : ∀ m ∈ s'.inflight, m ∈ s.inflight

variable {s s' : Shared} {p p' : Pass} {t t' : Transcription} {m : Move}

theorem Calmer.refl (s : Shared) : Calmer s s := ⟨rfl, rfl, fun _ h => h⟩

theorem Calmer.free (h : Calmer s s') (hfree : s.Free) : s'.Free := by
  constructor
  · intro m hm
    rw [h.now]
    exact hfree.idle m (h.inflight m hm)
  · rw [Shared.pinned, h.now, h.pinned]
    exact hfree.unpinned

theorem calmer_sweep : Calmer s s.sweep :=
  ⟨rfl, rfl, fun _ hm => List.mem_of_mem_filter hm⟩

theorem calmer_decideGate (chatRunning : Bool) : Calmer s (s.decideGate chatRunning).1 := by
  unfold Shared.decideGate
  simp only
  split
  · exact ⟨rfl, rfl, fun _ hm => List.mem_of_mem_filter hm⟩
  · exact calmer_sweep

theorem calmer_drop (name : Option Nat) : Calmer s (s.drop name) :=
  ⟨rfl, rfl, fun _ hm => List.mem_of_mem_filter hm⟩

theorem calmer_noteStart (ok : Bool) : Calmer s (s.noteStart ok) := by
  unfold Shared.noteStart
  split
  · exact ⟨rfl, rfl, fun _ h => h⟩
  · exact Calmer.refl s

theorem calmer_of_passMove (h : passMove s p m = some (s', p')) : Calmer s s' := by
  revert h
  fun_cases passMove s p m <;> intro h <;> cases h
  all_goals first
    | exact Calmer.refl s
    | exact calmer_decideGate false
    | exact calmer_noteStart _
    | exact ⟨rfl, rfl, fun _ h => h⟩

theorem calmer_of_transcribeMove (h : transcribeMove s t m = some (s', t'))
    (hcalls : t = .ready → ∀ name, m ≠ .marker name) : Calmer s s' := by
  revert h
  fun_cases transcribeMove s t m <;> intro h <;> cases h
  all_goals first
    | exact absurd rfl (hcalls rfl _)
    | exact Calmer.refl s
    | exact calmer_noteStart _
    | exact calmer_drop _
    | exact ⟨rfl, rfl, fun _ h => h⟩

/-! ## The gates -/

/-- No file is dated in the future. -/
def Shared.Past (s : Shared) : Prop := ∀ m ∈ s.inflight, m.mtime ≤ s.now

theorem free_of_gate (hpast : s.Past) {chatRunning : Bool}
    (h : (s.decideGate chatRunning).2 = .stop) : s.Free := by
  unfold Shared.decideGate gate at h
  simp only at h
  split at h
  · cases h
  · next hkeep =>
      push Not at hkeep
      obtain ⟨hcalls, hpinned, -⟩ := hkeep
      refine ⟨fun m hm => ?_, Bool.eq_false_iff.2 hpinned⟩
      -- a younger marker would have been counted
      by_contra hyoung
      have hle := hpast m hm
      have hcount : m ∈ s.inflight.filter fun m =>
          (s.ageOf m.mtime).any fun age => decide (age < seconds CALL_MAX_S) := by
        refine List.mem_filter.2 ⟨hm, ?_⟩
        simp only [Shared.ageOf, if_pos hle, Option.any_some, decide_eq_true_eq]
        omega
      have hpos := List.length_pos_of_mem hcount
      have hzero : s.callsInFlight ≤ 0 := hcalls
      unfold Shared.callsInFlight at hzero
      omega

theorem free_of_decided (hpast : s.Past) (h : passMove s p m = some (s', p'))
    (hdec : (Party.pass p').decided = true) :
    (Party.pass p).decided = true ∨ s.Free ∨
      ∃ loaded error free, p = .inspecting ∧ m = .info loaded error free ∧
        s.repairs loaded free = true := by
  revert h
  fun_cases passMove s p m <;> intro h <;> cases h
  all_goals first
    | exact .inl rfl
    | exact Bool.noConfusion hdec
    | skip
  · next loaded error free hrepairs => exact .inr (.inr ⟨loaded, error, free, rfl, rfl, hrepairs⟩)
  · next hstop => exact .inr (.inl (free_of_gate hpast hstop))

/-! ## The invariant -/

theorem Calmer.past (h : Calmer s s') (hpast : s.Past) : s'.Past := by
  intro m hm
  rw [h.now]
  exact hpast m (h.inflight m hm)

theorem past_create (hpast : s.Past) (name : Nat) : (s.create name).Past := by
  intro m hm
  rcases List.mem_append.1 hm with hm | hm
  · exact hpast m (List.mem_of_mem_filter hm)
  · rw [List.mem_singleton.1 hm]
    exact Nat.le_refl s.now

/-- While a pass stands between its decision and its order the sidecar is free. -/
structure Calm (s : Conf Shared Party) : Prop where
  past : s.shared.Past
  free : ∀ c ∈ s.calls, c.decided = true → s.shared.Free

variable {cs cs' : Conf Shared Party} {i : Nat}

theorem NoneDecided.calm (h : NoneDecided cs) {sh : Shared} (hpast : sh.Past) {cs' : List Party}
    (hcs : ∀ c ∈ cs', c ∈ cs.calls ∨ c.decided = false) : Calm ⟨sh, cs'⟩ := by
  refine ⟨hpast, fun c hc hdec => ?_⟩
  rcases hcs c hc with hold | hnone
  · rw [h c hold] at hdec
    cases hdec
  · rw [hnone] at hdec
    cases hdec

theorem Calm.pass (h : Calm cs) (hi : cs.calls[i]? = some (.pass p))
    (hm : passMove cs.shared p m = some (s', p')) (hquiet : Undisturbed cs (.move i m)) :
    Calm ⟨s', cs.calls.set i (.pass p')⟩ := by
  have hcalmer := calmer_of_passMove hm
  refine ⟨hcalmer.past h.past, ?_⟩
  refine forall_set (fun c hc hdec => hcalmer.free (h.free c hc hdec)) fun hdec => hcalmer.free ?_
  rcases free_of_decided h.past hm hdec with hdecided | hfree | ⟨loaded, error, free, rfl, rfl, hrep⟩
  · exact h.free _ (List.mem_of_getElem? hi) hdecided
  · exact hfree
  · exact hquiet hi hrep

theorem Calm.transcription (h : Calm cs) (hi : cs.calls[i]? = some (.transcription t))
    (hm : transcribeMove cs.shared t m = some (s', t')) (hquiet : Undisturbed cs (.move i m)) :
    Calm ⟨s', cs.calls.set i (.transcription t')⟩ := by
  by_cases hcall : t = .ready ∧ ∃ name, m = .marker name
  · obtain ⟨rfl, name, rfl⟩ := hcall
    have hnone : NoneDecided cs := hquiet hi
    have hset : ∀ c ∈ cs.calls.set i (.transcription t'), c ∈ cs.calls ∨ c.decided = false :=
      forall_set (fun c hc => .inl hc) (.inr rfl)
    cases name with
    | none =>
      cases hm
      exact hnone.calm h.past hset
    | some name =>
      cases hm
      exact hnone.calm (past_create h.past name) hset
  · have hcalmer : Calmer cs.shared s' := by
      refine calmer_of_transcribeMove hm ?_
      rintro ht name rfl
      exact hcall ⟨ht, name, rfl⟩
    exact ⟨hcalmer.past h.past,
      forall_set (fun c hc hdec => hcalmer.free (h.free c hc hdec)) nofun⟩

theorem Calm.event (h : Calm cs) {e : Event} (hquiet : Undisturbed cs (.env e)) :
    Calm { cs with shared := AsrReaper.event cs.shared e } := by
  cases e with
  | tick d =>
    refine ⟨fun m hm => Nat.le_add_right_of_le (h.past m hm), fun c hc hdec => ?_⟩
    have hfree := h.free c hc hdec
    refine ⟨fun m hm => Nat.le_add_right_of_le (hfree.idle m hm), ?_⟩
    -- a pin that is over stays so
    have hover := hfree.unpinned
    revert hover
    unfold Shared.pinned AsrReaper.event
    cases cs.shared.pinnedUntil with
    | none => exact id
    | some epoch =>
      simp only [Option.any_some, decide_eq_false_iff_not]
      omega
  | pin =>
    have hpast : cs.shared.pin.Past := h.past
    exact NoneDecided.calm hquiet hpast fun c hc => .inl hc
  | unpin => exact ⟨h.past, fun c hc hdec => ⟨(h.free c hc hdec).idle, rfl⟩⟩
  | restart => exact ⟨h.past, fun c hc hdec => ⟨(h.free c hc hdec).idle, (h.free c hc hdec).unpinned⟩⟩

theorem Calm.step (h : Calm cs) {a : Act Request Move Event} (hquiet : Undisturbed cs a)
    (hs : dictation.step cs a = some cs') : Calm cs' := by
  cases a with
  | enter q =>
    cases hs
    refine ⟨h.past, forall_append h.free fun hdec => ?_⟩
    cases q <;> cases hdec
  | env e =>
    obtain ⟨sh, hsh, rfl⟩ := Machine.step_env hs
    cases hsh
    exact h.event hquiet
  | move i m =>
    obtain ⟨c, sh, c', hi, hm, rfl⟩ := Machine.step_move hs
    cases c with
    | pass p =>
      obtain ⟨⟨s', p'⟩, hmove, heq⟩ := Option.map_eq_some_iff.1 hm
      cases heq
      exact h.pass hi hmove hquiet
    | transcription t =>
      obtain ⟨⟨s', t'⟩, hmove, heq⟩ := Option.map_eq_some_iff.1 hm
      cases heq
      exact h.transcription hi hmove hquiet

/-- Where no call starts and no pin is set between a pass's decision and its order, and a repair
is decided on only while the sidecar is free, every stop that a pass orders finds no young
marker and no active pin. -/
theorem orders_free (now : Nat) (as : List (Act Request Move Event))
    (hquiet : Run.Meets dictation.step Undisturbed (.init (.init now)) as) :
    Run.Meets dictation.step OrdersFree (.init (.init now)) as := by
  have hstart : Calm (.init (.init now)) := ⟨nofun, nofun⟩
  refine Run.meets_of_inv ?_ (fun _ _ _ h hq hs => Calm.step h hq hs) hstart hquiet
  intro cs a h _
  cases a with
  | move i m =>
      cases m with
      | go =>
          intro c hc horders
          refine h.free c (List.mem_of_getElem? hc) ?_
          revert horders
          unfold Party.orders Party.decided
          split <;> simp
      | _ => trivial
  | _ => trivial

/-! Two stops, one of them of a call in flight. -/

instance (s : Shared) : Decidable s.Free :=
  decidable_of_iff ((∀ m ∈ s.inflight, m.mtime + seconds CALL_MAX_S ≤ s.now) ∧ s.pinned = false)
    ⟨fun h => ⟨h.1, h.2⟩, fun h => ⟨h.idle, h.unpinned⟩⟩

instance (s : Conf Shared Party) : Decidable (NoneDecided s) := by
  unfold NoneDecided
  infer_instance

instance (s : Conf Shared Party) (a : Act Request Move Event) : Decidable (OrdersFree s a) := by
  unfold OrdersFree
  split <;> infer_instance

instance (s : Conf Shared Party) (a : Act Request Move Event) : Decidable (Undisturbed s a) := by
  unfold Undisturbed
  split <;> infer_instance

/-- A pass that finds no clock arms it, and another one ten minutes later comes to its order. -/
def idleStop (between : List (Act Request Move Event)) : List (Act Request Move Event) :=
  [.enter .pass, .move 0 (.chat false), .move 0 .go, .env (.tick (seconds IDLE_S)), .enter .pass,
    .move 1 (.chat false), .move 1 .go, .move 1 .go, .move 1 .go] ++ between ++
  [.move 1 (.container .running none), .move 1 .go]

/-- A dictation up to its upstream call. -/
def dictates (i : Nat) : List (Act Request Move Event) :=
  [.enter .transcribe, .move i .go, .move i (.info true false none), .move i (.marker (some 7))]

/-- Nothing comes between the gates and the order. -/
theorem orders_free_idle : Run.Meets dictation.step Undisturbed (.init (.init 0)) (idleStop []) ∧
    Run.Meets dictation.step OrdersFree (.init (.init 0)) (idleStop []) :=
  ⟨by decide +kernel, orders_free 0 (idleStop []) (by decide +kernel)⟩

/-- A chat model runs and the dictation model could not be loaded: a dictation retries, the pass
repairs. -/
def repaired : List (Act Request Move Event) :=
  [.enter .transcribe, .move 0 .go, .move 0 (.info false true none),
    .move 0 (.container .running (some AUTO_MIN_KIB)), .move 0 (.marker (some 7)),
    .enter .pass, .move 1 (.chat true), .move 1 (.container .running none),
    .move 1 (.info false true (some AUTO_MIN_KIB)), .move 1 .go]

/-- A dictation that starts while the pass waits for the state of the container is cut, and so is
one that a repair finds. -/
theorem dictation_cut :
    (Run.exec dictation.step (.init (.init 0)) (idleStop (dictates 2))).isSome = true ∧
      ¬ Run.Meets dictation.step OrdersFree (.init (.init 0)) (idleStop (dictates 2)) ∧
      (Run.exec dictation.step (.init (.init 0)) repaired).isSome = true ∧
      ¬ Run.Meets dictation.step OrdersFree (.init (.init 0)) repaired := by
  decide +kernel

end Portal.AsrReaper
