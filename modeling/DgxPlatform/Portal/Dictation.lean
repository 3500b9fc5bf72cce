import DgxPlatform.Lib.Run
import DgxPlatform.Lib.Text
import Mathlib.Data.List.Nodup

/-! # Dictating into a field

`useDictation`: while a recording runs, each tick of a timer has everything recorded so
far transcribed again and writes the text behind what stood in the field before; the stop
has the whole recording transcribed once more. The answers come in any order.
-/

namespace Portal.Dictation

open Run
open Text (isJsSpace trimMatches trimEndMatches)

/-- A pass that is not answered yet: `final` for the one of the stop, `sent` once its
recording has been read and its request is on its way. -/
structure Call where
  id : Nat
  run : Nat
  final : Bool
  sent : Bool

/-- The field and the refs of the hook. `timer` is the run that the interval was started
in, `asking` counts the calls of `startRecording` that wait for the microphone. -/
structure Field where
  value : List Char
  base : List Char
  recorder : Bool
  isRecording : Bool
  isTranscribing : Bool
  error : Option (List Char)
  run : Nat
  timer : Option Nat
  busy : Bool
  asking : Nat
  calls : List Call
  next : Nat

def Field.init (value : List Char) : Field :=
  ⟨value, [], false, false, false, none, 0, none, false, 0, [], 0⟩

inductive Answer where
  | text (t : List Char)
  | refused (error : Option (List Char))

inductive Act where
  | type (text : List Char)
  | toggle
  | granted
  | denied
  | tick
  /-- The recording of a pass has been read; a snapshot of nothing is none. -/
  | recorded (id : Nat) (file : Bool)
  | answer (id : Nat) (a : Answer)
  | threw (id : Nat)
  | cancel

/-- What a pass makes of the field. -/
def written (base text : List Char) : List Char :=
  let spoken := trimMatches isJsSpace text
  if spoken = [] then base
  else if base = [] then spoken
  else trimEndMatches isJsSpace base ++ ' ' :: spoken

namespace Field

variable (s : Field)

def call? (id : Nat) : Option Call := s.calls.find? fun c => c.id = id

def asks (final : Bool) : Field :=
  { s with calls := s.calls ++ [⟨s.next, s.run, final, false⟩], next := s.next + 1 }

def send (id : Nat) : Field :=
  { s with calls := s.calls.map fun c => if c.id = id then { c with sent := true } else c }

/-- The `finally` of a pass. -/
def ends (c : Call) : Field :=
  let s := { s with calls := s.calls.filter fun d => d.id ≠ c.id }
  if c.final then { s with isTranscribing := false } else { s with busy := false }

/-- What `transcribe` does with its answer. -/
def hears (c : Call) (a : Answer) : Field :=
  if c.run ≠ s.run then s
  else match a with
    | .text t => { s with value := written s.base t }
    | .refused e => { s with error := e }

def stop : Field := { s with error := none, recorder := false, isRecording := false, timer := none }

def toggle : Field :=
  if s.isRecording then
    if s.recorder then { s.stop.asks true with isTranscribing := true } else s.stop
  else { s with error := none, asking := s.asking + 1 }

def tick (run : Nat) : Field :=
  if s.busy ∨ run ≠ s.run then s
  else if s.recorder then { s.asks false with busy := true }
  else s

end Field

def step (s : Field) : Act → Option Field
  | .type text => some { s with value := text }
  | .toggle => some s.toggle
  | .granted =>
      if 0 < s.asking then
        some { s with
          asking := s.asking - 1, recorder := true, base := s.value, isRecording := true
          timer := if s.isRecording then s.timer else some s.run }
      else none
  | .denied => if 0 < s.asking then some { s with asking := s.asking - 1, error := some "mic".toList } else none
  | .tick => s.timer.map s.tick
  | .recorded id file =>
      (s.call? id).bind fun c =>
        if c.sent then none
        else if file ∨ c.final then some (s.send id)
        else some (s.ends c)
  | .answer id a => (s.call? id).bind fun c => if c.sent then some ((s.hears c a).ends c) else none
  | .threw id =>
      (s.call? id).map fun c => if c.final then { s with error := some [] }.ends c else s.ends c
  | .cancel =>
      some { s with
        run := s.run + 1, recorder := false, isRecording := false, isTranscribing := false, timer := none }

/-! ## What a step does -/

section Steps

variable {s s' : Field} {a : Act} {c : Call} {id : Nat}

theorem mem_of_call? (h : s.call? id = some c) : c ∈ s.calls ∧ c.id = id :=
  ⟨List.mem_of_find?_eq_some h, by simpa using List.find?_some h⟩

theorem hears_eq (s : Field) (c : Call) (a : Answer) :
    ∃ e, s.hears c a = { s with value := (s.hears c a).value, error := e } := by
  unfold Field.hears
  split
  · exact ⟨s.error, rfl⟩
  · cases a with
    | text t => exact ⟨s.error, rfl⟩
    | refused e => exact ⟨e, rfl⟩

theorem ends_eq (s : Field) (c : Call) :
    s.ends c = { s with
      calls := s.calls.filter fun d => d.id ≠ c.id
      isTranscribing := !c.final && s.isTranscribing, busy := c.final && s.busy } := by
  unfold Field.ends
  cases c.final <;> rfl

theorem mem_send {d : Call} (h : d ∈ (s.send id).calls) :
    ∃ c ∈ s.calls, d.id = c.id ∧ d.run = c.run ∧ d.final = c.final := by
  obtain ⟨c, hc, rfl⟩ := List.mem_map.1 h
  refine ⟨c, hc, ?_⟩
  split <;> exact ⟨rfl, rfl, rfl⟩

theorem mem_ends {d : Call} (h : d ∈ (s.ends c).calls) : d ∈ s.calls ∧ d.id ≠ c.id := by
  rw [ends_eq] at h
  simpa using List.mem_filter.1 h

end Steps

/-! ## What holds in every run -/

/-- What is in flight has been asked for in a run that has begun, and at most one pass of
the timer is. -/
structure Sane (s : Field) : Prop where
  known : ∀ c ∈ s.calls, c.id < s.next ∧ c.run ≤ s.run
  ids : (s.calls.map Call.id).Nodup
  one : s.calls.countP (fun c => !c.final) ≤ 1
  busy : ∀ c ∈ s.calls, c.final = false → s.busy = true

namespace Sane

variable {s s' : Field} {a : Act} {c : Call}

theorem init (value : List Char) : Sane (.init value) :=
  ⟨fun _ h => absurd h List.not_mem_nil, List.nodup_nil, Nat.zero_le 1, fun _ h => absurd h List.not_mem_nil⟩

/-- A pass has an id of its own. -/
theorem known_asks (h : Sane s) (final : Bool) :
    (∀ c ∈ (s.asks final).calls, c.id < (s.asks final).next ∧ c.run ≤ (s.asks final).run) ∧
      ((s.asks final).calls.map Call.id).Nodup := by
  constructor
  · intro c hc
    rcases List.mem_append.1 hc with hc | hc
    · exact ⟨Nat.lt_succ_of_lt (h.known c hc).1, (h.known c hc).2⟩
    · cases List.mem_singleton.1 hc
      exact ⟨Nat.lt_succ_self _, Nat.le_refl _⟩
  · rw [Field.asks, List.map_append, List.map_singleton, List.nodup_append]
    refine ⟨h.ids, List.nodup_singleton _, ?_⟩
    intro a ha b hb
    obtain ⟨c, hc, rfl⟩ := List.mem_map.1 ha
    rw [List.mem_singleton.1 hb]
    exact Nat.ne_of_lt (h.known c hc).1

theorem asks_final (h : Sane s) : Sane (s.asks true) := by
  refine ⟨(h.known_asks true).1, (h.known_asks true).2, ?_, ?_⟩
  · simpa [Field.asks] using h.one
  · intro c hc hfinal
    rcases List.mem_append.1 hc with hc | hc
    · exact h.busy c hc hfinal
    · cases List.mem_singleton.1 hc
      cases hfinal

theorem tick (h : Sane s) (run : Nat) : Sane (s.tick run) := by
  unfold Field.tick
  split
  · exact h
  · next hfree =>
    split
    · rw [not_or, Bool.not_eq_true] at hfree
      -- nothing of the timer is in flight
      have hnone : s.calls.countP (fun c => !c.final) = 0 := by
        refine List.countP_eq_zero.2 fun c hc hfinal => ?_
        rw [h.busy c hc (by simpa using hfinal)] at hfree
        cases hfree.1
      refine ⟨(h.known_asks false).1, (h.known_asks false).2, ?_, fun _ _ _ => rfl⟩
      simp [Field.asks, hnone]
    · exact h

theorem send (h : Sane s) (id : Nat) : Sane (s.send id) := by
  refine ⟨?_, ?_, ?_, ?_⟩
  · intro d hd
    obtain ⟨c, hc, hid, hrun, -⟩ := mem_send hd
    rw [hid, hrun]
    exact h.known c hc
  · have hsame : (Call.id ∘ fun c => if c.id = id then { c with sent := true } else c) = Call.id := by
      funext c
      dsimp only [Function.comp_apply]
      split <;> rfl
    rw [Field.send, List.map_map, hsame]
    exact h.ids
  · have hsame : ((fun c : Call => !c.final) ∘ fun c => if c.id = id then { c with sent := true } else c)
        = fun c => !c.final := by
      funext c
      dsimp only [Function.comp_apply]
      split <;> rfl
    rw [Field.send, List.countP_map, hsame]
    exact h.one
  · intro d hd hfinal
    obtain ⟨c, hc, -, -, hf⟩ := mem_send hd
    exact h.busy c hc (hf ▸ hfinal)

theorem ends (h : Sane s) (hc : c ∈ s.calls) : Sane (s.ends c) := by
  have hsub : ∀ d ∈ (s.ends c).calls, d ∈ s.calls := fun d hd => (mem_ends hd).1
  refine ⟨?_, ?_, ?_, ?_⟩
  · rw [ends_eq] at hsub ⊢
    exact fun d hd => h.known d (hsub d hd)
  · rw [ends_eq]
    exact h.ids.sublist (List.filter_sublist.map Call.id)
  · rw [ends_eq]
    exact (List.filter_sublist.countP_le).trans h.one
  · intro d hd hfinal
    have hd' := mem_ends hd
    have hbusy := h.busy d hd'.1 hfinal
    cases hcf : c.final with
    | true => simpa [ends_eq, hcf] using hbusy
    | false =>
      -- the two would both be passes of the timer
      have hne : c ≠ d := fun e => hd'.2 (e ▸ rfl)
      have hcm : c ∈ s.calls.filter fun c => !c.final := by simp [hc, hcf]
      have hdm : d ∈ s.calls.filter fun c => !c.final := by simp [hd'.1, hfinal]
      have hle := h.one
      rw [List.countP_eq_length_filter] at hle
      obtain ⟨x, hx⟩ := List.length_eq_one_iff.1 (Nat.le_antisymm hle (List.length_pos_of_mem hcm))
      rw [hx, List.mem_singleton] at hcm hdm
      exact absurd (hcm.trans hdm.symm) hne

theorem step (h : Sane s) (hs : step s a = some s') : Sane s' := by
  cases a with
  | type text =>
    cases hs
    exact ⟨h.known, h.ids, h.one, h.busy⟩
  | toggle =>
    cases hs
    unfold Field.toggle
    split
    · split
      · have hfinal := h.asks_final
        exact ⟨hfinal.known, hfinal.ids, hfinal.one, hfinal.busy⟩
      · exact ⟨h.known, h.ids, h.one, h.busy⟩
    · exact ⟨h.known, h.ids, h.one, h.busy⟩
  | granted | denied =>
    rw [Dictation.step] at hs
    split at hs
    · cases hs
      exact ⟨h.known, h.ids, h.one, h.busy⟩
    · cases hs
  | tick =>
    obtain ⟨run, -, rfl⟩ := Option.map_eq_some_iff.1 hs
    exact h.tick run
  | recorded id file =>
    obtain ⟨c, hc, hs⟩ := Option.bind_eq_some_iff.1 hs
    split at hs
    · cases hs
    · split at hs
      · cases hs
        exact h.send id
      · cases hs
        exact h.ends (mem_of_call? hc).1
  | answer id b =>
    obtain ⟨c, hc, hs⟩ := Option.bind_eq_some_iff.1 hs
    split at hs
    · obtain ⟨e, heq⟩ := hears_eq s c b
      cases hs
      rw [heq]
      exact ends ⟨h.known, h.ids, h.one, h.busy⟩ (mem_of_call? hc).1
    · cases hs
  | threw id =>
    obtain ⟨c, hc, rfl⟩ := Option.map_eq_some_iff.1 hs
    split
    · exact ends ⟨h.known, h.ids, h.one, h.busy⟩ (mem_of_call? hc).1
    · exact h.ends (mem_of_call? hc).1
  | cancel =>
    cases hs
    exact ⟨fun c hc => ⟨(h.known c hc).1, Nat.le_succ_of_le (h.known c hc).2⟩, h.ids, h.one, h.busy⟩

theorem call? (h : Sane s) (hc : c ∈ s.calls) : s.call? c.id = some c := by
  cases hfind : s.call? c.id with
  | none => simpa using List.find?_eq_none.1 hfind c hc
  | some d =>
    have hd := mem_of_call? hfind
    rw [List.inj_on_of_nodup_map h.ids hd.1 hc hd.2]

end Sane

/-- In every run, a pass of the timer is in flight at most once. -/
theorem one_partial (value : List Char) (acts : List Act) :
    Always step (fun s => s.calls.countP (fun c => !c.final) ≤ 1) (.init value) acts := by
  intro pre _ s hs
  exact (exec_kept (fun _ _ _ h hs => Sane.step h hs) (Sane.init value) hs).one

/-! ## Without a recording -/

/-- Nothing is typed, and no recording begins. -/
def Act.Quiet : Act → Prop
  | .type _ | .granted => False
  | _ => True

def Idle (s : Field) : Prop := s.isRecording = false ∧ s.timer = none

/-- What a step can do while no recording runs: what was in flight may end, and it writes
if it is of the run. -/
structure Rests (s : Field) (a : Act) (s' : Field) : Prop where
  idle : Idle s'
  base : s'.base = s.base
  le : s.run ≤ s'.run
  run : a ≠ .cancel → s'.run = s.run
  calls : ∀ d ∈ s'.calls, ∃ c ∈ s.calls, d.id = c.id ∧ d.run = c.run
  value : s'.value ≠ s.value → ∃ c ∈ s.calls, c.run = s.run

section Quiet

variable {s s' t : Field} {a : Act} {c : Call} {acts : List Act}

theorem rests_ends (hidle : Idle s) (a : Act) (c : Call) (e : Option (List Char)) {v : List Char}
    (hv : v ≠ s.value → ∃ c ∈ s.calls, c.run = s.run) :
    Rests s a ({ s with value := v, error := e }.ends c) := by
  rw [ends_eq]
  exact ⟨hidle, rfl, Nat.le_refl _, fun _ => rfl, fun d hd => ⟨d, (List.mem_filter.1 hd).1, rfl, rfl⟩, hv⟩

theorem rests_of_quiet (hidle : Idle s) (hq : a.Quiet) (hs : step s a = some s') : Rests s a s' := by
  have hkeep : ∀ {u : Field}, u.calls = s.calls →
      ∀ d ∈ u.calls, ∃ c ∈ s.calls, d.id = c.id ∧ d.run = c.run :=
    fun hu d hd => ⟨d, hu ▸ hd, rfl, rfl⟩
  cases a with
  | type text | granted => exact hq.elim
  | toggle =>
    rw [step, Field.toggle, hidle.1, if_neg Bool.false_ne_true] at hs
    cases hs
    exact ⟨⟨rfl, hidle.2⟩, rfl, Nat.le_refl _, fun _ => rfl, hkeep rfl, fun h => absurd rfl h⟩
  | denied =>
    rw [step] at hs
    split at hs
    · cases hs
      exact ⟨hidle, rfl, Nat.le_refl _, fun _ => rfl, hkeep rfl, fun h => absurd rfl h⟩
    · cases hs
  | tick =>
    rw [step, hidle.2] at hs
    cases hs
  | recorded id file =>
    obtain ⟨c, -, hs⟩ := Option.bind_eq_some_iff.1 hs
    split at hs
    · cases hs
    · split at hs
      · cases hs
        refine ⟨hidle, rfl, Nat.le_refl _, fun _ => rfl, ?_, fun h => absurd rfl h⟩
        intro d hd
        obtain ⟨c, hc, hid, hrun, -⟩ := mem_send hd
        exact ⟨c, hc, hid, hrun⟩
      · cases hs
        exact rests_ends hidle _ c s.error fun h => absurd rfl h
  | answer id b =>
    obtain ⟨c, hc, hs⟩ := Option.bind_eq_some_iff.1 hs
    split at hs
    · cases hs
      obtain ⟨e, heq⟩ := hears_eq s c b
      rw [heq]
      refine rests_ends hidle _ c e fun hne => ?_
      by_contra hstale
      refine hne ?_
      unfold Field.hears
      rw [if_pos fun hrun => hstale ⟨c, (mem_of_call? hc).1, hrun⟩]
    · cases hs
  | threw id =>
    obtain ⟨c, -, rfl⟩ := Option.map_eq_some_iff.1 hs
    split
    · exact rests_ends hidle _ c _ fun h => absurd rfl h
    · exact rests_ends hidle _ c s.error fun h => absurd rfl h
  | cancel =>
    cases hs
    exact ⟨⟨rfl, rfl⟩, rfl, Nat.le_succ _, fun h => absurd rfl h, hkeep rfl, fun h => absurd rfl h⟩

/-- What is in flight counts no more, and the field says `v`. -/
structure Still (v : List Char) (s : Field) : Prop where
  idle : Idle s
  stale : ∀ c ∈ s.calls, c.run < s.run
  value : s.value = v

theorem Still.step {v : List Char} (h : Still v s) (hq : a.Quiet) (hs : step s a = some s') : Still v s' := by
  have hrests := rests_of_quiet h.idle hq hs
  refine ⟨hrests.idle, ?_, ?_⟩
  · intro d hd
    obtain ⟨c, hc, -, hrun⟩ := hrests.calls d hd
    rw [hrun]
    exact Nat.lt_of_lt_of_le (h.stale c hc) hrests.le
  · by_contra hne
    rw [← h.value] at hne
    obtain ⟨c, hc, hrun⟩ := hrests.value hne
    exact absurd hrun (Nat.ne_of_lt (h.stale c hc))

theorem Still.exec {v : List Char} (h : Still v s) (hq : ∀ a ∈ acts, a.Quiet)
    (ht : exec Dictation.step s acts = some t) : t.value = v :=
  (exec_inv (fun _ a _ h hq hs => Still.step (a := a) h hq hs) h (meets_of_labels hq) ht).value

/-- After a cancel, until the next recording begins, the answers on their way write
nothing. -/
theorem silent_after_cancel {v : List Char} {before : List Act}
    (hs : exec step (.init v) before = some s) (hq : ∀ a ∈ acts, a.Quiet)
    (ht : exec step s (.cancel :: acts) = some t) : t.value = s.value := by
  have hsane : Sane s := exec_kept (fun _ _ _ h hs => h.step hs) (Sane.init v) hs
  obtain ⟨m, hm, ht⟩ := exec_cons_eq_some.1 ht
  cases hm
  have hstill : Still s.value { s with
      run := s.run + 1, recorder := false, isRecording := false, isTranscribing := false, timer := none } :=
    ⟨⟨rfl, rfl⟩, fun c hc => Nat.lt_succ_of_le (hsane.known c hc).2, rfl⟩
  exact hstill.exec hq ht

/-- A recording whose first pass is on its way. -/
def firstPass : List Act := [.toggle, .granted, .tick, .recorded 0 true]

theorem silent_after_cancel_firstPass :
    ∃ s t, exec step (.init "Note :".toList) firstPass = some s ∧
      exec step s [.cancel, .answer 0 (.text "Bonjour".toList)] = some t ∧ t.value = s.value :=
  ⟨_, _, rfl, rfl, @silent_after_cancel _ _ [.answer 0 (.text "Bonjour".toList)] "Note :".toList firstPass rfl
    (List.forall_mem_singleton.2 trivial) rfl⟩

/-- A pass of the run that is in flight can be answered, and writes what it says. -/
theorem answered (hsane : Sane s) (hc : c ∈ s.calls) (hlive : c.run = s.run) (x : List Char) :
    ∃ p t, (∀ a ∈ p, a.Quiet ∧ a ≠ .cancel) ∧ exec step s (p ++ [.answer c.id (.text x)]) = some t ∧
      t.value = written s.base x ∧ Sane t ∧ t.run = s.run ∧ t.base = s.base ∧
      ∀ d ∈ s.calls, d.id ≠ c.id → d ∈ t.calls := by
  have hsent : ∀ {u : Field} {c : Call}, Sane u → c ∈ u.calls → c.sent = true → c.run = u.run →
      ∃ t, step u (.answer c.id (.text x)) = some t ∧ t.value = written u.base x ∧ t.run = u.run ∧
        t.base = u.base ∧ ∀ d ∈ u.calls, d.id ≠ c.id → d ∈ t.calls := by
    intro u c hu hc hs hrun
    have hheard : u.hears c (.text x) = { u with value := written u.base x } := by
      unfold Field.hears
      rw [if_neg (not_not.2 hrun)]
    refine ⟨{ u with value := written u.base x }.ends c, ?_, ?_⟩
    · rw [step, hu.call? hc, Option.bind_some, if_pos hs, hheard]
    · rw [ends_eq]
      exact ⟨rfl, rfl, rfl, fun d hd hne => List.mem_filter.2 ⟨hd, by simpa using hne⟩⟩
  cases hcs : c.sent with
  | true =>
    obtain ⟨t, ht, hrest⟩ := hsent hsane hc hcs hlive
    exact ⟨[], t, nofun, by rw [List.nil_append, exec_cons, ht]; rfl, hrest.1, hsane.step ht, hrest.2⟩
  | false =>
    have hmem : { c with sent := true } ∈ (s.send c.id).calls :=
      List.mem_map.2 ⟨c, hc, if_pos rfl⟩
    have hread : step s (.recorded c.id true) = some (s.send c.id) := by
      rw [step, hsane.call? hc, Option.bind_some, hcs, if_neg Bool.false_ne_true, if_pos (.inl rfl)]
    obtain ⟨t, ht, hvalue, hrun, hbase, hrest⟩ := hsent (hsane.send c.id) hmem rfl hlive
    refine ⟨[.recorded c.id true], t, ?_, ?_, hvalue, (hsane.send c.id).step ht, hrun, hbase, ?_⟩
    · exact List.forall_mem_singleton.2 ⟨trivial, nofun⟩
    · rw [List.singleton_append, exec_cons, hread, Option.bind_some, exec_cons, ht]
      rfl
    · intro d hd hne
      exact hrest d (List.mem_map.2 ⟨d, hd, if_neg hne⟩) hne

/-! ## The pass of the stop -/

/-- Of the run, only the pass `n` of the stop is in flight. -/
structure Waits (b : List Char) (n : Nat) (s : Field) : Prop where
  idle : Idle s
  base : s.base = b
  calls : ∀ c ∈ s.calls, c.run ≤ s.run ∧ (c.run = s.run ↔ c.id = n)

theorem Waits.step {b : List Char} {n : Nat} (h : Waits b n s) (hq : a.Quiet ∧ a ≠ .cancel)
    (hs : step s a = some s') : Waits b n s' := by
  have hrests := rests_of_quiet h.idle hq.1 hs
  refine ⟨hrests.idle, hrests.base.trans h.base, ?_⟩
  intro d hd
  obtain ⟨c, hc, hid, hrun⟩ := hrests.calls d hd
  rw [hid, hrun, hrests.run hq.2]
  exact h.calls c hc

theorem toggle_stops (hrec : s.isRecording = true) (hmic : s.recorder = true) :
    step s .toggle = some { s.stop.asks true with isTranscribing := true } := by
  rw [step, Field.toggle, hrec, hmic]
  rfl

theorem written_ne (base : List Char) : written base ['b'] ≠ written base ['a'] := by
  have ha : trimMatches isJsSpace ['a'] = ['a'] := by decide
  have hb : trimMatches isJsSpace ['b'] = ['b'] := by decide
  unfold written
  rw [ha, hb]
  by_cases hbase : base = [] <;> simp [hbase]

/-- The text of the stop is what the field says in the end, in whatever order the answers
come, exactly if nothing else of the run was in flight at the stop. -/
theorem final_stands_iff {v : List Char} {before : List Act}
    (hs : exec step (.init v) before = some s) (hrec : s.isRecording = true) (hmic : s.recorder = true) :
    (∀ p q x t, (∀ a ∈ p, a.Quiet ∧ a ≠ .cancel) → (∀ a ∈ q, a.Quiet) →
      exec step s (.toggle :: (p ++ .answer s.next (.text x) :: q)) = some t → t.value = written s.base x) ↔
        ∀ c ∈ s.calls, c.run ≠ s.run := by
  have hsane : Sane s := exec_kept (fun _ _ _ h hs => h.step hs) (Sane.init v) hs
  have htoggle := toggle_stops hrec hmic
  constructor
  · intro hstands c hc hrun
    -- the stop is answered first, then the pass that was in flight
    obtain ⟨p, m, hp, hm, -, hm', hmrun, hmbase, hkeep⟩ :=
      answered (hsane.step htoggle) (List.mem_append_right _ (List.mem_singleton_self _)) rfl ['a']
    have hcm : c ∈ m.calls :=
      hkeep c (List.mem_append_left _ hc) (Nat.ne_of_lt (hsane.known c hc).1)
    obtain ⟨q, t, hq, ht, htvalue, -⟩ := answered hm' hcm (hrun.trans hmrun.symm) ['b']
    have hall := hstands p (q ++ [.answer c.id (.text ['b'])]) ['a'] t hp ?_ ?_
    · rw [htvalue, hmbase] at hall
      exact written_ne s.base hall
    · intro a ha
      rcases List.mem_append.1 ha with ha | ha
      · exact (hq a ha).1
      · cases List.mem_singleton.1 ha
        trivial
    · rw [exec_cons, htoggle, Option.bind_some]
      have hsplit : p ++ .answer s.next (.text ['a']) :: (q ++ [.answer c.id (.text ['b'])]) =
          (p ++ [.answer s.next (.text ['a'])]) ++ (q ++ [.answer c.id (.text ['b'])]) := by simp
      rw [hsplit]
      exact exec_append_eq_some.2 ⟨m, hm, ht⟩
  · intro hnone p q x t hp hq ht
    obtain ⟨m, hm, ht⟩ := exec_cons_eq_some.1 ht
    cases htoggle.symm.trans hm
    obtain ⟨m, hm, ht⟩ := exec_append_eq_some.1 ht
    have hwaits : Waits s.base s.next m := by
      have hstart : Waits s.base s.next { s.stop.asks true with isTranscribing := true } := by
        refine ⟨⟨rfl, rfl⟩, rfl, fun c hc => ?_⟩
        rcases List.mem_append.1 hc with hc | hc
        · have hknown := hsane.known c hc
          exact ⟨hknown.2, iff_of_false (hnone c hc) (Nat.ne_of_lt hknown.1)⟩
        · cases List.mem_singleton.1 hc
          exact ⟨Nat.le_refl _, iff_of_true rfl rfl⟩
      exact exec_inv (fun _ a _ h hq hs => Waits.step (a := a) h hq hs) hstart (meets_of_labels hp) hm
    obtain ⟨m', hm', ht⟩ := exec_cons_eq_some.1 ht
    have hrests := rests_of_quiet hwaits.idle (by trivial) hm'
    obtain ⟨c, hc, hm'⟩ := Option.bind_eq_some_iff.1 hm'
    split at hm'
    · cases hm'
      have hc := mem_of_call? hc
      have hlive : c.run = m.run := ((hwaits.calls c hc.1).2).2 hc.2
      refine Still.exec (s := (m.hears c (.text x)).ends c) ⟨hrests.idle, ?_, ?_⟩ hq ht
      · intro d hd
        have hd' := mem_ends hd
        obtain ⟨e, heq⟩ := hears_eq m c (.text x)
        rw [heq] at hd'
        rw [hrests.run nofun]
        have hcall := hwaits.calls d hd'.1
        exact Nat.lt_of_le_of_ne hcall.1 fun h => hd'.2 ((hcall.2.1 h).trans hc.2.symm)
      · rw [ends_eq, ← hwaits.base]
        unfold Field.hears
        rw [if_neg (not_not.2 hlive)]
    · cases hm'

theorem final_stands_firstPass :
    ∃ s, exec step (.init []) firstPass = some s ∧
      ¬ ∀ p q x t, (∀ a ∈ p, a.Quiet ∧ a ≠ .cancel) → (∀ a ∈ q, a.Quiet) →
        exec step s (.toggle :: (p ++ .answer s.next (.text x) :: q)) = some t → t.value = written s.base x :=
  ⟨_, rfl, fun h => (@final_stands_iff _ [] firstPass rfl rfl rfl).1 h _
    (List.mem_singleton_self _) rfl⟩

end Quiet

end Portal.Dictation
