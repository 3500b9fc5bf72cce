import Mathlib.Algebra.Field.Rat
import Mathlib.Computability.RegularExpressions
import Mathlib.Data.List.Chain
import Mathlib.Tactic.Ring
import DgxPlatform.Lib.Run

/-! # The microphone of the voice mode

`MicListener` finds where the sentences of the user start and end, from the energy of the frames
that the microphone delivers. It may be muted, and guarded while the assistant speaks, at any time.

* `process_move`: what a frame can do.
-/

namespace Portal.Voice

/-! ## The words of a microphone -/

inductive Kind
  | speechStart
  | speechConfirmed
  | speechEnd
  deriving DecidableEq

open RegularExpression (char)

/-- An utterance up to its end. -/
def opened : RegularExpression Kind := char .speechStart * (1 + char .speechConfirmed)

def utterance : RegularExpression Kind := opened * char .speechEnd

/-- Utterances one after the other, the last of which may still be open. -/
def speech : RegularExpression Kind := utterance.star * (1 + opened)

/-- What may come next. -/
def Kind.follows : Kind → Kind → Bool
  | .speechStart, .speechConfirmed => true
  | .speechStart, .speechEnd => true
  | .speechConfirmed, .speechEnd => true
  | .speechEnd, .speechStart => true
  | _, _ => false

variable {w : List Kind}

theorem mem_opened : w ∈ opened.matches' ↔ w = [.speechStart] ∨ w = [.speechStart, .speechConfirmed] := by
  constructor
  · intro h
    obtain ⟨a, ha, b, hb, rfl⟩ := Language.mem_mul.1 h
    obtain rfl : a = [.speechStart] := ha
    rcases (Language.mem_add _ _ _).1 hb with hb | hb
    · rw [(Language.mem_one b).1 hb]
      exact .inl rfl
    · rw [show b = [.speechConfirmed] from hb]
      exact .inr rfl
  · rintro (rfl | rfl)
    · exact Language.mem_mul.2 ⟨_, rfl, [], .inl rfl, rfl⟩
    · exact Language.mem_mul.2 ⟨_, rfl, [.speechConfirmed], .inr rfl, rfl⟩

theorem eq_of_mem_utterance (h : w ∈ utterance.matches') :
    w = [.speechStart, .speechEnd] ∨ w = [.speechStart, .speechConfirmed, .speechEnd] := by
  obtain ⟨a, ha, b, rfl, rfl⟩ := Language.mem_mul.1 h
  rcases mem_opened.1 ha with rfl | rfl
  · exact .inl rfl
  · exact .inr rfl

theorem closed_append {w a : List Kind} (hw : w ∈ utterance.star.matches') (ha : a ∈ opened.matches') :
    w ++ (a ++ [.speechEnd]) ∈ utterance.star.matches' := by
  obtain ⟨S, rfl, hS⟩ := Language.mem_kstar.1 hw
  refine Language.mem_kstar.2 ⟨S ++ [a ++ [.speechEnd]], by rw [List.flatten_concat], ?_⟩
  intro y hy
  rcases List.mem_append.1 hy with hy | hy
  · exact hS y hy
  · rw [List.mem_singleton.1 hy]
    exact Language.mem_mul.2 ⟨a, ha, _, rfl, rfl⟩

theorem mem_speech : w ∈ speech.matches' ↔ w ∈ utterance.star.matches' ∨
      ∃ v ∈ utterance.star.matches', ∃ a ∈ opened.matches', w = v ++ a := by
  constructor
  · intro h
    obtain ⟨v, hv, a, ha, rfl⟩ := Language.mem_mul.1 h
    rcases (Language.mem_add _ _ _).1 ha with ha | ha
    · rw [(Language.mem_one a).1 ha, List.append_nil]
      exact .inl hv
    · exact .inr ⟨v, hv, a, ha, rfl⟩
  · rintro (h | ⟨v, hv, a, ha, rfl⟩)
    · exact Language.mem_mul.2 ⟨w, h, [], .inl rfl, List.append_nil w⟩
    · exact Language.mem_mul.2 ⟨v, hv, a, .inr ha, rfl⟩

theorem isChain_speech (h : w ∈ speech.matches') : w.IsChain fun a b => a.follows b = true := by
  have hall : ∀ (S : List (List Kind)) (a : List Kind), (∀ y ∈ S, y ∈ utterance.matches') →
      (a = [] ∨ a ∈ opened.matches') → (S.flatten ++ a).IsChain fun a b => a.follows b = true := by
    intro S a hS ha
    have hhead : a.head?.all (· == .speechStart) = true ∧ a.IsChain fun a b => a.follows b = true := by
      rcases ha with rfl | ha
      · decide
      · rcases mem_opened.1 ha with rfl | rfl <;> decide
    have hstart : ((S.flatten ++ a).head?.all (· == .speechStart)) = true ∧
        (S.flatten ++ a).IsChain fun a b => a.follows b = true := by
      induction S with
      | nil => exact hhead
      | cons p S ih =>
        obtain ⟨hfirst, hchain⟩ := ih fun y hy => hS y (List.mem_cons_of_mem p hy)
        rw [List.flatten_cons, List.append_assoc]
        generalize S.flatten ++ a = u at hfirst hchain
        have hu : ∀ y ∈ u.head?, Kind.follows .speechEnd y = true := by
          intro y hy
          have hy' := (Option.all_eq_true _ _).1 hfirst y hy
          rw [beq_iff_eq.1 hy']
          rfl
        rcases eq_of_mem_utterance (hS p List.mem_cons_self) with rfl | rfl
        · exact ⟨rfl, .cons_cons rfl (List.isChain_cons.2 ⟨hu, hchain⟩)⟩
        · exact ⟨rfl, .cons_cons rfl (.cons_cons rfl (List.isChain_cons.2 ⟨hu, hchain⟩))⟩
    exact hstart.2
  rcases mem_speech.1 h with hw | ⟨v, hv, a, ha, rfl⟩
  · obtain ⟨S, rfl, hS⟩ := Language.mem_kstar.1 hw
    have hchain := hall S [] hS (.inl rfl)
    rwa [List.append_nil] at hchain
  · obtain ⟨S, rfl, hS⟩ := Language.mem_kstar.1 hv
    exact hall S a hS (.inr ha)

/-! ## The listener -/

def PREROLL_MS : Nat := 350
def START_MS : Nat := 120
def START_MS_GUARDED : Nat := 300
def END_SILENCE_MS : Nat := 800
def CONFIRM_MS : Nat := 700
def MIN_UTTERANCE_MS : Nat := 350
def MAX_UTTERANCE_MS : Nat := 30000

/-- The samples of one frame. -/
abbrev Frame (K : Type*) := List K

/-- What the listener calls. The recording that `onSpeechEnd` is given is `toWav` of the frames. -/
inductive Callback (K : Type*)
  | onSpeechStart
  | onSpeechConfirmed
  | onSpeechEnd (wav : Option (List (Frame K))) (confirmed : Bool)

def Callback.kind {K : Type*} : Callback K → Kind
  | .onSpeechStart => .speechStart
  | .onSpeechConfirmed => .speechConfirmed
  | .onSpeechEnd _ _ => .speechEnd

structure MicListener (K : Type*) where
  level : K
  muted : Bool
  guard : Bool
  pre : List (Frame K)
  utt : Option (List (Frame K))
  noise : K
  loudMs : K
  quietMs : K
  uttMs : K
  confirmed : Bool

/-- What happens to a listener: the page mutes or guards it, or a frame arrives. -/
inductive Input (K : Type*)
  | setMuted (b : Bool)
  | setGuard (b : Bool)
  | frame (input : Frame K)

/-- The numbers of an arithmetic, rounded or exact. No law is asked of it. -/
class Numbers (K : Type*) extends Add K, Sub K, Mul K, Div K, Max K, Min K, LT K, LE K, NatCast K,
    OfScientific K where
  decidableLT : DecidableLT K
  decidableLE : DecidableLE K

attribute [reducible, instance] Numbers.decidableLT Numbers.decidableLE

section Listener

variable {K : Type*} [Numbers K] (sqrt : K → K) (sampleRate : K)

/-- How long a number of samples lasts. -/
def millis (n : Nat) : K := (n : K) / sampleRate * (1000 : Nat)

def rms (frame : Frame K) : K :=
  sqrt (frame.foldl (fun sum x => sum + x * x) ((0 : Nat) : K) / (frame.length : K))

/-- Only the last frames are kept before an utterance. -/
def preroll : List (Frame K) → List (Frame K)
  | c :: d :: cs =>
      if ((PREROLL_MS : Nat) : K) < millis sampleRate ((c :: d :: cs).map List.length).sum then preroll (d :: cs)
      else c :: d :: cs
  | cs => cs

/-- A frame in front of an utterance. The noise follows the room. -/
def MicListener.listen (m : MicListener K) (frame : Frame K) (r : K) (loud : Bool) : MicListener K :=
  { m with
    noise := if loud then m.noise else m.noise * 0.97 + r * 0.03
    pre := preroll sampleRate (m.pre ++ [frame])
    loudMs := if loud then m.loudMs + millis sampleRate frame.length else ((0 : Nat) : K) }

/-- An utterance begins with the frames that were kept. -/
def MicListener.start (m : MicListener K) : MicListener K :=
  { m with
    utt := some m.pre, pre := [], quietMs := ((0 : Nat) : K), uttMs := m.loudMs + ((PREROLL_MS : Nat) : K)
    confirmed := false }

/-- How long it must be loud for an utterance to begin. -/
def MicListener.startMs (m : MicListener K) : Nat := if m.guard then START_MS_GUARDED else START_MS

/-- A frame while no utterance is open. -/
def MicListener.wait (m : MicListener K) (frame : Frame K) (r : K) (loud : Bool) :
    MicListener K × List (Callback K) :=
  let m := m.listen sampleRate frame r loud
  if (m.startMs : K) ≤ m.loudMs then (m.start, [.onSpeechStart])
  else (m, [])

/-- A frame of the utterance `utt`. -/
def MicListener.extend (m : MicListener K) (utt : List (Frame K)) (frame : Frame K) (loud : Bool) : MicListener K :=
  { m with
    utt := some (utt ++ [frame])
    uttMs := m.uttMs + millis sampleRate frame.length
    quietMs := if loud then ((0 : Nat) : K) else m.quietMs + millis sampleRate frame.length }

/-- No utterance is open any more. -/
def MicListener.drop (m : MicListener K) : MicListener K := { m with utt := none, loudMs := ((0 : Nat) : K) }

def MicListener.confirm (m : MicListener K) : MicListener K × List (Callback K) :=
  if m.confirmed = false ∧ ((CONFIRM_MS : Nat) : K) ≤ m.uttMs - m.quietMs then
    ({ m with confirmed := true }, [.onSpeechConfirmed])
  else (m, [])

/-- What is handed on of an utterance: nothing if it was short. -/
def MicListener.wav (m : MicListener K) : Option (List (Frame K)) :=
  if ((MIN_UTTERANCE_MS : Nat) : K) ≤ m.uttMs - m.quietMs then m.utt else none

def MicListener.finish (m : MicListener K) : MicListener K × List (Callback K) :=
  if ((END_SILENCE_MS : Nat) : K) ≤ m.quietMs ∨ ((MAX_UTTERANCE_MS : Nat) : K) ≤ m.uttMs then
    (m.drop, [.onSpeechEnd m.wav m.confirmed])
  else (m, [])

/-- A frame while an utterance is open. -/
def MicListener.hear (m : MicListener K) (utt : List (Frame K)) (frame : Frame K) (loud : Bool) :
    MicListener K × List (Callback K) :=
  let (m, confirmed) := (m.extend sampleRate utt frame loud).confirm
  let (m, ended) := m.finish
  (m, confirmed ++ ended)

/-- What is louder counts as speech. The bar is raised while the assistant speaks. -/
def MicListener.threshold (m : MicListener K) : K :=
  max 0.012 (m.noise * ((3 : Nat) : K)) * (if m.guard then 2.2 else ((1 : Nat) : K))

def MicListener.meter (m : MicListener K) (r : K) : MicListener K :=
  { m with level := m.level * 0.7 + min ((1 : Nat) : K) (r * ((12 : Nat) : K)) * 0.3 }

/-- What a frame of the loudness `r` makes of a listener. -/
def MicListener.take (m : MicListener K) (frame : Frame K) (r : K) : MicListener K × List (Callback K) :=
  if m.muted then (m.drop, [])
  else
    let loud := decide (m.threshold < r)
    match m.utt with
    | none => m.wait sampleRate frame r loud
    | some utt => m.hear sampleRate utt frame loud

/-- `process`: a frame of the microphone. -/
def MicListener.process (m : MicListener K) (frame : Frame K) : MicListener K × List (Callback K) :=
  let r := rms sqrt frame
  (m.meter r).take sampleRate frame r

/-- A listener that has just been opened. -/
def MicListener.new : MicListener K :=
  { level := ((0 : Nat) : K), muted := false, guard := false, pre := [], utt := none, noise := 0.004,
    loudMs := ((0 : Nat) : K), quietMs := ((0 : Nat) : K), uttMs := ((0 : Nat) : K), confirmed := false }

/-- A listener and what it has called. -/
structure Session (K : Type*) where
  mic : MicListener K
  called : List (Callback K)

def Session.kinds (s : Session K) : List Kind := s.called.map Callback.kind

def Session.new : Session K := ⟨MicListener.new, []⟩

def Session.mute (s : Session K) (b : Bool) : Session K := { s with mic := { s.mic with muted := b } }

def step : Run.Step (Session K) (Input K) := fun s a =>
  match a with
  | .setMuted b => some (s.mute b)
  | .setGuard b => some { s with mic := { s.mic with guard := b } }
  | .frame input =>
      let (mic, called) := s.mic.process sqrt sampleRate input
      some ⟨mic, s.called ++ called⟩

/-- A frame that arrives muted while an utterance is open. -/
def Drops (s : Session K) : Input K → Prop
  | .frame _ => s.mic.muted = true ∧ s.mic.utt ≠ none
  | _ => False

/-! ## What a frame can do -/

/-- Whether an utterance is open, and whether it is confirmed. -/
def MicListener.phase (m : MicListener K) : Option Bool := m.utt.map fun _ => m.confirmed

/-- The phases around a frame, and what is called. -/
inductive Move : Bool → Option Bool → List Kind → Option Bool → Prop
  | drop (p : Option Bool) : Move true p [] none
  | wait : Move false none [] none
  | start : Move false none [.speechStart] (some false)
  | hear (c : Bool) : Move false (some c) [] (some c)
  | confirm : Move false (some false) [.speechConfirmed] (some true)
  | finish (c : Bool) : Move false (some c) [.speechEnd] none
  | confirmFinish : Move false (some false) [.speechConfirmed, .speechEnd] none

variable {sqrt sampleRate}

theorem wait_move {m : MicListener K} (hutt : m.utt = none) (frame : Frame K) (r : K) (loud : Bool) :
    Move false none ((m.wait sampleRate frame r loud).2.map Callback.kind)
      (m.wait sampleRate frame r loud).1.phase := by
  unfold MicListener.wait
  dsimp only
  split_ifs
  · exact .start
  · have hphase : (m.listen sampleRate frame r loud).phase = none := by
      show m.utt.map _ = none
      rw [hutt, Option.map_none]
    rw [hphase]
    exact .wait

theorem finish_move {m : MicListener K} {c : Bool} (hphase : m.phase = some c) :
    (m.finish.1.phase = some c ∧ m.finish.2.map Callback.kind = []) ∨
      (m.finish.1.phase = none ∧ m.finish.2.map Callback.kind = [.speechEnd]) := by
  unfold MicListener.finish
  split_ifs
  · exact .inr ⟨rfl, rfl⟩
  · exact .inl ⟨hphase, rfl⟩

theorem hear_move (m : MicListener K) (utt : List (Frame K)) (frame : Frame K) (loud : Bool) :
    Move false (some m.confirmed) ((m.hear sampleRate utt frame loud).2.map Callback.kind)
      (m.hear sampleRate utt frame loud).1.phase := by
  unfold MicListener.hear MicListener.confirm
  dsimp only
  rw [List.map_append]
  split_ifs with hconfirm
  · have hopen : m.confirmed = false := hconfirm.1
    rw [hopen]
    rcases finish_move (m := { m.extend sampleRate utt frame loud with confirmed := true }) rfl with
      ⟨hphase, hcalled⟩ | ⟨hphase, hcalled⟩
    · rw [hphase, hcalled]
      exact .confirm
    · rw [hphase, hcalled]
      exact .confirmFinish
  · rcases finish_move (m := m.extend sampleRate utt frame loud) rfl with ⟨hphase, hcalled⟩ | ⟨hphase, hcalled⟩
    · rw [hphase, hcalled]
      exact .hear m.confirmed
    · rw [hphase, hcalled]
      exact .finish m.confirmed

theorem take_move (m : MicListener K) (frame : Frame K) (r : K) :
    Move m.muted m.phase ((m.take sampleRate frame r).2.map Callback.kind) (m.take sampleRate frame r).1.phase := by
  unfold MicListener.take
  dsimp only
  split_ifs with hmuted
  · rw [hmuted]
    exact .drop m.phase
  · rw [Bool.eq_false_iff.2 hmuted, MicListener.phase]
    cases hutt : m.utt with
    | none => exact wait_move hutt frame r _
    | some utt => exact hear_move m utt frame _

theorem process_move (m : MicListener K) (frame : Frame K) :
    Move m.muted m.phase ((m.process sqrt sampleRate frame).2.map Callback.kind)
      (m.process sqrt sampleRate frame).1.phase :=
  take_move (m.meter (rms sqrt frame)) frame (rms sqrt frame)

end Listener

/-! ## What is called along a run -/

section Calls

variable {K : Type*}

/-- What has been called of the utterance that is open. -/
def unfinished : Option Bool → List Kind
  | none => []
  | some false => [.speechStart]
  | some true => [.speechStart, .speechConfirmed]

/-- The calls are utterances that have ended, and the one that the listener has open. -/
def Agrees (s : Session K) : Prop := ∃ done ∈ utterance.star.matches', s.kinds = done ++ unfinished s.mic.phase

theorem unfinished_opened (c : Bool) : unfinished (some c) ∈ opened.matches' := by
  cases c
  · exact mem_opened.2 (.inl rfl)
  · exact mem_opened.2 (.inr rfl)

theorem Agrees.speech {s : Session K} (h : Agrees s) : s.kinds ∈ speech.matches' := by
  obtain ⟨done, hdone, heq⟩ := h
  rw [heq, mem_speech]
  cases s.mic.phase with
  | none => exact .inl (by rwa [unfinished, List.append_nil])
  | some c => exact .inr ⟨done, hdone, _, unfinished_opened c, rfl⟩

theorem Agrees.move {s : Session K} (h : Agrees s) {muted : Bool} {m : MicListener K} {called : List (Callback K)}
    (hmove : Move muted s.mic.phase (called.map Callback.kind) m.phase) (hkept : muted = true → s.mic.phase = none) :
    Agrees ⟨m, s.called ++ called⟩ := by
  obtain ⟨done, hdone, heq⟩ := h
  have hkinds : Session.kinds ⟨m, s.called ++ called⟩ =
      done ++ (unfinished s.mic.phase ++ called.map Callback.kind) := by
    rw [← List.append_assoc, ← heq]
    exact List.map_append
  generalize hp : s.mic.phase = p at hmove hkept hkinds
  generalize hw : called.map Callback.kind = w at hmove hkinds
  generalize hq : m.phase = q at hmove
  -- what goes to the utterances that have ended, and what is open behind it
  have hsplit : ∃ a, (a = [] ∨ ∃ c, a = unfinished (some c) ++ [.speechEnd]) ∧
      unfinished p ++ w = a ++ unfinished q := by
    cases hmove with
    | drop =>
      rw [hkept rfl]
      exact ⟨[], .inl rfl, rfl⟩
    | wait => exact ⟨[], .inl rfl, rfl⟩
    | start => exact ⟨[], .inl rfl, rfl⟩
    | hear c => exact ⟨[], .inl rfl, List.append_nil _⟩
    | confirm => exact ⟨[], .inl rfl, rfl⟩
    | finish c => exact ⟨_, .inr ⟨c, rfl⟩, (List.append_nil _).symm⟩
    | confirmFinish => exact ⟨_, .inr ⟨true, rfl⟩, rfl⟩
  obtain ⟨a, ha, hsplit⟩ := hsplit
  refine ⟨done ++ a, ?_, ?_⟩
  · rcases ha with rfl | ⟨c, rfl⟩
    · rwa [List.append_nil]
    · exact closed_append hdone (unfinished_opened c)
  · show _ = done ++ a ++ unfinished m.phase
    rw [hq, hkinds, hsplit, List.append_assoc]

theorem phase_eq_none {m : MicListener K} : m.phase = none ↔ m.utt = none := Option.map_eq_none_iff

theorem drops_utt {s : Session K} {a : Input K} (h : Drops s a) : s.mic.utt ≠ none := by
  cases a with
  | setMuted b => exact h.elim
  | setGuard b => exact h.elim
  | frame input => exact h.2

end Calls

section Runs

variable {K : Type*} [Numbers K] {sqrt : K → K} {sampleRate : K}

theorem agrees_new : Agrees (Session.new : Session K) := ⟨[], Language.nil_mem_kstar _, rfl⟩

theorem step_frame (s : Session K) (input : Frame K) : step sqrt sampleRate s (.frame input) =
      some ⟨(s.mic.process sqrt sampleRate input).1, s.called ++ (s.mic.process sqrt sampleRate input).2⟩ := rfl

variable {s s' : Session K} {a : Input K}

theorem agrees_step (h : Agrees s) (hdrop : ¬ Drops s a)
    (hs : step sqrt sampleRate s a = some s') : Agrees s' := by
  cases a with
  | setMuted b =>
    obtain rfl := Option.some.inj hs
    exact h
  | setGuard b =>
    obtain rfl := Option.some.inj hs
    exact h
  | frame input =>
    obtain rfl := Option.some.inj hs
    refine h.move (process_move s.mic input) fun hmuted => ?_
    rw [phase_eq_none]
    by_contra hutt
    exact hdrop ⟨hmuted, hutt⟩

variable {as : List (Input K)}

theorem agrees_of_meets {s : Session K}
    (hmeets : Run.Meets (step sqrt sampleRate) (fun s a => ¬ Drops s a) Session.new as)
    (hrun : Run.exec (step sqrt sampleRate) Session.new as = some s) : Agrees s := by
  refine Run.exec_inv ?_ agrees_new hmeets hrun
  intro s a s' hinv hdrop hs
  exact agrees_step hinv hdrop hs

/-- Whatever the energies and durations of the frames, and however the listener is muted and guarded
between them: the calls are utterances one after the other, as long as no frame arrives muted while
an utterance is open. -/
theorem speech_of_undropped {as : List (Input K)} {s : Session K}
    (hmeets : Run.Meets (step sqrt sampleRate) (fun s a => ¬ Drops s a) Session.new as)
    (hrun : Run.exec (step sqrt sampleRate) Session.new as = some s) : s.kinds ∈ speech.matches' := by
  exact (agrees_of_meets hmeets hrun).speech

theorem kinds_step (hs : step sqrt sampleRate s a = some s') : s'.mic.phase = s.mic.phase ∧ s'.kinds = s.kinds ∨
      ∃ w, Move s.mic.muted s.mic.phase w s'.mic.phase ∧ s'.kinds = s.kinds ++ w := by
  cases a with
  | setMuted b =>
    obtain rfl := Option.some.inj hs
    exact .inl ⟨rfl, rfl⟩
  | setGuard b =>
    obtain rfl := Option.some.inj hs
    exact .inl ⟨rfl, rfl⟩
  | frame input =>
    obtain rfl := Option.some.inj hs
    exact .inr ⟨_, process_move s.mic input, List.map_append⟩

theorem kinds_grow {s t : Session K}
    (hrun : Run.exec (step sqrt sampleRate) s as = some t) : s.kinds <+: t.kinds := by
  have hstep : ∀ s1 a s2, s.kinds <+: s1.kinds → step sqrt sampleRate s1 a = some s2 → s.kinds <+: s2.kinds := by
    intro s1 a s2 hgrown hs
    rcases kinds_step hs with ⟨-, hsame⟩ | ⟨w, -, hw⟩
    · rwa [hsame]
    · exact hw ▸ hgrown.trans (List.prefix_append _ _)
  exact Run.exec_kept hstep (List.prefix_refl s.kinds) hrun

/-- The first call of a listener that has no utterance open is the start of one. -/
theorem kinds_of_closed {s t : Session K} (hclosed : s.mic.phase = none)
    (hrun : Run.exec (step sqrt sampleRate) s as = some t) :
    t.kinds = s.kinds ∨ ∃ v, t.kinds = s.kinds ++ .speechStart :: v := by
  induction as generalizing s with
  | nil =>
    obtain rfl := Option.some.inj hrun
    exact .inl rfl
  | cons a as ih =>
    obtain ⟨s', hs, hrest⟩ := Run.exec_cons_eq_some.1 hrun
    rcases kinds_step hs with ⟨hphase, hsame⟩ | ⟨w, hmove, hw⟩
    · rw [← hsame]
      exact ih (hphase.trans hclosed) hrest
    · rw [hclosed] at hmove
      generalize hmuted : s.mic.muted = b at hmove
      generalize hphase : s'.mic.phase = q at hmove
      cases hmove with
      | drop | wait =>
        rw [List.append_nil] at hw
        rw [← hw]
        exact ih hphase hrest
      | start =>
        obtain ⟨v, hv⟩ := kinds_grow hrest
        refine .inr ⟨v, ?_⟩
        rw [← hv, hw, List.append_assoc]
        rfl

theorem dropped_step (h : Drops s a) (hs : step sqrt sampleRate s a = some s') :
    s'.mic.phase = none ∧ s'.kinds = s.kinds := by
  cases a with
  | setMuted b => exact h.elim
  | setGuard b => exact h.elim
  | frame input =>
    have hmuted : (s.mic.meter (rms sqrt input)).muted = true := h.1
    have hprocess : s.mic.process sqrt sampleRate input = ((s.mic.meter (rms sqrt input)).drop, []) := if_pos hmuted
    rw [step_frame, hprocess] at hs
    obtain rfl := Option.some.inj hs
    exact ⟨rfl, congrArg (List.map Callback.kind) (List.append_nil s.called)⟩

/-- Once an utterance has been dropped, nothing may be called any more. -/
theorem speech_of_dropped {as bs : List (Input K)} {s s1 t : Session K}
    (hmeets : Run.Meets (step sqrt sampleRate) (fun s a => ¬ Drops s a) Session.new as)
    (hrun : Run.exec (step sqrt sampleRate) Session.new as = some s) (hdrop : Drops s a)
    (hs : step sqrt sampleRate s a = some s1) (hrest : Run.exec (step sqrt sampleRate) s1 bs = some t) :
    t.kinds ∈ speech.matches' ↔ t.kinds = s.kinds := by
  have hagrees := agrees_of_meets hmeets hrun
  have hdropped : s1.mic.phase = none ∧ s1.kinds = s.kinds := dropped_step hdrop hs
  constructor
  · intro hspeech
    rcases kinds_of_closed hdropped.1 hrest with hsame | ⟨v, hv⟩
    · rw [hsame, hdropped.2]
    · -- the start of the next utterance stands behind the start or the confirmation of this one
      obtain ⟨done, -, heq⟩ := hagrees
      have hchain := isChain_speech hspeech
      rw [hv, hdropped.2, heq] at hchain
      exfalso
      have hopen : s.mic.phase ≠ none := fun h => drops_utt hdrop (phase_eq_none.1 h)
      obtain ⟨c, hc⟩ := Option.ne_none_iff_exists'.1 hopen
      rw [hc] at hchain
      cases c with
      | false =>
        have hnext := (List.isChain_append.1 hchain).2.2 .speechStart (by simp [unfinished]) .speechStart rfl
        cases hnext
      | true =>
        have hnext := (List.isChain_append.1 hchain).2.2 .speechConfirmed (by simp [unfinished]) .speechStart rfl
        cases hnext
  · intro hsame
    rw [hsame]
    exact hagrees.speech

end Runs

instance : Numbers ℚ where
  decidableLT := inferInstance
  decidableLE := inferInstance

/-- A frame of the greatest loudness, as long as those of the browser. -/
def loudFrame : Frame ℚ := List.replicate 2048 1

theorem sumOfSquares_ones (n : Nat) (sum : ℚ) :
    (List.replicate n (1 : ℚ)).foldl (fun sum x => sum + x * x) sum = sum + n := by
  induction n generalizing sum with
  | zero => exact (add_zero sum).symm
  | succ n ih =>
    rw [List.replicate_succ, List.foldl_cons, ih, Nat.cast_succ]
    ring

theorem rms_loudFrame : rms id loudFrame = 1 := by
  unfold rms loudFrame
  rw [sumOfSquares_ones, List.length_replicate]
  decide +kernel

def afterLoud (s : Session ℚ) : Session ℚ :=
  let (mic, called) := (s.mic.meter 1).take 16000 loudFrame 1
  ⟨mic, s.called ++ called⟩

theorem step_loudFrame (s : Session ℚ) : step id 16000 s (.frame loudFrame) = some (afterLoud s) := by
  unfold step MicListener.process
  dsimp only
  rw [rms_loudFrame]
  rfl

def interrupted : List (Input ℚ) :=
  [.frame loudFrame, .setMuted true, .frame loudFrame, .setMuted false, .frame loudFrame]

def mutedFirst : List (Input ℚ) := [.setMuted true, .frame loudFrame, .setMuted false, .frame loudFrame]

theorem speech_of_undropped_muted :
    ∃ s : Session ℚ, Run.exec (step id 16000) Session.new mutedFirst = some s ∧ s.kinds ∈ speech.matches' := by
  have hrun : Run.exec (step id 16000) Session.new mutedFirst =
      some (afterLoud ((afterLoud (Session.new.mute true)).mute false)) := by
    unfold mutedFirst
    simp only [Run.exec_cons, Run.exec_nil, step_loudFrame, Option.bind_some]
    rfl
  refine ⟨_, hrun, speech_of_undropped ?_ hrun⟩
  refine Run.meets_cons.2 ⟨fun h => h, fun s1 h1 => ?_⟩
  obtain rfl := Option.some.inj h1
  refine Run.meets_cons.2 ⟨fun h => h.2 rfl, fun s2 h2 => ?_⟩
  refine Run.meets_cons.2 ⟨fun h => h, fun s3 h3 => ?_⟩
  obtain rfl := Option.some.inj h3
  exact Run.meets_cons.2 ⟨fun h => absurd h.1 Bool.false_ne_true, fun s4 _ => Run.meets_nil s4⟩

/-- Muted in the middle of an utterance, and unmuted. -/
theorem speech_of_dropped_unmuted : ∃ s t : Session ℚ,
    Run.exec (step id 16000) Session.new [.frame loudFrame, .setMuted true] = some s ∧
      Run.exec (step id 16000) (afterLoud s) [.setMuted false, .frame loudFrame] = some t ∧
      (t.kinds ∈ speech.matches' ↔ t.kinds = s.kinds) := by
  have hrun : Run.exec (step id 16000) Session.new [.frame loudFrame, .setMuted true] =
      some ((afterLoud Session.new).mute true) := by
    simp only [Run.exec_cons, Run.exec_nil, step_loudFrame, Option.bind_some]
    rfl
  have hrest : Run.exec (step id 16000) (afterLoud ((afterLoud Session.new).mute true))
      [.setMuted false, .frame loudFrame] =
        some (afterLoud ((afterLoud ((afterLoud Session.new).mute true)).mute false)) := by
    simp only [Run.exec_cons, Run.exec_nil, step_loudFrame, Option.bind_some]
    rfl
  have hopen : ((afterLoud Session.new).mute true).mic.utt ≠ none := by decide +kernel
  refine ⟨_, _, hrun, hrest, speech_of_dropped (a := .frame loudFrame) ?_ hrun ⟨rfl, hopen⟩
    (step_loudFrame _) hrest⟩
  refine Run.meets_cons.2 ⟨fun h => absurd h.1 Bool.false_ne_true, fun s1 _ => ?_⟩
  exact Run.meets_cons.2 ⟨fun h => h, fun s2 _ => Run.meets_nil s2⟩

/-- Muted in the middle of an utterance, the listener starts another one without having ended it. -/
theorem not_speech_interrupted : ∃ s : Session ℚ, Run.exec (step id 16000) Session.new interrupted = some s ∧
      s.kinds = [.speechStart, .speechStart] ∧ s.kinds ∉ speech.matches' := by
  have hrun : Run.exec (step id 16000) Session.new interrupted =
      some (afterLoud ((afterLoud ((afterLoud Session.new).mute true)).mute false)) := by
    unfold interrupted
    simp only [Run.exec_cons, Run.exec_nil, step_loudFrame, Option.bind_some]
    rfl
  have hkinds : (afterLoud ((afterLoud ((afterLoud Session.new).mute true)).mute false)).kinds =
      [.speechStart, .speechStart] := by
    decide +kernel
  refine ⟨_, hrun, hkinds, ?_⟩
  rw [hkinds]
  decide

end Portal.Voice
