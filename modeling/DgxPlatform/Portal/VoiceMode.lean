import DgxPlatform.Portal.VoiceText

/-! # The voice of a growing answer

An answer grows while it is spoken. With every new text the effect of `VoiceMode` cuts the
sentences behind those it has cut before, by an offset into `speakable`, and starts again when the
text has become shorter than that offset.
-/

namespace Portal.Voice

open Rejoin (JsText units)

/-! ## The effect -/

inductive Role where
  | user
  | assistant
deriving DecidableEq

structure Message where
  role : Role
  content : JsText
  isError : Bool
deriving DecidableEq

/-- The answer being voiced: which message it is, how far its text has been cut, the sentences
that wait for the voice and those it has been given. -/
structure Turn where
  awaitFrom : Option Nat
  index : Option Nat
  cut : Nat
  queue : List Sentence
  given : List Sentence
  paused : Bool
deriving DecidableEq

/-- The answer that has been waited for is there. -/
def arrive (messages : List Message) (tr : Turn) : Turn :=
  match tr.awaitFrom with
  | none => tr
  | some a =>
      if a + 1 < messages.length ∧ (messages[a + 1]?.any fun m => decide (m.role = .assistant)) = true then
        { awaitFrom := none, index := some (a + 1), cut := 0, queue := [], given := [], paused := false }
      else tr

/-- What has been cut is no longer there. -/
def restart (text : JsText) (tr : Turn) : Turn :=
  if text.length < tr.cut then { tr with cut := 0, queue := [], given := [] } else tr

/-- The sentences of a text from the cut on. -/
def advance (text : JsText) (final : Bool) (tr : Turn) : Turn :=
  let tr := restart text tr
  let r := nextSentences text tr.cut final
  { tr with cut := r.2, queue := tr.queue ++ r.1 }

/-- The answer does not grow any more. -/
def isFinal (messages : List Message) (streaming : Bool) (i : Nat) : Bool :=
  !streaming || decide (i ≠ messages.length - 1)

/-- The effect that runs on new messages. -/
def effect (messages : List Message) (streaming : Bool) (tr : Turn) : Turn :=
  let tr := arrive messages tr
  match tr.index with
  | none => tr
  | some i =>
      if tr.paused then tr
      else
        match messages[i]? with
        | none => tr
        | some m =>
            if m.role ≠ .assistant ∨ m.isError = true then tr
            else advance (speakable m.content) (isFinal messages streaming i) tr

/-- `pump` takes a sentence from the queue. -/
def hand (tr : Turn) : Turn :=
  match tr.queue with
  | [] => tr
  | s :: rest => { tr with queue := rest, given := tr.given ++ [s] }

/-! ## A turn -/

/-- The sentences since the last restart. -/
def Turn.sentences (tr : Turn) : List Sentence := tr.given ++ tr.queue

/-- The states of a turn that waits behind message `a`: the last text, whether it was the final
one, and the state. Each text begins with the one before it and has to meet `ok`, which is about
the offset, the text before and the text. -/
inductive Voiced (ok : Nat → JsText → JsText → Prop) (a : Nat) : Option JsText → Bool → Turn → Prop
  | await (tr : Turn) (h : tr.awaitFrom = some a) : Voiced ok a none false tr
  | text {old : Option JsText} {tr : Turn} (m : Message) (messages : List Message) (streaming : Bool)
      (h : Voiced ok a old false tr) (hm : messages[a + 1]? = some m) (hrole : m.role = .assistant)
      (herror : m.isError = false) (hgrow : ∀ t ∈ old, t <+: m.content ∧ ok tr.cut t m.content) :
      Voiced ok a (some m.content) (isFinal messages streaming (a + 1)) (effect messages streaming tr)
  | hand {old : Option JsText} {final : Bool} {tr : Turn} (h : Voiced ok a old final tr) :
      Voiced ok a old final (hand tr)

/-- The sentences are the consecutive pieces of the text, and say all of it. -/
def SaysOnce (text : JsText) (ss : List Sentence) : Prop :=
  Pieces text 0 ss text.length ∧ spoken (ss.flatMap Sentence.text) = spoken text

/-- A new text says the same up to the cut, or is shorter than the cut. -/
def Steady (cut : Nat) (old new : JsText) : Prop :=
  (speakable new).length < cut ∨ (speakable new).take cut = (speakable old).take cut

instance (cut : Nat) (old new : JsText) : Decidable (Steady cut old new) := inferInstanceAs (Decidable (_ ∨ _))

/-! ## The answer is said once -/

variable {ok : Nat → JsText → JsText → Prop} {a : Nat} {old : Option JsText} {text : JsText} {final : Bool} {tr : Turn}
  {messages : List Message} {streaming : Bool} {m : Message}

@[simp] theorem hand_sentences (tr : Turn) : (hand tr).sentences = tr.sentences := by
  unfold hand Turn.sentences
  cases hq : tr.queue with
  | nil => rw [hq]
  | cons s rest => simp

@[simp] theorem hand_cut (tr : Turn) : (hand tr).cut = tr.cut := by
  unfold hand
  cases tr.queue <;> rfl

@[simp] theorem hand_index (tr : Turn) : (hand tr).index = tr.index := by
  unfold hand
  cases tr.queue <;> rfl

@[simp] theorem hand_awaitFrom (tr : Turn) : (hand tr).awaitFrom = tr.awaitFrom := by
  unfold hand
  cases tr.queue <;> rfl

@[simp] theorem hand_paused (tr : Turn) : (hand tr).paused = tr.paused := by
  unfold hand
  cases tr.queue <;> rfl

/-- The answer at `a + 1` is being voiced. -/
structure Turn.Voices (tr : Turn) (a : Nat) : Prop where
  awaitFrom : tr.awaitFrom = none
  index : tr.index = some (a + 1)
  paused : tr.paused = false

theorem arrive_awaited (h : tr.awaitFrom = some a) (hm : messages[a + 1]? = some m) (hrole : m.role = .assistant) :
    arrive messages tr =
      { awaitFrom := none, index := some (a + 1), cut := 0, queue := [], given := [], paused := false } := by
  have hlt : a + 1 < messages.length := (List.getElem?_eq_some_iff.1 hm).1
  have hany : (messages[a + 1]?.any fun m => decide (m.role = .assistant)) = true := by
    rw [hm, Option.any_some, hrole]
    rfl
  unfold arrive
  rw [h]
  exact if_pos ⟨hlt, hany⟩

theorem arrive_voiced (h : tr.Voices a) : arrive messages tr = tr := by
  unfold arrive
  rw [h.awaitFrom]

theorem effect_eq (h : (arrive messages tr).Voices a) (hm : messages[a + 1]? = some m) (hrole : m.role = .assistant)
    (herror : m.isError = false) :
    effect messages streaming tr =
      advance (speakable m.content) (isFinal messages streaming (a + 1)) (arrive messages tr) := by
  have hno : ¬ (m.role ≠ .assistant ∨ m.isError = true) := by
    rw [hrole, herror]
    decide
  unfold effect
  dsimp only
  rw [h.index]
  dsimp only
  rw [h.paused, if_neg Bool.false_ne_true, hm]
  exact if_neg hno

theorem advance_voices (h : tr.Voices a) : (advance text final tr).Voices a := by
  unfold advance restart
  dsimp only
  split_ifs
  · exact ⟨h.awaitFrom, h.index, h.paused⟩
  · exact ⟨h.awaitFrom, h.index, h.paused⟩

/-- What has been cut of a text. -/
def Cut (text : JsText) (final : Bool) (tr : Turn) : Prop :=
  Pieces text 0 tr.sentences tr.cut ∧ tr.cut ≤ text.length ∧
    (final = true → Pieces text 0 tr.sentences text.length)

theorem cut_fresh (hcut : tr.cut = 0) (hnone : tr.sentences = []) : Cut text false tr := by
  refine ⟨?_, ?_, fun h => absurd h Bool.false_ne_true⟩
  · rw [hcut, hnone]
    refine .rest (Nat.le_refl 0) ?_
    rw [slice_self]
    exact List.forall_mem_nil _
  · rw [hcut]
    exact Nat.zero_le _

theorem cut_advance (h : Cut text false (restart text tr)) : Cut text final (advance text final tr) := by
  obtain ⟨hpieces, hlen, -⟩ := h
  obtain ⟨hnext, hlen'⟩ := nextSentences_pieces (restart text tr).cut final hlen
  have hsentences : (advance text final tr).sentences =
      (restart text tr).sentences ++ (nextSentences text (restart text tr).cut final).1 := by
    unfold advance Turn.sentences
    simp
  have hcut : (advance text final tr).cut = (nextSentences text (restart text tr).cut final).2 := rfl
  refine ⟨?_, ?_, ?_⟩
  · rw [hsentences, hcut]
    exact hpieces.append hnext
  · rw [hcut]
    exact hlen'
  · rintro rfl
    rw [hsentences]
    exact hpieces.append (nextSentences_final _ hlen)

/-- A text that says the same up to the cut has the same pieces there. -/
theorem cut_restart {old new : JsText} (h : Cut (speakable old) false tr) (hsteady : Steady tr.cut old new) :
    Cut (speakable new) false (restart (speakable new) tr) := by
  unfold restart
  split_ifs with hshort
  · exact cut_fresh rfl rfl
  · obtain ⟨hpieces, -, -⟩ := h
    rcases hsteady with hlt | hsame
    · exact absurd hlt hshort
    · exact ⟨hpieces.congr hsame.symm, Nat.le_of_not_lt hshort, fun h => absurd h Bool.false_ne_true⟩

theorem voiced_inv (h : Voiced Steady a old final tr) :
    (old = none → tr.awaitFrom = some a) ∧ ∀ t ∈ old, tr.Voices a ∧ Cut (speakable t) final tr := by
  induction h with
  | await tr h => exact ⟨fun _ => h, fun t ht => absurd ht (Option.not_mem_none t)⟩
  | @text old tr m messages streaming h hm hrole herror hgrow ih =>
    refine ⟨fun hnone => absurd hnone (Option.some_ne_none _), fun t ht => ?_⟩
    obtain rfl := Option.some.inj ht
    cases old with
    | none =>
      -- the first text of the answer
      have harrive := arrive_awaited (ih.1 rfl) hm hrole
      have hvoices : (arrive messages tr).Voices a := by
        rw [harrive]
        exact ⟨rfl, rfl, rfl⟩
      have hfresh : Cut (speakable m.content) false (restart (speakable m.content) (arrive messages tr)) := by
        rw [harrive]
        exact cut_fresh rfl rfl
      rw [effect_eq hvoices hm hrole herror]
      exact ⟨advance_voices hvoices, cut_advance hfresh⟩
    | some t =>
      obtain ⟨hvoices, hcut⟩ := ih.2 t rfl
      have harrive : arrive messages _ = _ := arrive_voiced hvoices
      rw [effect_eq (by rw [harrive]; exact hvoices) hm hrole herror, harrive]
      exact ⟨advance_voices hvoices, cut_advance (cut_restart hcut (hgrow t rfl).2)⟩
  | @hand old final tr h ih =>
    refine ⟨fun hnone => ?_, fun t ht => ?_⟩
    · rw [hand_awaitFrom]
      exact ih.1 hnone
    · obtain ⟨hvoices, hcut⟩ := ih.2 t ht
      refine ⟨⟨?_, ?_, ?_⟩, ?_⟩
      · rw [hand_awaitFrom, hvoices.awaitFrom]
      · rw [hand_index, hvoices.index]
      · rw [hand_paused, hvoices.paused]
      · unfold Cut
        rw [hand_sentences, hand_cut]
        exact hcut

/-- In a turn whose new texts do not rewrite what has been cut, the sentences are at any time the
consecutive pieces of the text up to the cut, and in the end those of the whole text. -/
theorem voice_says_once (a : Nat) (t : JsText) (final : Bool) (tr : Turn) (h : Voiced Steady a (some t) final tr) :
    Pieces (speakable t) 0 tr.sentences tr.cut ∧ (final = true → SaysOnce (speakable t) tr.sentences) := by
  obtain ⟨-, hpieces, -, hfinal⟩ := (voiced_inv h).2 t rfl
  refine ⟨hpieces, fun hend => ⟨hfinal hend, ?_⟩⟩
  rw [(hfinal hend).spoken_eq, slice_length, List.drop_zero]

/-! ## Two texts of an answer -/

def sampleMessages (t : JsText) : List Message := [⟨.user, [], false⟩, ⟨.assistant, t, false⟩]

def sampleAwait : Turn := { awaitFrom := some 0, index := none, cut := 0, queue := [], given := [], paused := false }

/-- A first text, and the final one. -/
def sampleTurn (t t' : JsText) : Turn :=
  effect (sampleMessages t') false (effect (sampleMessages t) true sampleAwait)

theorem voiced_sample {t t' : JsText} (hgrow : t <+: t') (hok : ok (effect (sampleMessages t) true sampleAwait).cut t t') :
    Voiced ok 0 (some t') true (sampleTurn t t') := by
  have hfirst : Voiced ok 0 (some t) false (effect (sampleMessages t) true sampleAwait) :=
    .text ⟨.assistant, t, false⟩ (sampleMessages t) true (.await sampleAwait rfl) rfl rfl rfl
      fun u hu => absurd hu (Option.not_mem_none u)
  refine .text ⟨.assistant, t', false⟩ (sampleMessages t') false hfirst rfl rfl rfl fun u hu => ?_
  obtain rfl := Option.some.inj hu
  exact ⟨hgrow, hok⟩

theorem voice_says_once_plain :
    SaysOnce (speakable (units "Hello my dear friends. And so on it goes."))
      (sampleTurn (units "Hello my dear friends. And") (units "Hello my dear friends. And so on it goes.")).sentences :=
  (voice_says_once 0 _ true _ (voiced_sample (by decide +kernel) (by decide +kernel))).2 rfl

/-- The mark that is closed behind the first sentence moves the text under the cut. -/
theorem not_says_once_emphasis :
    ¬ ∀ (a : Nat) (t : JsText) (tr : Turn), Voiced (fun _ _ _ => True) a (some t) true tr →
      SaysOnce (speakable t) tr.sentences := by
  intro h
  have hgrow : units "**Hello my dear friends. And" <+: units "**Hello my dear friends. And so on** it goes." := by
    decide +kernel
  have hrun := h 0 _ _ (voiced_sample hgrow trivial)
  exact absurd hrun.2 (by decide +kernel)

end Portal.Voice
