import DgxPlatform.Portal.Playground

/-! # The saves of one turn

While an answer streams, an interval saves what has arrived so far as a pending
message and does not wait for the request; once the interval is cleared, the
complete answer is saved under the same id. The server upserts whatever arrives,
in the order it arrives: the conversation that stays is the one of the request
that arrived last, be it a checkpoint still in flight when the final save was sent.
-/

namespace Portal.Playground

open Conversations

/-- An id the server accepts: something is left of it once trimmed. -/
structure ConvId where
  text : List Char
  valid : ((Text.trim text).take 64).isEmpty = false

/-- The key under which the server files a conversation. -/
def ConvId.key (id : ConvId) : List Char := (Text.trim id.text).take 64

/-- What has arrived of an answer when the interval fires. -/
structure Arrived where
  acc : List Char
  reasoning : List Char
deriving DecidableEq, Repr

/-- The end of the stream. -/
structure Answer where
  acc : List Char
  reason : List Char
  inlineThought : List Char
  truncated : Bool
  isError : Bool
  fileEdits : List EditedFile
deriving DecidableEq, Repr

/-- One turn: the thread it answers, every firing of the interval, its end. -/
structure Turn where
  currentId : Option ConvId
  /-- `String(startTs)` -/
  startId : ConvId
  /-- `String(Date.now())` at the end of the turn -/
  endId : ConvId
  model : List Char
  nextMessages : List ChatMsg
  /-- a turn answers something: `persist` skips an empty thread -/
  asked : nextMessages ≠ []
  fired : List Arrived
  answer : Answer

/-- `trimAfterAsk`: what follows a closed questions block goes. -/
def trimAfterAsk (content : List Char) : List Char :=
  match Text.splitOnce "\x60\x60\x60ask".toList content with
  | none => content
  | some (before, rest) =>
      match Text.splitOnce "\x60\x60\x60".toList rest with
      | none => content
      | some (block, _) =>
          before ++ "\x60\x60\x60ask".toList ++ block ++ "\x60\x60\x60".toList

/-- `allReasoning()`: the two thoughts that are there. -/
def Answer.allReasoning (a : Answer) : List Char :=
  "\n\n".toList.intercalate ([a.reason, a.inlineThought].filter fun t => !t.isEmpty)

/-- The title a save gives: the first words of the user. -/
def titleOf (msgs : List ChatMsg) : List Char :=
  let first := ((msgs.find? fun m => m.role = .user).map ChatMsg.content).getD []
  (if first.isEmpty then "Conversation".toList else first).take 80

namespace Turn

variable (t : Turn)

/-- The firings that save something. -/
def saving : List Arrived := t.fired.filter fun c => !c.acc.isEmpty || !c.reasoning.isEmpty

/-- The message of a checkpoint. -/
def pendingMsg (c : Arrived) : ChatMsg :=
  { role := .assistant, content := c.acc
    reasoning := if c.reasoning.isEmpty then none else some c.reasoning
    pending := some true }

/-- The message of the complete answer. -/
def answerMsg : ChatMsg :=
  { role := .assistant, content := trimAfterAsk t.answer.acc
    truncated := some t.answer.truncated
    reasoning := some t.answer.allReasoning
    isError := some t.answer.isError
    fileEdits := if t.answer.fileEdits.isEmpty then none else some t.answer.fileEdits }

def finalMessages : List ChatMsg :=
  if t.answer.acc.isEmpty && t.answer.reason.isEmpty then t.nextMessages
  else t.nextMessages ++ [t.answerMsg]

/-- The id of the checkpoints. -/
def checkpointId : ConvId := t.currentId.getD t.startId

/-- The id of the final save: the checkpoints' one as soon as one was sent. -/
def finalId : ConvId :=
  match t.currentId with
  | some id => id
  | none => if t.saving.isEmpty then t.endId else t.startId

def checkpointForm (c : Arrived) : SaveForm :=
  { id := t.checkpointId.text, title := titleOf t.nextMessages, model := t.model
    messages := some (.arr (sent (t.nextMessages ++ [pendingMsg c]))) }

def finalForm : SaveForm :=
  { id := t.finalId.text, title := titleOf t.finalMessages, model := t.model
    messages := some (.arr (sent t.finalMessages)) }

/-- The requests of the turn, in the order they are sent. -/
def requests : List SaveForm := t.saving.map t.checkpointForm ++ [t.finalForm]

end Turn

/-- The server on one request; a refused one changes nothing. -/
def handle (s : Store) (r : SaveForm × Time) : Store :=
  match conversationsPost s r.2 r.1 with
  | .ok s' => s'
  | .error _ => s

/-- The store once every request has been handled, in the order of arrival. -/
def deliver (s : Store) (arrivals : List (SaveForm × Time)) : Store := arrivals.foldl handle s

/-- The conversation of the turn is the one the final save stores, and no message of
it is pending. -/
def AnswerKept (t : Turn) (s : Store) : Prop :=
  ∃ row, s.rows.find? t.finalId.key = some row ∧ row.messages = kept (sent t.finalMessages) ∧
    ∀ m ∈ row.messages, m.get? "pending" = none

/-- No message of the thread that is answered is a checkpoint left behind. -/
def Turn.Settled (t : Turn) : Prop := ∀ m ∈ t.nextMessages, m.pending.getD false = false

/-! ## What a save leaves -/

theorem carries_last (msgs : List ChatMsg) (m : ChatMsg) :
    ∃ init s, forSave (msgs ++ [m]) = init ++ [s] ∧ Carries m s := by
  have h := carries_forSave (msgs ++ [m])
  obtain ⟨init, s, hs⟩ : ∃ init s, forSave (msgs ++ [m]) = init ++ [s] := by
    have hlen := h.length_eq
    rcases List.eq_nil_or_concat' (forSave (msgs ++ [m])) with hnil | ⟨init, s, hs⟩
    · rw [hnil] at hlen
      simp at hlen
    · exact ⟨init, s, hs⟩
  refine ⟨init, s, hs, ?_⟩
  rw [hs] at h
  have hrev := List.forall₂_reverse_iff.2 h
  simp only [List.reverse_append, List.reverse_singleton, List.singleton_append] at hrev
  exact (List.forall₂_cons.1 hrev).1

theorem getLast?_stored {ss : List SavedMsg} {s : SavedMsg} {item : Json}
    (h : storedMessage s.toJson = some item) :
    (((ss ++ [s]).map SavedMsg.toJson).filterMap storedMessage).getLast? = some item := by
  simp [List.filterMap_append, h]

theorem pending_kept (msgs : List ChatMsg) {m : ChatMsg} (hm : m.pending = some true) :
    ∃ item ∈ kept (sent (msgs ++ [m])), item.get? "pending" = some (.bool true) := by
  obtain ⟨init, s, hs, hcarries⟩ := carries_last msgs m
  obtain ⟨item, hitem⟩ : ∃ item, storedMessage s.toJson = some item := ⟨_, storedMessage_toJson s⟩
  have hlast : (kept (sent (msgs ++ [m]))).getLast? = some item := by
    unfold sent
    rw [hs]
    exact getLast?_kept (getLast?_stored hitem)
  refine ⟨item, List.mem_of_getLast? hlast, ?_⟩
  obtain ⟨-, -, -, -, -, hpending, -⟩ := get?_stored hitem
  rw [hpending, hcarries.pending, hm]
  rfl

theorem carries_of_mem {msgs : List ChatMsg} {ss : List SavedMsg} {s : SavedMsg}
    (h : List.Forall₂ Carries msgs ss) (hs : s ∈ ss) : ∃ m ∈ msgs, Carries m s := by
  induction h with
  | nil => cases hs
  | cons hms _ ih =>
    rcases List.mem_cons.1 hs with rfl | hs
    · exact ⟨_, List.mem_cons_self, hms⟩
    · obtain ⟨m, hm, hcarries⟩ := ih hs
      exact ⟨m, List.mem_cons_of_mem _ hm, hcarries⟩

theorem not_pending_kept {msgs : List ChatMsg} (h : ∀ m ∈ msgs, m.pending.getD false = false) :
    ∀ item ∈ kept (sent msgs), item.get? "pending" = none := by
  intro item hitem
  obtain ⟨v, hv, hstored⟩ := List.mem_filterMap.1 ((kept_suffix (sent msgs)).subset hitem)
  obtain ⟨s, hs, rfl⟩ := List.mem_map.1 hv
  obtain ⟨m, hm, hcarries⟩ := carries_of_mem (carries_forSave msgs) hs
  obtain ⟨-, -, -, -, -, hpending, -⟩ := get?_stored hstored
  rw [hpending, storedFlag, hcarries.pending, h m hm]
  rfl

/-! ## The last arrival decides -/

variable {t : Turn} {s : Store}

theorem deliver_append (s : Store) (arrivals : List (SaveForm × Time)) (r : SaveForm × Time) :
    deliver s (arrivals ++ [r]) = handle (deliver s arrivals) r := by
  simp [deliver]

theorem find?_handle (s : Store) (form : SaveForm) (elapsed : Time) (id : ConvId)
    {msgs : List ChatMsg} (hid : form.id = id.text) (hmsgs : form.messages = some (.arr (sent msgs))) :
    ∃ row, (handle s (form, elapsed)).rows.find? id.key = some row ∧
      row.messages = kept (sent msgs) := by
  have hpost : ∃ title model, conversationsPost s elapsed form =
      .ok (save s elapsed id.key title model (sent msgs)) := by
    refine ⟨if ((Text.trim form.title).take 120).isEmpty then "Conversation".toList
      else (Text.trim form.title).take 120, (Text.trim form.model).take 80, ?_⟩
    unfold conversationsPost
    rw [hid, hmsgs]
    simp only [id.valid, Bool.false_eq_true, if_false]
    rfl
  obtain ⟨title, model, hpost⟩ := hpost
  unfold handle
  rw [hpost]
  exact ⟨_, find?_save s elapsed id.key title model (sent msgs), rfl⟩

theorem checkpointId_eq_finalId {c : Arrived} (hc : c ∈ t.saving) : t.checkpointId = t.finalId := by
  unfold Turn.checkpointId Turn.finalId
  rcases t.currentId with _ | id
  · have hne : t.saving.isEmpty = false := by
      rw [List.isEmpty_eq_false_iff]
      exact List.ne_nil_of_mem hc
    simp [hne]
  · rfl

theorem not_answerKept_of_checkpoint {c : Arrived} (hc : c ∈ t.saving) {elapsed : Time} :
    ¬ AnswerKept t (handle s (t.checkpointForm c, elapsed)) := by
  rintro ⟨row, hrow, -, hnone⟩
  obtain ⟨row', hrow', hmsgs⟩ :=
    find?_handle s (t.checkpointForm c) elapsed t.checkpointId rfl rfl
  rw [checkpointId_eq_finalId hc] at hrow'
  obtain rfl : row = row' := Option.some.inj (hrow.symm.trans hrow')
  obtain ⟨item, hitem, hpending⟩ := pending_kept t.nextMessages (m := Turn.pendingMsg c) rfl
  rw [hnone item (hmsgs ▸ hitem)] at hpending
  cases hpending

theorem answerKept_of_final (hsettled : t.Settled) {elapsed : Time} :
    AnswerKept t (handle s (t.finalForm, elapsed)) := by
  obtain ⟨row, hrow, hmsgs⟩ :=
    find?_handle s t.finalForm elapsed t.finalId rfl rfl
  refine ⟨row, hrow, hmsgs, ?_⟩
  rw [hmsgs]
  refine not_pending_kept ?_
  intro m hm
  unfold Turn.finalMessages at hm
  split at hm
  · exact hsettled m hm
  · rcases List.mem_append.1 hm with hm | hm
    · exact hsettled m hm
    · obtain rfl : m = t.answerMsg := by simpa using hm
      rfl

/-- The complete answer stays exactly when the final save is the last request of the
turn to arrive, in a conversation without a checkpoint left behind; and it can only
stay when it is the last. -/
theorem answerKept_iff_final_last (t : Turn) (s : Store) (arrivals : List (SaveForm × Time))
    (horder : (arrivals.map Prod.fst).Perm t.requests) :
    (t.Settled → (arrivals.getLast?.map Prod.fst = some t.finalForm →
      AnswerKept t (deliver s arrivals))) ∧
    (AnswerKept t (deliver s arrivals) → arrivals.getLast?.map Prod.fst = some t.finalForm) := by
  rcases List.eq_nil_or_concat' arrivals with rfl | ⟨before, ⟨form, elapsed⟩, rfl⟩
  · -- the final save is one of the requests
    have hlen := horder.length_eq
    simp [Turn.requests] at hlen
  · rw [deliver_append]
    simp only [List.getLast?_concat, Option.map_some, Option.some.injEq]
    constructor
    · intro hsettled hfinal
      rw [hfinal]
      exact answerKept_of_final hsettled
    · intro hkept
      have hmem : form ∈ t.requests := horder.mem_iff.1 (by simp)
      rcases List.mem_append.1 hmem with hcheck | hfinal
      · obtain ⟨c, hc, rfl⟩ := List.mem_map.1 hcheck
        exact absurd hkept (not_answerKept_of_checkpoint hc)
      · exact List.mem_singleton.1 hfinal

theorem valid_c1 : ((Text.trim "c1".toList).take 64).isEmpty = false := by decide

/-- A question, and its answer checkpointed once on the way. -/
def shortTurn : Turn where
  currentId := some ⟨"c1".toList, valid_c1⟩
  startId := ⟨"c1".toList, valid_c1⟩
  endId := ⟨"c1".toList, valid_c1⟩
  model := "qwen".toList
  nextMessages := [⟨.user, "Bonjour".toList, none, none, none, none, none, none, none⟩]
  asked := List.cons_ne_nil _ _
  fired := [⟨"Bon".toList, []⟩]
  answer := ⟨"Bonjour !".toList, [], [], false, false, []⟩

def emptyStore : Store := ⟨Table.empty, 0, List.forall_mem_nil _⟩

/-- The checkpoint taken while the answer had three letters. -/
def shortCheckpoint : SaveForm := shortTurn.checkpointForm ⟨"Bon".toList, []⟩

theorem shortTurn_settled : shortTurn.Settled := by
  intro m hm
  obtain rfl := List.mem_singleton.1 hm
  rfl

/-- Arriving as sent, the final save is the last and the answer stays. -/
theorem shortTurn_in_order :
    (([(shortCheckpoint, 0), (shortTurn.finalForm, 0)] : List (SaveForm × Time)).map Prod.fst).Perm
        shortTurn.requests ∧
      shortTurn.Settled ∧
      AnswerKept shortTurn (deliver emptyStore [(shortCheckpoint, 0), (shortTurn.finalForm, 0)]) := by
  have horder : (([(shortCheckpoint, 0), (shortTurn.finalForm, 0)] : List (SaveForm × Time)).map
      Prod.fst).Perm shortTurn.requests := List.Perm.refl _
  exact ⟨horder, shortTurn_settled,
    (answerKept_iff_final_last shortTurn emptyStore _ horder).1 shortTurn_settled rfl⟩

/-- The checkpoint arrives after the final save: the three letters stay, pending. -/
theorem shortTurn_overtaken :
    (([(shortTurn.finalForm, 0), (shortCheckpoint, 0)] : List (SaveForm × Time)).map Prod.fst).Perm
        shortTurn.requests ∧
      shortTurn.Settled ∧
      ¬ AnswerKept shortTurn
        (deliver emptyStore [(shortTurn.finalForm, 0), (shortCheckpoint, 0)]) := by
  refine ⟨List.Perm.swap _ _ _, shortTurn_settled, ?_⟩
  exact not_answerKept_of_checkpoint (t := shortTurn) (List.mem_singleton_self _)

end Portal.Playground
