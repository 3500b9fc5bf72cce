import DgxPlatform.Lib.Run
import DgxPlatform.Runner.Service
import Mathlib.Data.List.Nodup

/-! # The log stream

`/stream` sends the buffer once, then polls it: of the buffer it keeps only the
length it last saw. A shorter buffer is sent anew after a clear event, a longer
one from that length on, an equal one not at all.

Between two polls the buffer may be appended to, trimmed by `append` and cleared
by `start_process`. A step of the stream is one poll together with the buffer
operations since the poll before. `Log.trimmed` remembers which lines `append`
has dropped from the current run: the client may still show the last of them.
-/

namespace Runner

open Run

/-- What happens to the buffer. -/
inductive BufferOp where
  | append (line : String)
  | clear
deriving DecidableEq, Repr

/-- The buffer, and what `append` has trimmed of the run it belongs to. -/
structure Log where
  trimmed : List String := []
  buf : LogBuffer := {}

def Log.apply (l : Log) : BufferOp → Log
  | .append line =>
      { trimmed := if l.buf.lines.length + 1 > 2000 then
          l.trimmed ++ (l.buf.lines ++ [line]).take 500 else l.trimmed
        buf := l.buf.append line }
  | .clear => { trimmed := [], buf := l.buf.clear }

def Log.applyAll (l : Log) (ops : List BufferOp) : Log := ops.foldl Log.apply l

/-- A server-sent event of the stream. -/
inductive Event where
  | clear
  | data (line : String)
  | ping
deriving DecidableEq, Repr

/-- One poll: the events, and the length to remember. -/
def poll (buf : LogBuffer) (last : Nat) : List Event × Nat :=
  let cur := buf.lines.length
  if cur < last then (.clear :: buf.lines.map .data, cur)
  else if last < cur then ((buf.lines.drop last).map .data, cur)
  else ([.ping], cur)

/-- The client: emptied by a clear, longer by a data line. -/
def receive (shown : List String) : Event → List String
  | .clear => []
  | .data line => shown ++ [line]
  | .ping => shown

/-- A stream with its client. -/
structure Stream where
  log : Log
  last : Nat
  shown : List String

/-- A stream opened on a buffer that `ops` have filled: the snapshot is sent. -/
def Stream.opened (ops : List BufferOp) : Stream :=
  let log := Log.applyAll {} ops
  { log := log, last := log.buf.lines.length
    shown := (log.buf.lines.map Event.data).foldl receive [] }

/-- The buffer operations since the last poll, then a poll. -/
def Stream.step (s : Stream) (ops : List BufferOp) : Option Stream :=
  let log := s.log.applyAll ops
  let r := poll log.buf s.last
  some { log := log, last := r.2, shown := r.1.foldl receive s.shown }

/-- The client shows the buffer, after some of the lines that were trimmed just
before it: none is missing, and none is from an earlier run. -/
def Stream.Shows (s : Stream) : Prop :=
  ∃ pre, pre <:+ s.log.trimmed ∧ s.shown = pre ++ s.log.buf.lines

/-- Nothing but appends, and none that trims. -/
def Quiet (buf : LogBuffer) (ops : List BufferOp) : Prop :=
  (∀ op ∈ ops, op ≠ .clear) ∧ buf.lines.length + ops.length ≤ 2000

/-- The poll finds a buffer that is only longer since the last poll, or one that is
shorter than then, or the last poll found it empty. -/
def undisturbed (s : Stream) (ops : List BufferOp) : Prop :=
  s.last = 0 ∨ (s.log.applyAll ops).buf.lines.length < s.last ∨ Quiet s.log.buf ops

instance (buf : LogBuffer) (ops : List BufferOp) : Decidable (Quiet buf ops) :=
  inferInstanceAs (Decidable (_ ∧ _))

instance (s : Stream) (ops : List BufferOp) : Decidable (undisturbed s ops) :=
  inferInstanceAs (Decidable (_ ∨ _ ∨ _))

/-- The lines of the appends. -/
def appended (ops : List BufferOp) : List String :=
  ops.filterMap fun
    | .append line => some line
    | .clear => none

/-! ## The buffer -/

variable {l : Log} {ops : List BufferOp}

theorem lines_append (b : LogBuffer) (line : String) :
    (b.append line).lines =
      if b.lines.length + 1 > 2000 then (b.lines ++ [line]).drop 500 else b.lines ++ [line] := by
  unfold LogBuffer.append
  simp only [List.length_append, List.length_singleton]
  split <;> rfl

theorem length_append_le (b : LogBuffer) (line : String) (h : b.lines.length ≤ 2000) :
    (b.append line).lines.length ≤ 2000 := by
  rw [lines_append]
  split
  · simp only [List.length_drop, List.length_append, List.length_singleton]
    omega
  · simp only [List.length_append, List.length_singleton]
    omega

theorem append_ne_nil (b : LogBuffer) (line : String) (h : b.lines.length ≤ 2000) :
    (b.append line).lines ≠ [] := by
  intro hnil
  have hlen := congrArg List.length hnil
  rw [lines_append] at hlen
  split at hlen
  · simp only [List.length_drop, List.length_append, List.length_singleton, List.length_nil] at hlen
    omega
  · simp at hlen

/-- The buffer is within its bound, and an empty one belongs to a run that has
trimmed nothing. -/
structure Log.Ok (l : Log) : Prop where
  bound : l.buf.lines.length ≤ 2000
  fresh : l.buf.lines = [] → l.trimmed = []

theorem ok_empty : Log.Ok {} := ⟨Nat.zero_le _, fun _ => rfl⟩

theorem ok_apply (h : l.Ok) (op : BufferOp) : (l.apply op).Ok := by
  cases op with
  | append line =>
    refine ⟨length_append_le l.buf line h.bound, ?_⟩
    intro hnil
    exact absurd hnil (append_ne_nil l.buf line h.bound)
  | clear => exact ⟨Nat.zero_le _, fun _ => rfl⟩

theorem ok_applyAll (h : l.Ok) (ops : List BufferOp) : (l.applyAll ops).Ok := by
  unfold Log.applyAll
  induction ops generalizing l with
  | nil => exact h
  | cons op ops ih => exact ih (ok_apply h op)

theorem applyAll_quiet (hclear : ∀ op ∈ ops, op ≠ .clear)
    (hlen : l.buf.lines.length + ops.length ≤ 2000) :
    (l.applyAll ops).trimmed = l.trimmed ∧
      (l.applyAll ops).buf.lines = l.buf.lines ++ appended ops := by
  induction ops generalizing l with
  | nil => exact ⟨rfl, by simp [Log.applyAll, appended]⟩
  | cons op ops ih =>
    rw [List.forall_mem_cons] at hclear
    cases op with
    | clear => exact absurd rfl hclear.1
    | append line =>
      rw [List.length_cons] at hlen
      have hno : ¬ l.buf.lines.length + 1 > 2000 := by omega
      have hlines : (l.apply (.append line)).buf.lines = l.buf.lines ++ [line] := by
        show (l.buf.append line).lines = _
        rw [lines_append, if_neg hno]
      have htrim : (l.apply (.append line)).trimmed = l.trimmed := if_neg hno
      have hlen' : (l.apply (.append line)).buf.lines.length + ops.length ≤ 2000 := by
        rw [hlines, List.length_append, List.length_singleton]
        omega
      obtain ⟨ht, hl⟩ := ih hclear.2 hlen'
      refine ⟨?_, ?_⟩
      · exact ht.trans htrim
      · refine hl.trans ?_
        rw [hlines]
        simp [appended]

/-! ## The client -/

theorem foldl_data (shown lines : List String) :
    (lines.map Event.data).foldl receive shown = shown ++ lines := by
  induction lines generalizing shown with
  | nil => simp
  | cons line lines ih =>
    simp only [List.map_cons, List.foldl_cons, receive]
    rw [ih, List.append_assoc, List.singleton_append]

/-- What a poll makes of the client: the buffer anew, or the lines past the length
it remembered. -/
theorem shown_poll (buf : LogBuffer) (last : Nat) (shown : List String) :
    (poll buf last).1.foldl receive shown =
      if buf.lines.length < last then buf.lines else shown ++ buf.lines.drop last := by
  unfold poll
  by_cases hlt : buf.lines.length < last
  · simp only [hlt, if_true, List.foldl_cons, receive]
    exact foldl_data [] buf.lines
  · by_cases hgt : last < buf.lines.length
    · simp only [hlt, hgt, if_true, if_false]
      exact foldl_data shown _
    · have hdrop : buf.lines.drop last = [] := List.drop_eq_nil_of_le (by omega)
      simp [hlt, hgt, receive, hdrop]

theorem last_poll (buf : LogBuffer) (last : Nat) : (poll buf last).2 = buf.lines.length := by
  simp only [poll]
  split
  · rfl
  · split <;> rfl

/-! ## The invariant -/

/-- The client shows the buffer, and the remembered length is the buffer's. -/
structure Stream.Ok (s : Stream) : Prop where
  shows : s.Shows
  last : s.last = s.log.buf.lines.length
  log : s.log.Ok

variable {s s' : Stream}

theorem ok_opened (ops : List BufferOp) : (Stream.opened ops).Ok where
  shows := ⟨[], List.nil_suffix, by simp [Stream.opened, foldl_data]⟩
  last := rfl
  log := ok_applyAll ok_empty ops

theorem ok_step (h : s.Ok) (hG : undisturbed s ops) (hs : s.step ops = some s') : s'.Ok := by
  obtain rfl := Option.some.inj hs
  refine ⟨?_, last_poll _ _, ok_applyAll h.log ops⟩
  unfold Stream.Shows
  dsimp only
  rw [shown_poll]
  obtain ⟨pre, hpre, hshown⟩ := h.shows
  by_cases hlt : (s.log.applyAll ops).buf.lines.length < s.last
  · -- the buffer is sent anew
    exact ⟨[], List.nil_suffix, by simp [hlt]⟩
  · rw [if_neg hlt]
    rcases hG with hzero | hlt' | ⟨hclear, hlen⟩
    · -- the client had nothing: the whole buffer is past what it saw
      have hnil : s.log.buf.lines = [] := List.length_eq_zero_iff.1 (h.last.symm.trans hzero)
      have hpre' : pre = [] := List.suffix_nil.1 (h.log.fresh hnil ▸ hpre)
      refine ⟨[], List.nil_suffix, ?_⟩
      rw [hshown, hpre', hnil, hzero]
      rfl
    · exact absurd hlt' hlt
    · obtain ⟨htrim, hlines⟩ := applyAll_quiet hclear hlen
      refine ⟨pre, htrim ▸ hpre, ?_⟩
      rw [hlines, h.last, List.drop_left, hshown, List.append_assoc]

/-! ## The condition is exact when no line is repeated -/

theorem lines_append_suffix (b : LogBuffer) (line : String) :
    (b.append line).lines <:+ b.lines ++ [line] := by
  rw [lines_append]
  split
  · exact List.drop_suffix _ _
  · exact List.suffix_refl _

theorem lines_applyAll_suffix (l : Log) (ops : List BufferOp) :
    (l.applyAll ops).buf.lines <:+ l.buf.lines ++ appended ops := by
  induction ops generalizing l with
  | nil => exact ⟨[], by simp [Log.applyAll, appended]⟩
  | cons op ops ih =>
    refine (ih (l.apply op)).trans ?_
    cases op with
    | append line =>
      have happ : appended (.append line :: ops) = [line] ++ appended ops := rfl
      rw [happ, ← List.append_assoc, List.suffix_append_self_iff]
      exact lines_append_suffix l.buf line
    | clear => exact List.suffix_append _ _

theorem lines_applyAll_of_clear (l : Log) (hclear : BufferOp.clear ∈ ops) :
    (l.applyAll ops).buf.lines <:+ appended ops := by
  induction ops generalizing l with
  | nil => cases hclear
  | cons op ops ih =>
    cases op with
    | clear => exact lines_applyAll_suffix (l.apply .clear) ops
    | append line =>
      have hclear' : BufferOp.clear ∈ ops := by simpa using hclear
      have hrest := ih (l.apply (.append line)) hclear'
      have hcons : appended (.append line :: ops) = [line] ++ appended ops := rfl
      rw [hcons]
      exact List.suffix_append_of_suffix hrest

theorem length_appended (hclear : ∀ op ∈ ops, op ≠ .clear) :
    (appended ops).length = ops.length := by
  induction ops with
  | nil => rfl
  | cons op ops ih =>
    rw [List.forall_mem_cons] at hclear
    cases op with
    | clear => exact absurd rfl hclear.1
    | append line =>
      have happ : appended (.append line :: ops) = line :: appended ops := rfl
      rw [happ, List.length_cons, List.length_cons, ih hclear.2]

/-- A clear or a trim drops a line of a buffer that was not empty. -/
theorem length_applyAll_lt (hl : l.Ok) (hne : l.buf.lines ≠ []) (hquiet : ¬ Quiet l.buf ops) :
    (l.applyAll ops).buf.lines.length < (l.buf.lines ++ appended ops).length := by
  have hpos := List.length_pos_of_ne_nil hne
  rw [List.length_append]
  by_cases hclear : BufferOp.clear ∈ ops
  · have hle := (lines_applyAll_of_clear l hclear).length_le
    omega
  · have hno : ∀ op ∈ ops, op ≠ .clear := by
      intro op hop he
      exact hclear (he ▸ hop)
    have hover : ¬ l.buf.lines.length + ops.length ≤ 2000 := fun h => hquiet ⟨hno, h⟩
    have hbound := (ok_applyAll hl ops).bound
    rw [length_appended hno]
    omega

/-- A buffer that lost its first line and starts with it again repeats a line. -/
theorem not_nodup_of_suffix {old new history : List String} (hne : old ≠ [])
    (hold : old <+: history) (hnew : new <:+ history) (hlt : new.length < history.length)
    (hpre : old <+: new) : ¬ history.Nodup := by
  intro hnodup
  obtain ⟨x, old, rfl⟩ := List.exists_cons_of_ne_nil hne
  obtain ⟨r, rfl⟩ := hold
  obtain ⟨front, hfront⟩ := hnew
  obtain ⟨r', rfl⟩ := hpre
  cases front with
  | nil =>
    have hlen := congrArg List.length hfront
    simp only [List.nil_append] at hlen
    omega
  | cons y front =>
    -- both start with `x`: it stands at the front and again in the new buffer
    simp only [List.cons_append] at hfront
    obtain ⟨rfl, htail⟩ := List.cons.inj hfront
    rw [List.cons_append, List.nodup_cons] at hnodup
    refine hnodup.1 ?_
    rw [← htail]
    exact List.mem_append_right _ List.mem_cons_self

/-- A disturbed poll leaves a client that does not show the buffer. -/
theorem not_shows_of_disturbed (h : s.Ok) (hG : ¬ undisturbed s ops)
    (hnodup : (s.log.buf.lines ++ appended ops).Nodup) (hs : s.step ops = some s') : ¬ s'.Shows := by
  obtain rfl := Option.some.inj hs
  unfold undisturbed at hG
  push Not at hG
  obtain ⟨hlast, hge, hquiet⟩ := hG
  have hne : s.log.buf.lines ≠ [] := by
    intro hnil
    exact hlast (h.last.trans (by rw [hnil]; rfl))
  rintro ⟨pre', hpre', hshown'⟩
  obtain ⟨pre, hpre, hshown⟩ := h.shows
  dsimp only at hshown'
  rw [shown_poll, if_neg (by omega), hshown] at hshown'
  have hlen : pre.length = pre'.length := by
    have hlengths := congrArg List.length hshown'
    simp only [List.length_append, List.length_drop] at hlengths
    have hlast' := h.last
    omega
  rw [List.append_assoc] at hshown'
  obtain ⟨-, hbuf⟩ := List.append_inj hshown' hlen
  exact not_nodup_of_suffix hne (List.prefix_append _ _) (lines_applyAll_suffix s.log ops)
    (length_applyAll_lt h.log hne hquiet) ⟨_, hbuf⟩ hnodup

theorem meets_of_shows {polls : List (List BufferOp)} (h : s.Ok)
    (hnodup : (s.log.buf.lines ++ polls.flatMap appended).Nodup)
    (hshows : Always Stream.step Stream.Shows s polls) : Meets Stream.step undisturbed s polls := by
  induction polls generalizing s with
  | nil => exact meets_nil s
  | cons ops polls ih =>
    rw [List.flatMap_cons, ← List.append_assoc] at hnodup
    have hfirst := (List.nodup_append.1 hnodup).1
    obtain ⟨s', hs'⟩ : ∃ s', s.step ops = some s' := ⟨_, rfl⟩
    obtain ⟨-, hrest⟩ := (always_cons hs').1 hshows
    have hG : undisturbed s ops := by
      by_contra hG
      exact not_shows_of_disturbed h hG hfirst hs' (hrest [] List.nil_prefix s' rfl)
    refine meets_cons.2 ⟨hG, ?_⟩
    intro s'' hs''
    obtain rfl : s' = s'' := Option.some.inj (hs'.symm.trans hs'')
    refine ih (ok_step h hG hs') ?_ hrest
    -- what is left in the buffer and what comes are still different lines
    have hsub : s'.log.buf.lines.Sublist (s.log.buf.lines ++ appended ops) := by
      obtain rfl := Option.some.inj hs'
      exact (lines_applyAll_suffix s.log ops).sublist
    exact hnodup.sublist (hsub.append_right _)

/-- The client shows the log after every poll of a run whose polls are undisturbed;
and when no line comes twice, only then. -/
theorem shows_iff_undisturbed (before : List BufferOp) (polls : List (List BufferOp)) :
    (Meets Stream.step undisturbed (.opened before) polls →
      Always Stream.step Stream.Shows (.opened before) polls) ∧
    (((Stream.opened before).log.buf.lines ++ polls.flatMap appended).Nodup →
      Always Stream.step Stream.Shows (.opened before) polls →
      Meets Stream.step undisturbed (.opened before) polls) := by
  constructor
  · intro hG
    exact always_of_meets (fun _ h => h.shows) (fun _ _ _ h hG hs => ok_step h hG hs)
      (ok_opened before) hG
  · intro hnodup hshows
    exact meets_of_shows (ok_opened before) hnodup hshows

/-- A model is relaunched between two polls and its log is as long again as the one
of the model before. -/
def relaunched : List (List BufferOp) := [[.clear, .append "[runner] (vllm) $ b", .append "loading b"]]

/-- The client goes on showing the log of the model before. -/
theorem relaunched_not_shows :
    ((Stream.opened [.append "[runner] (vllm) $ a", .append "loading a"]).step
        [.clear, .append "[runner] (vllm) $ b", .append "loading b"]).map Stream.shown =
      some ["[runner] (vllm) $ a", "loading a"] ∧
    ¬ Always Stream.step Stream.Shows
      (.opened [.append "[runner] (vllm) $ a", .append "loading a"]) relaunched := by
  refine ⟨by decide, ?_⟩
  intro h
  exact not_shows_of_disturbed (ok_opened _) (by decide) (by decide) rfl
    (h relaunched (List.prefix_refl _) _ rfl)

/-! ## The runner's log

What the runner does between two polls is a list of buffer operations, so the
stream of a running runner is one of the streams above. -/

/-- The effect of one buffer operation, or none. -/
def BufferMove (b b' : LogBuffer) : Prop :=
  b' = b ∨ (∃ line, b' = b.append line) ∨ b' = b.clear

theorem effect_logs (sh : Shared) (g : Nat) (p : Proc) (a : ThreadAct) :
    BufferMove sh.logs (sh.effect g p a).logs := by
  have hmark : ∀ now, (sh.markRunning g now).logs = sh.logs := by
    intro now
    unfold Shared.markRunning
    split <;> rfl
  cases a with
  | startup now => exact Or.inl (hmark now)
  | healthSet now => exact Or.inl (hmark now)
  | record =>
    simp only [Shared.effect]
    split
    · next code _ =>
        refine Or.inr (Or.inl ⟨"[runner] Process exited (code " ++ codeText code ++ ")", ?_⟩)
        simp only [Shared.recordExit, Shared.log]
        split <;> rfl
    · exact Or.inl rfl
  | line text => exact Or.inr (Or.inl ⟨_, rfl⟩)
  | interrupted msg => exact Or.inr (Or.inl ⟨_, rfl⟩)
  | memoryGuard free => exact Or.inr (Or.inl ⟨_, rfl⟩)
  | _ => exact Or.inl rfl

theorem startStep_logs {r : Launch} {pc pc' : StartPc} {a : StartAct} {w w' : World}
    (h : startStep r pc a w = some (pc', w')) :
    BufferMove w.sup.shared.logs w'.sup.shared.logs := by
  cases startStep_move h with
  | found g hproc halive => exact Or.inr (Or.inl ⟨_, rfl⟩)
  | journal line => exact Or.inr (Or.inl ⟨line, rfl⟩)
  | saveFailed e => exact Or.inr (Or.inl ⟨_, rfl⟩)
  | cleared => exact Or.inr (Or.inr rfl)
  | _ => exact Or.inl rfl

theorem callStep_logs {i : Nat} {pc pc' : CallPc} {a : CallAct} {w w' : World}
    (h : callStep i pc a w = some (pc', w')) :
    BufferMove w.sup.shared.logs w'.sup.shared.logs := by
  cases callStep_move h with
  | start r sp sa sp' _ hstart => exact startStep_logs hstart
  | stopFound g hproc halive => exact Or.inr (Or.inl ⟨_, rfl⟩)
  | _ => exact Or.inl rfl

theorem watchdogStep_logs {pc pc' : WatchdogPc} {b b' : Bool} {a : WatchdogAct} {w w' : World}
    (h : watchdogStep pc b a w = some (pc', b', w')) :
    BufferMove w.sup.shared.logs w'.sup.shared.logs := by
  cases watchdogStep_move h with
  | start r fails sp sa sp' _ hstart => exact startStep_logs hstart
  | reset hfails => exact Or.inr (Or.inl ⟨_, rfl⟩)
  | disabled last tokens hmax =>
    cases b
    · exact Or.inr (Or.inl ⟨_, rfl⟩)
    · exact Or.inl rfl
  | invalid last e hmax => exact Or.inr (Or.inl ⟨_, rfl⟩)
  | fits r fails line => exact Or.inr (Or.inl ⟨line, rfl⟩)
  | noMemory r fails line => exact Or.inr (Or.inl ⟨line, rfl⟩)
  | finish r fails ok => exact Or.inr (Or.inl ⟨_, rfl⟩)
  | _ => exact Or.inl rfl

theorem step_logs {s s' : App} {a : Act} (h : Runner.step s a = some s') :
    BufferMove s.sup.shared.logs s'.sup.shared.logs := by
  cases a with
  | thread g a =>
    obtain ⟨sup, hsup, rfl⟩ := step_thread h
    obtain ⟨p, -, rfl⟩ := Option.map_eq_some_iff.1 hsup
    exact effect_logs _ g _ a
  | call i a =>
    obtain ⟨pc, w, hx, rfl⟩ := step_call h
    exact callStep_logs hx
  | watchdog a =>
    obtain ⟨pc, b, w, hx, rfl⟩ := step_watchdog h
    exact watchdogStep_logs hx

/-- Whatever the runner does between two polls, to the log it is a list of buffer
operations. -/
theorem exec_logs {s s' : App} {acts : List Act} (h : exec Runner.step s acts = some s')
    (trimmed : List String) :
    ∃ ops, (Log.applyAll ⟨trimmed, s.sup.shared.logs⟩ ops).buf = s'.sup.shared.logs := by
  induction acts generalizing s trimmed with
  | nil =>
    obtain rfl : s = s' := by simpa using h
    exact ⟨[], rfl⟩
  | cons a acts ih =>
    obtain ⟨m, hm, hrest⟩ := exec_cons_eq_some.1 h
    rcases step_logs hm with hsame | ⟨line, happend⟩ | hclear
    · obtain ⟨ops, hops⟩ := ih hrest trimmed
      exact ⟨ops, hsame ▸ hops⟩
    · obtain ⟨ops, hops⟩ := ih hrest (Log.apply ⟨trimmed, s.sup.shared.logs⟩ (.append line)).trimmed
      refine ⟨.append line :: ops, ?_⟩
      rw [happend] at hops
      exact hops
    · obtain ⟨ops, hops⟩ := ih hrest []
      refine ⟨.clear :: ops, ?_⟩
      rw [hclear] at hops
      exact hops

end Runner
