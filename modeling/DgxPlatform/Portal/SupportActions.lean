import DgxPlatform.Lib.Calls
import DgxPlatform.Lib.Text
import Mathlib.Data.List.Nodup
import Mathlib.Data.List.Sort

/-! # The sensitive actions of the support assistant

A turn of the assistant answers the model's tool calls one by one. A guarded tool is not
run there: the turn inserts a pending action and shows its token, and `support_confirm`
runs the action, or cancels it, on the user's click. Both clicks read the row first and
close it with a conditional UPDATE; only the confirmation looks at what it has closed.

`support` is the machine of any number of turns and clicks, each statement a step of its
own. In every run guarded tools run on clicks alone, once per token, and external
content bars the sensitive tools (`guarded_always`). That a cancelled action never runs
holds as long as each cancel closes the row before a confirmation does
(`clicks_kept`).
-/

namespace Portal.Support

open Run Calls

/-! ## Pending actions -/

/-- `GUARDED_TOOLS`. -/
def GUARDED_TOOLS : List (List Char) :=
  ["revoke_api_key".toList, "launch_model".toList, "stop_model".toList, "manage_service".toList]

def createApiKey : List Char := "create_api_key".toList

/-- `refused_if_external`. -/
def refusedIfExternal (name : List Char) : Bool :=
  decide (name ∈ GUARDED_TOOLS) || decide (name = createApiKey)

/-- `PENDING_TTL`, in microseconds. -/
def PENDING_TTL : Nat := 600000000

/-- `PENDING_MAX`. -/
def PENDING_MAX : Nat := 5

/-- The column `status`. -/
inductive Status where
  | pending
  | done
  | cancelled
deriving DecidableEq, Repr

/-- A row of `pending_actions`; `args` is their JSON text. -/
structure Row where
  token : List Char
  username : List Char
  tool : List Char
  args : List Char
  createdAt : Nat
  status : Status
deriving DecidableEq, Repr

/-- `DELETE … WHERE created_at < ?`. -/
def deleteExpired (now : Nat) (rows : List Row) : List Row :=
  rows.filter fun r => decide (now ≤ r.createdAt + PENDING_TTL)

/-- The tokens of the user's newest rows. -/
def newestTokens (user : List Char) (rows : List Row) : List (List Char) :=
  let own := (rows.filter fun r => r.username = user).insertionSort fun a b : Row =>
    b.createdAt ≤ a.createdAt
  (own.take PENDING_MAX).map Row.token

/-- `DELETE … WHERE username=? AND status='pending' AND token NOT IN (…)`. -/
def deleteOld (user : List Char) (rows : List Row) : List Row :=
  rows.filter fun r =>
    !(decide (r.username = user) && decide (r.status = .pending)
      && decide (r.token ∉ newestTokens user rows))

/-- The rows that `close` updates. -/
def Row.closable (user token : List Char) (r : Row) : Bool :=
  decide (r.token = token) && decide (r.username = user) && decide (r.status = .pending)

/-- The UPDATE of `close`. -/
def close (user token : List Char) (status : Status) (rows : List Row) : List Row :=
  rows.map fun r => if r.closable user token then { r with status } else r

/-- `close` has updated one row. -/
def closes (user token : List Char) (rows : List Row) : Bool :=
  rows.countP (Row.closable user token) == 1

/-- `pending`: the user's row, if it is still valid at the instant `now`. -/
def pendingRow (user token : List Char) (now : Nat) (rows : List Row) : Option Row :=
  (rows.find? fun r => r.token = token ∧ r.username = user).filter fun r =>
    decide (r.status = .pending) && decide (now ≤ r.createdAt + PENDING_TTL)

/-! ## Turns -/

/-- What an extra tool runs. -/
inductive Route where
  | mcp
  | chats
  | skill
deriving DecidableEq, Repr

/-- A tool call of the model. -/
structure Call where
  name : List Char
  args : List Char
deriving DecidableEq, Repr

/-- What `run_turn` brings back: the client is gone, the stream broke, another status
than 200, or an answer with its calls. -/
inductive Reply where
  | gone
  | broken
  | refused
  | answered (calls : List Call)
deriving DecidableEq, Repr

/-- What a turn has done. -/
inductive Event where
  | routed
  | proposed (tool : List Char)
  | executed (tool : List Char)
deriving DecidableEq, Repr

/-- Where a turn awaits, in which round: the model, the calls still to be answered, and
the statements of `create_pending` with the call they are for. -/
inductive TurnPc where
  | ask (round : Nat)
  | next (round : Nat) (calls : List Call)
  | sweep (round : Nat) (call : Call) (rest : List Call)
  | trim (round : Nat) (call : Call) (rest : List Call) (now : Nat)
  | insert (round : Nat) (call : Call) (rest : List Call) (now : Nat)
  | announce (round : Nat) (call : Call) (rest : List Call)
  | run (round : Nat) (call : Call) (rest : List Call)
  | ended
deriving DecidableEq, Repr

/-- A turn: its account, the routes of its extra tools, and `events`, the record of what
it has done. -/
structure Turn where
  user : List Char
  routing : List (List Char × Route)
  useTools : Bool
  untrusted : Bool
  events : List Event
  pc : TurnPc
deriving DecidableEq, Repr

/-- `routing.get`. -/
def Turn.route (t : Turn) (name : List Char) : Option Route :=
  (t.routing.find? fun r => r.1 = name).map Prod.snd

/-! ## Clicks -/

/-- Where `support_confirm` awaits, with the row it has read and the instant of that. -/
inductive ConfirmPc where
  | read
  | close (row : Row) (readAt : Nat)
  | run (row : Row) (readAt : Nat)
  | ended
deriving DecidableEq, Repr

/-- A click: the session's account, the token, "cancel" or not. -/
structure Confirm where
  user : List Char
  token : List Char
  cancel : Bool
  pc : ConfirmPc
deriving DecidableEq, Repr

inductive Party where
  | turn (t : Turn)
  | confirm (c : Confirm)
deriving DecidableEq, Repr

/-- What is begun: a turn, or a click. -/
inductive Request where
  | turn (user : List Char) (routing : List (List Char × Route))
  | confirm (user token : List Char) (cancel : Bool)
deriving DecidableEq, Repr

def Request.first : Request → Party
  | .turn user routing => .turn ⟨user, routing, true, false, [], .ask 0⟩
  | .confirm user token cancel =>
      .confirm ⟨user, token, cancel, if token = [] then .ended else .read⟩

/-! ## The machine -/

/-- A call of `st::exec`. -/
inductive Execution where
  | inTurn (user tool args : List Char)
  | onClick (user token tool args : List Char) (readAt : Nat)
deriving DecidableEq, Repr

/-- The table, and the record: the rows inserted so far, the executions, the tokens that
a confirmation has closed, those whose cancel was answered ok. -/
structure Shared where
  rows : List Row
  inserted : List Row
  execs : List Execution
  confirmed : List (List Char)
  cancelled : List (List Char)
deriving DecidableEq, Repr

def Shared.init : Shared := ⟨[], [], [], [], []⟩

/-- The answer a party gets where it awaits. -/
inductive Move where
  | reply (r : Reply)
  /-- the turn looks at the next call -/
  | look
  /-- the client has received the event, or is gone -/
  | sent (ok : Bool)
  | ran
  /-- a statement after a look at the clock, and whether the database answers -/
  | timed (now : Nat) (ok : Bool)
  | query (ok : Bool)
  /-- the INSERT of a fresh random token -/
  | inserted (token : List Char) (ok : Bool)
deriving DecidableEq, Repr

/-- The rest of the calls, or the next round. -/
def goOn (round : Nat) (rest : List Call) : TurnPc :=
  if rest = [] then .ask (round + 1) else .next round rest

/-- The answer of the model. Of the fifth one, asked without tools, the calls are not
looked at. -/
def Turn.replied (t : Turn) (round : Nat) : Reply → Turn
  | .gone => { t with pc := .ended }
  | .broken => { t with pc := .ended }
  | .refused =>
      if round < 4 ∧ t.useTools = true then { t with useTools := false, pc := .ask (round + 1) }
      else { t with pc := .ended }
  | .answered calls =>
      if round < 4 ∧ calls ≠ [] then { t with pc := .next round calls } else { t with pc := .ended }

/-- What a turn does with a call. -/
def Turn.look (t : Turn) (round : Nat) (call : Call) (rest : List Call) : Turn :=
  if t.untrusted = true ∧ refusedIfExternal call.name = true then { t with pc := goOn round rest }
  else
    match t.route call.name with
    | none =>
        if call.name ∈ GUARDED_TOOLS then { t with pc := .sweep round call rest }
        else { t with pc := .announce round call rest }
    | some _ => { t with untrusted := true, pc := .announce round call rest }

def turnMove (s : Shared) (t : Turn) : TurnPc → Move → Option (Shared × Turn)
  | .ask round, .reply r => some (s, t.replied round r)
  | .next round (call :: rest), .look => some (s, t.look round call rest)
  | .sweep round call rest, .timed now ok =>
      some (if ok then { s with rows := deleteExpired now s.rows } else s,
        { t with pc := .trim round call rest now })
  | .trim round call rest now, .query ok =>
      some (if ok then { s with rows := deleteOld t.user s.rows } else s,
        { t with pc := .insert round call rest now })
  | .insert round call rest now, .inserted token ok =>
      let row : Row := ⟨token, t.user, call.name, call.args, now, .pending⟩
      let t' := { t with events := t.events ++ [.proposed call.name], pc := goOn round rest }
      if token ∈ s.inserted.map Row.token then none
      else if ok then some ({ s with rows := s.rows ++ [row], inserted := s.inserted ++ [row] }, t')
      else some (s, t')
  | .announce round call rest, .sent ok =>
      some (s, { t with pc := if ok then .run round call rest else .ended })
  | .run round call rest, .ran =>
      match t.route call.name with
      | none => some ({ s with execs := s.execs ++ [.inTurn t.user call.name call.args] },
          { t with events := t.events ++ [.executed call.name], pc := goOn round rest })
      | some _ => some (s, { t with events := t.events ++ [.routed], pc := goOn round rest })
  | _, _ => none

/-- `support_confirm`. The cancel is answered ok whatever `close` says. -/
def confirmMove (s : Shared) (c : Confirm) : ConfirmPc → Move → Option (Shared × Confirm)
  | .read, .timed now ok =>
      match (if ok then pendingRow c.user c.token now s.rows else none) with
      | none => some (s, { c with pc := .ended })
      | some row => some (s, { c with pc := .close row now })
  | .close row readAt, .query ok =>
      if c.cancel then
        some ({ s with
            rows := if ok then close c.user c.token .cancelled s.rows else s.rows
            cancelled := s.cancelled ++ [c.token] }, { c with pc := .ended })
      else if ok && closes c.user c.token s.rows then
        some ({ s with
            rows := close c.user c.token .done s.rows
            confirmed := s.confirmed ++ [c.token] }, { c with pc := .run row readAt })
      else some (s, { c with pc := .ended })
  | .run row readAt, .ran =>
      some ({ s with execs := s.execs ++ [.onClick c.user c.token row.tool row.args readAt] },
        { c with pc := .ended })
  | _, _ => none

def move (s : Shared) (p : Party) (m : Move) : Option (Shared × Party) :=
  match p with
  | .turn t => (turnMove s t t.pc m).map fun x => (x.1, .turn x.2)
  | .confirm c => (confirmMove s c c.pc m).map fun x => (x.1, .confirm x.2)

/-- Turns and clicks of all accounts. -/
def support : Machine Shared Request Party Move Empty where
  first := Request.first
  move := move
  env := fun _ e => e.elim

/-! ## What a run has to keep -/

/-- Nothing sensitive comes after external content. -/
def Event.allowed : Event → Bool
  | .routed => true
  | .proposed _ => false
  | .executed tool => decide (tool ≠ createApiKey)

/-- No sensitive tool is proposed or run after a route has run. -/
def Latched (events : List Event) : Prop :=
  events.Pairwise fun a b => a = .routed → b.allowed = true

/-- The execution is of this token. -/
def Execution.onToken (token : List Char) : Execution → Bool
  | .inTurn _ _ _ => false
  | .onClick _ t _ _ _ => decide (t = token)

/-- A guarded tool runs on a click alone: of the account that the action was pending for,
on the action's token, read while it was valid. -/
def Execution.Allowed (s : Conf Shared Party) : Execution → Prop
  | .inTurn _ tool _ => tool ∉ GUARDED_TOOLS
  | .onClick user token tool args readAt =>
      Party.confirm ⟨user, token, false, .ended⟩ ∈ s.calls ∧
        ∃ createdAt, ⟨token, user, tool, args, createdAt, .pending⟩ ∈ s.shared.inserted ∧
          readAt ≤ createdAt + PENDING_TTL

/-- What holds in every run. -/
structure Guarded (s : Conf Shared Party) : Prop where
  allowed : ∀ e ∈ s.shared.execs, e.Allowed s
  once : ∀ token, s.shared.execs.countP (Execution.onToken token) ≤ 1
  latched : ∀ t, Party.turn t ∈ s.calls → Latched t.events

/-- What the clicks promise: besides, a cancelled action is never run. -/
structure Kept (s : Conf Shared Party) : Prop extends Guarded s where
  cancelled : ∀ token ∈ s.shared.cancelled, s.shared.execs.countP (Execution.onToken token) = 0

/-- The token of a cancel whose next statement is the UPDATE. -/
def Party.cancels : Party → Option (List Char)
  | .turn _ => none
  | .confirm c =>
      match c.pc with
      | .close _ _ => if c.cancel then some c.token else none
      | _ => none

/-- The UPDATE of a cancel is answered, and no confirmation has closed the row before. -/
def cancelsInTime (s : Conf Shared Party) : Act Request Move Empty → Prop
  | .move i (.query ok) =>
      ∀ p ∈ s.calls[i]?, ∀ token ∈ p.cancels, ok = true ∧ token ∉ s.shared.confirmed
  | _ => True

instance (s : Conf Shared Party) : (a : Act Request Move Empty) → Decidable (cancelsInTime s a)
  | .move i (.query ok) => inferInstanceAs (Decidable
      (∀ p ∈ s.calls[i]?, ∀ token ∈ p.cancels, ok = true ∧ token ∉ s.shared.confirmed))
  | .move _ (.reply _) => .isTrue trivial
  | .move _ .look => .isTrue trivial
  | .move _ (.sent _) => .isTrue trivial
  | .move _ .ran => .isTrue trivial
  | .move _ (.timed _ _) => .isTrue trivial
  | .move _ (.inserted _ _) => .isTrue trivial
  | .enter _ => .isTrue trivial
  | .env _ => .isTrue trivial

/-! ## Turns -/

/-- A call that a route carries out, or a plain tool. -/
def Turn.MayRun (t : Turn) (call : Call) : Prop :=
  (t.route call.name = none →
    call.name ∉ GUARDED_TOOLS ∧ (t.untrusted = true → call.name ≠ createApiKey)) ∧
  (t.route call.name ≠ none → t.untrusted = true)

/-- What a turn has checked about the call it is at. -/
def Turn.Checked (t : Turn) : TurnPc → Prop
  | .sweep _ _ _ => t.untrusted = false
  | .trim _ _ _ _ => t.untrusted = false
  | .insert _ _ _ _ => t.untrusted = false
  | .announce _ call _ => t.MayRun call
  | .run _ call _ => t.MayRun call
  | _ => True

/-- A turn has marked the external content it has read, and what it has done is latched. -/
structure Turn.Ok (t : Turn) : Prop where
  marked : .routed ∈ t.events → t.untrusted = true
  latched : Latched t.events
  checked : t.Checked t.pc

theorem latched_append {events : List Event} {e : Event} (h : Latched events)
    (he : .routed ∈ events → e.allowed = true) : Latched (events ++ [e]) := by
  refine List.pairwise_append.2 ⟨h, List.pairwise_singleton _ _, ?_⟩
  intro a ha b hb hrouted
  rw [List.mem_singleton.1 hb]
  exact he (hrouted ▸ ha)

variable {s s' : Shared} {t t' : Turn} {m : Move}

theorem Turn.Ok.goOn {events : List Event} (round : Nat) (rest : List Call)
    (hmarked : .routed ∈ events → t.untrusted = true) (hlatched : Latched events) :
    Turn.Ok { t with events := events, pc := Support.goOn round rest } := by
  refine ⟨hmarked, hlatched, ?_⟩
  change Turn.Checked _ (Support.goOn round rest)
  unfold Support.goOn
  split <;> trivial

theorem Turn.Ok.replied (h : t.Ok) (round : Nat) (r : Reply) : (t.replied round r).Ok := by
  have hpc (useTools : Bool) {pc : TurnPc} (hpc : Turn.Checked { t with useTools, pc } pc) :
      Turn.Ok { t with useTools, pc } := ⟨h.marked, h.latched, hpc⟩
  unfold Turn.replied
  split
  · exact hpc _ trivial
  · exact hpc _ trivial
  · split
    · exact hpc _ trivial
    · exact hpc _ trivial
  · split
    · exact hpc _ trivial
    · exact hpc _ trivial

theorem Turn.Ok.look (h : t.Ok) (round : Nat) (call : Call) (rest : List Call) :
    (t.look round call rest).Ok := by
  unfold Turn.look
  split
  · exact Turn.Ok.goOn round rest h.marked h.latched
  · next hlatch =>
      have hrefused : t.untrusted = true → refusedIfExternal call.name = false := by
        intro hu
        simpa [hu] using hlatch
      simp only [refusedIfExternal, Bool.or_eq_false_iff, decide_eq_false_iff_not] at hrefused
      split
      · next hroute =>
          split
          · next hguarded =>
              refine ⟨h.marked, h.latched, ?_⟩
              change t.untrusted = false
              by_contra hu
              exact (hrefused (by simpa using hu)).1 hguarded
          · next hplain =>
              refine ⟨h.marked, h.latched, fun _ => ⟨hplain, fun hu => (hrefused hu).2⟩, ?_⟩
              exact fun hne => absurd hroute hne
      · next route hroute =>
          refine ⟨fun _ => rfl, h.latched, ?_, fun _ => rfl⟩
          intro hnone
          exact absurd (hroute.symm.trans hnone) (by simp)

theorem Turn.Ok.move (h : t.Ok) {pc : TurnPc} (hpc : t.pc = pc)
    (hm : turnMove s t pc m = some (s', t')) : t'.Ok := by
  have hchecked : t.Checked pc := hpc ▸ h.checked
  unfold turnMove at hm
  split at hm
  · cases hm
    exact h.replied _ _
  · cases hm
    exact h.look _ _ _
  · cases hm
    exact ⟨h.marked, h.latched, hchecked⟩
  · cases hm
    exact ⟨h.marked, h.latched, hchecked⟩
  · next round call rest now token ok =>
      have hclean : Event.routed ∉ t.events := fun hr =>
        absurd ((h.marked hr).symm.trans hchecked) (by decide)
      have hnext : Turn.Ok { t with
          events := t.events ++ [.proposed call.name], pc := Support.goOn round rest } := by
        refine Turn.Ok.goOn round rest ?_ (latched_append h.latched fun hr => absurd hr hclean)
        simp [hclean]
      dsimp only at hm
      split at hm
      · cases hm
      · split at hm <;> cases hm <;> exact hnext
  · next round call rest ok =>
      cases hm
      refine ⟨h.marked, h.latched, ?_⟩
      cases ok
      · trivial
      · exact hchecked
  · next round call rest =>
      split at hm
      · next hroute =>
          cases hm
          have hrun := hchecked.1 hroute
          refine Turn.Ok.goOn round rest ?_ (latched_append h.latched fun hr => ?_)
          · simpa using h.marked
          · simpa [Event.allowed] using hrun.2 (h.marked hr)
      · next hroute =>
          cases hm
          have hu := hchecked.2 (by rw [hroute]; simp)
          exact Turn.Ok.goOn round rest (fun _ => hu) (latched_append h.latched fun _ => rfl)
  · cases hm

/-! ## What a move does -/

/-- The row that a click holds was pending for its account, and valid when it was read. -/
structure HoldsRow (inserted : List Row) (user token : List Char) (row : Row) (readAt : Nat) :
    Prop where
  mem : row ∈ inserted
  token : row.token = token
  username : row.username = user
  pending : row.status = .pending
  valid : readAt ≤ row.createdAt + PENDING_TTL

def Confirm.Sound (inserted : List Row) (c : Confirm) : ConfirmPc → Prop
  | .close row readAt => HoldsRow inserted c.user c.token row readAt
  | .run row readAt => c.cancel = false ∧ HoldsRow inserted c.user c.token row readAt
  | _ => True

def Party.Sound (inserted : List Row) : Party → Prop
  | .turn t => t.Ok
  | .confirm c => c.Sound inserted c.pc

/-- The click has closed the row of this token and is about to run the action. -/
def Party.running (token : List Char) : Party → Nat
  | .turn _ => 0
  | .confirm c =>
      match c.pc with
      | .run _ _ => if c.token = token then 1 else 0
      | _ => 0

/-- Every row was inserted as pending. -/
def Shared.Recorded (s : Shared) : Prop := ∀ r ∈ s.rows, { r with status := .pending } ∈ s.inserted

/-- A move leaves everything alone, deletes rows, inserts one, runs a tool in a turn,
cancels, confirms, or runs a confirmed action. -/
inductive Effect (s : Shared) (p : Party) (m : Move) (s' : Shared) (p' : Party) : Prop
  | quiet (hs : s' = s) (hrun : ∀ token, p'.running token = p.running token)
      (hsound : s.Recorded → p.Sound s.inserted → p'.Sound s.inserted)
  | deleted (q : Row → Bool) (hs : s' = { s with rows := s.rows.filter q })
      (hrun : ∀ token, p'.running token = p.running token)
      (hsound : p.Sound s.inserted → p'.Sound s.inserted)
  | inserted (row : Row)
      (hs : s' = { s with rows := s.rows ++ [row], inserted := s.inserted ++ [row] })
      (hfresh : row.token ∉ s.inserted.map Row.token) (hpending : row.status = .pending)
      (hrun : ∀ token, p'.running token = p.running token)
      (hsound : p.Sound s.inserted → p'.Sound s.inserted)
  | ranInTurn (user tool args : List Char)
      (hs : s' = { s with execs := s.execs ++ [.inTurn user tool args] })
      (hplain : p.Sound s.inserted → tool ∉ GUARDED_TOOLS)
      (hrun : ∀ token, p'.running token = p.running token)
      (hsound : p.Sound s.inserted → p'.Sound s.inserted)
  | cancelled (c : Confirm) (row : Row) (readAt : Nat) (ok : Bool) (hp : p = .confirm c)
      (hpc : c.pc = .close row readAt) (hcancel : c.cancel = true) (hm : m = .query ok)
      (hs : s' = { s with
        rows := if ok then close c.user c.token .cancelled s.rows else s.rows
        cancelled := s.cancelled ++ [c.token] })
      (hp' : p' = .confirm { c with pc := .ended })
  | confirmed (c : Confirm) (row : Row) (readAt : Nat) (hp : p = .confirm c)
      (hpc : c.pc = .close row readAt) (hcancel : c.cancel = false)
      (hcloses : closes c.user c.token s.rows = true)
      (hs : s' = { s with
        rows := close c.user c.token .done s.rows
        confirmed := s.confirmed ++ [c.token] })
      (hp' : p' = .confirm { c with pc := .run row readAt })
  | ranOnClick (c : Confirm) (row : Row) (readAt : Nat) (hp : p = .confirm c)
      (hpc : c.pc = .run row readAt)
      (hs : s' = { s with execs := s.execs ++ [.onClick c.user c.token row.tool row.args readAt] })
      (hp' : p' = .confirm { c with pc := .ended })

theorem effect_turn {pc : TurnPc} (hpc : t.pc = pc) (hm : turnMove s t pc m = some (s', t')) :
    Effect s (.turn t) m s' (.turn t') := by
  have hok : Party.Sound s.inserted (.turn t) → Party.Sound s.inserted (.turn t') :=
    fun h => Turn.Ok.move h hpc hm
  have hrun : ∀ token, Party.running token (.turn t') = Party.running token (.turn t) :=
    fun _ => rfl
  have hquiet (hs : s' = s) : Effect s (.turn t) m s' (.turn t') := .quiet hs hrun fun _ => hok
  unfold turnMove at hm
  split at hm
  · cases hm
    exact hquiet rfl
  · cases hm
    exact hquiet rfl
  · next round call rest now ok =>
      cases hm
      cases ok
      · exact hquiet rfl
      · exact .deleted _ rfl hrun hok
  · next round call rest now ok =>
      cases hm
      cases ok
      · exact hquiet rfl
      · exact .deleted _ rfl hrun hok
  · next round call rest now token ok =>
      dsimp only at hm
      split at hm
      · cases hm
      · next hfresh =>
          split at hm
          · cases hm
            exact .inserted _ rfl hfresh rfl hrun hok
          · cases hm
            exact hquiet rfl
  · cases hm
    exact hquiet rfl
  · next round call rest =>
      split at hm
      · next hroute =>
          cases hm
          refine .ranInTurn _ _ _ rfl (fun h => ?_) hrun hok
          have hchecked : t.Checked (.run round call rest) := hpc ▸ Turn.Ok.checked h
          exact (hchecked.1 hroute).1
      · cases hm
        exact hquiet rfl
  · cases hm

variable {row : Row}

theorem holdsRow_of_pending {c : Confirm} {now : Nat} (hs : s.Recorded)
    (h : pendingRow c.user c.token now s.rows = some row) :
    HoldsRow s.inserted c.user c.token row now := by
  unfold pendingRow at h
  obtain ⟨hfind, hvalid⟩ := Option.filter_eq_some_iff.1 h
  simp only [Bool.and_eq_true, decide_eq_true_eq] at hvalid
  have hkey : row.token = c.token ∧ row.username = c.user := by simpa using List.find?_some hfind
  have hmem := hs row (List.mem_of_find?_eq_some hfind)
  refine ⟨?_, hkey.1, hkey.2, hvalid.1, hvalid.2⟩
  rwa [← hvalid.1] at hmem

theorem effect_confirm {c c' : Confirm} {pc : ConfirmPc} (hpc : c.pc = pc)
    (hm : confirmMove s c pc m = some (s', c')) :
    Effect s (.confirm c) m s' (.confirm c') := by
  obtain ⟨user, token, cancel, pc'⟩ := c
  obtain rfl : pc' = pc := hpc
  unfold confirmMove at hm
  split at hm
  · next now ok =>
      split at hm
      · cases hm
        exact .quiet rfl (fun _ => rfl) fun _ _ => trivial
      · next row hread =>
          cases hm
          cases ok
          · cases hread
          · exact .quiet rfl (fun _ => rfl) fun hrec _ => holdsRow_of_pending hrec hread
  · next row readAt ok =>
      split at hm
      · next hcancel =>
          cases hm
          exact .cancelled _ row readAt ok rfl rfl hcancel rfl rfl rfl
      · next hcancel =>
          split at hm
          · next hcloses =>
              cases hm
              exact .confirmed _ row readAt rfl rfl (by simpa using hcancel)
                (Bool.and_eq_true_iff.1 hcloses).2 rfl rfl
          · cases hm
            exact .quiet rfl (fun _ => rfl) fun _ _ => trivial
  · next row readAt =>
      cases hm
      exact .ranOnClick _ row readAt rfl rfl rfl rfl
  · cases hm

variable {p p' : Party}

theorem effect_of_move (h : move s p m = some (s', p')) : Effect s p m s' p' := by
  unfold move at h
  cases p with
  | turn t =>
    obtain ⟨x, hx, heq⟩ := Option.map_eq_some_iff.1 h
    cases heq
    exact effect_turn rfl hx
  | confirm c =>
    obtain ⟨x, hx, heq⟩ := Option.map_eq_some_iff.1 h
    cases heq
    exact effect_confirm rfl hx

theorem ne_ended_of_move (h : move s p m = some (s', p')) (user token : List Char)
    (cancel : Bool) : p ≠ .confirm ⟨user, token, cancel, .ended⟩ := by
  rintro rfl
  simp [move, confirmMove] at h

/-! ## The table -/

/-- The token was handed out, and its row is no longer pending. -/
def Shared.Settled (s : Shared) (token : List Char) : Prop :=
  token ∈ s.inserted.map Row.token ∧ ∀ r ∈ s.rows, r.token = token → r.status ≠ .pending

/-- What holds of the table alone. -/
structure Filed (s : Shared) : Prop where
  recorded : s.Recorded
  issued : (s.inserted.map Row.token).Nodup
  settled : ∀ token ∈ s.confirmed, s.Settled token

theorem settled_filter {token : List Char} (h : s.Settled token) (q : Row → Bool) :
    Shared.Settled { s with rows := s.rows.filter q } token :=
  ⟨h.1, fun r hr => h.2 r (List.mem_filter.1 hr).1⟩

theorem filed_filter (h : Filed s) (q : Row → Bool) : Filed { s with rows := s.rows.filter q } where
  recorded := fun r hr => h.recorded r (List.mem_filter.1 hr).1
  issued := h.issued
  settled := fun token ht => settled_filter (h.settled token ht) q

theorem settled_insert {token : List Char} (h : s.Settled token)
    (hfresh : row.token ∉ s.inserted.map Row.token) :
    Shared.Settled { s with rows := s.rows ++ [row], inserted := s.inserted ++ [row] } token := by
  refine ⟨?_, ?_⟩
  · rw [List.map_append]
    exact List.mem_append_left _ h.1
  · intro r hr htoken
    rcases List.mem_append.1 hr with hr | hr
    · exact h.2 r hr htoken
    · rw [List.mem_singleton.1 hr] at htoken
      exact absurd (htoken ▸ h.1) hfresh

theorem filed_insert (h : Filed s) (hfresh : row.token ∉ s.inserted.map Row.token)
    (hpending : row.status = .pending) :
    Filed { s with rows := s.rows ++ [row], inserted := s.inserted ++ [row] } := by
  refine ⟨?_, ?_, fun token ht => settled_insert (h.settled token ht) hfresh⟩
  · intro r hr
    rcases List.mem_append.1 hr with hr | hr
    · exact List.mem_append_left _ (h.recorded r hr)
    · rw [List.mem_singleton.1 hr, ← hpending]
      exact List.mem_append_right _ (List.mem_singleton_self _)
  · rw [List.map_append, List.nodup_append]
    refine ⟨h.issued, List.nodup_singleton _, ?_⟩
    rintro a ha b hb rfl
    exact hfresh (List.mem_singleton.1 hb ▸ ha)

variable {status : Status}

theorem mem_close {user token : List Char} {rows : List Row} {r : Row} (h : r ∈ close user token status rows) :
    (∃ q ∈ rows, r = { q with status }) ∨ (r ∈ rows ∧ r.closable user token = false) := by
  obtain ⟨q, hq, rfl⟩ := List.mem_map.1 h
  split
  · exact Or.inl ⟨q, hq, rfl⟩
  · next hc => exact Or.inr ⟨hq, by simpa using hc⟩

theorem recorded_close (h : s.Recorded) (user token : List Char) (status : Status) :
    Shared.Recorded { s with rows := close user token status s.rows } := by
  intro r hr
  rcases mem_close hr with ⟨q, hq, rfl⟩ | ⟨hr, -⟩
  · exact h q hq
  · exact h r hr

theorem settled_close {token token' : List Char} (h : s.Settled token') (user : List Char)
    (hstatus : status ≠ .pending) :
    Shared.Settled { s with rows := close user token status s.rows } token' := by
  refine ⟨h.1, ?_⟩
  intro r hr htoken
  rcases mem_close hr with ⟨q, hq, rfl⟩ | ⟨hr, -⟩
  · exact hstatus
  · exact h.2 r hr htoken

/-- A click that closes what it holds leaves no pending row of its token: an action is
pending for one account. -/
theorem settled_of_close (h : Filed s) {c : Confirm} {readAt : Nat}
    (hrow : HoldsRow s.inserted c.user c.token row readAt) (hstatus : status ≠ .pending) :
    Shared.Settled { s with rows := close c.user c.token status s.rows } c.token := by
  refine ⟨hrow.token ▸ List.mem_map_of_mem hrow.mem, ?_⟩
  intro r hr htoken
  rcases mem_close hr with ⟨q, hq, rfl⟩ | ⟨hr, hnot⟩
  · exact hstatus
  · have hsame : { r with status := .pending } = row :=
      List.inj_on_of_nodup_map h.issued (h.recorded r hr) hrow.mem (htoken.trans hrow.token.symm)
    have huser : r.username = c.user := by
      rw [← hrow.username, ← hsame]
    intro hpending
    simp [Row.closable, htoken, huser, hpending] at hnot

theorem exists_of_closes {user token : List Char} {rows : List Row}
    (h : closes user token rows = true) : ∃ r ∈ rows, r.token = token ∧ r.status = .pending := by
  have hpos : 0 < rows.countP (Row.closable user token) := by
    have hone : rows.countP (Row.closable user token) = 1 := by simpa [closes] using h
    omega
  obtain ⟨r, hr, hc⟩ := List.countP_pos_iff.1 hpos
  simp only [Row.closable, Bool.and_eq_true, decide_eq_true_eq] at hc
  exact ⟨r, hr, hc.1.1, hc.2⟩

/-! ## The invariant -/

/-- Each confirmed token is run once, or about to be; everybody is sound. -/
structure Ledger (s : Conf Shared Party) : Prop where
  filed : Filed s.shared
  nodup : s.shared.confirmed.Nodup
  sound : ∀ p ∈ s.calls, p.Sound s.shared.inserted
  count : ∀ token, s.shared.execs.countP (Execution.onToken token)
    + total (Party.running token) s.calls = s.shared.confirmed.count token
  allowed : ∀ e ∈ s.shared.execs, e.Allowed s

variable {cs cs' : Conf Shared Party} {i : Nat}

theorem Ledger.execs_le (h : Ledger cs) (token : List Char) :
    cs.shared.execs.countP (Execution.onToken token) ≤ cs.shared.confirmed.count token := by
  have hcount := h.count token
  omega

theorem Ledger.guarded (h : Ledger cs) : Guarded cs where
  allowed := h.allowed
  once := fun token => (h.execs_le token).trans (List.nodup_iff_count_le_one.1 h.nodup token)
  latched := fun _ ht => Turn.Ok.latched (h.sound _ ht)

theorem Confirm.Sound.mono {c : Confirm} {pc : ConfirmPc} {inserted inserted' : List Row}
    (h : c.Sound inserted pc) (hsub : ∀ r ∈ inserted, r ∈ inserted') : c.Sound inserted' pc := by
  cases pc with
  | read => trivial
  | close row readAt => exact { h with mem := hsub _ h.mem }
  | run row readAt => exact ⟨h.1, { h.2 with mem := hsub _ h.2.mem }⟩
  | ended => trivial

theorem Party.Sound.mono {p : Party} {inserted inserted' : List Row} (h : p.Sound inserted)
    (hsub : ∀ r ∈ inserted, r ∈ inserted') : p.Sound inserted' := by
  cases p with
  | turn t => exact h
  | confirm c => exact Confirm.Sound.mono h hsub

theorem Execution.Allowed.mono {e : Execution} (h : e.Allowed cs)
    (hcalls : ∀ user token cancel, Party.confirm ⟨user, token, cancel, .ended⟩ ∈ cs.calls →
      Party.confirm ⟨user, token, cancel, .ended⟩ ∈ cs'.calls)
    (hsub : ∀ r ∈ cs.shared.inserted, r ∈ cs'.shared.inserted) : e.Allowed cs' := by
  cases e with
  | inTurn => exact h
  | onClick user token tool args readAt =>
    obtain ⟨hmem, createdAt, hrow, hvalid⟩ := h
    exact ⟨hcalls _ _ _ hmem, createdAt, hsub _ hrow, hvalid⟩

theorem mem_set_of_ne {α : Type} {l : List α} {x y : α} (hx : x ∈ l) (h : l[i]? ≠ some x) : x ∈ l.set i y := by
  obtain ⟨j, hj⟩ := List.mem_iff_getElem?.1 hx
  refine List.mem_iff_getElem?.2 ⟨j, ?_⟩
  have hij : i ≠ j := fun hij => h (hij ▸ hj)
  rw [List.getElem?_set_ne hij]
  exact hj

theorem ledger_enter (h : Ledger cs) (q : Request) : Ledger { cs with calls := cs.calls ++ [q.first] } := by
  refine ⟨h.filed, h.nodup, forall_append h.sound ?_, ?_, ?_⟩
  · cases q with
    | turn user routing =>
      exact ⟨by simp, List.Pairwise.nil, trivial⟩
    | confirm user token cancel =>
      simp only [Request.first, Party.Sound]
      split <;> trivial
  · intro token
    have hzero : Party.running token q.first = 0 := by
      cases q with
      | turn => rfl
      | confirm user t cancel =>
        simp only [Request.first]
        split <;> rfl
    rw [total_append_singleton, hzero]
    exact h.count token
  · intro e he
    exact (h.allowed e he).mono (fun _ _ _ hm => List.mem_append_left _ hm) fun _ hr => hr

theorem ledger_move (h : Ledger cs) {sh : Shared} (hp : cs.calls[i]? = some p)
    (hm : move cs.shared p m = some (sh, p')) : Ledger ⟨sh, cs.calls.set i p'⟩ := by
  have hsound := h.sound p (List.mem_of_getElem? hp)
  have hcalls : ∀ user token cancel, Party.confirm ⟨user, token, cancel, .ended⟩ ∈ cs.calls →
      Party.confirm ⟨user, token, cancel, .ended⟩ ∈ cs.calls.set i p' := by
    intro user token cancel hmem
    refine mem_set_of_ne hmem fun hover => ?_
    exact ne_ended_of_move hm user token cancel (Option.some.inj (hp.symm.trans hover))
  have hkeep (hrun : ∀ token, p'.running token = p.running token) (token : List Char) :
      total (Party.running token) (cs.calls.set i p') = total (Party.running token) cs.calls :=
    total_set_of_eq _ hp p' (hrun token)
  cases effect_of_move hm with
  | quiet hs hrun hsound' =>
    subst hs
    refine ⟨h.filed, h.nodup, forall_set h.sound (hsound' h.filed.recorded hsound), ?_, ?_⟩
    · intro token
      rw [hkeep hrun]
      exact h.count token
    · exact fun e he => (h.allowed e he).mono hcalls fun _ hr => hr
  | deleted q hs hrun hsound' =>
    subst hs
    refine ⟨filed_filter h.filed q, h.nodup, forall_set h.sound (hsound' hsound), ?_, ?_⟩
    · intro token
      rw [hkeep hrun]
      exact h.count token
    · exact fun e he => (h.allowed e he).mono hcalls fun _ hr => hr
  | inserted row hs hfresh hpending hrun hsound' =>
    subst hs
    have hsub : ∀ r ∈ cs.shared.inserted, r ∈ cs.shared.inserted ++ [row] :=
      fun _ hr => List.mem_append_left _ hr
    refine ⟨filed_insert h.filed hfresh hpending, h.nodup,
      forall_set (fun q hq => (h.sound q hq).mono hsub) ((hsound' hsound).mono hsub), ?_, ?_⟩
    · intro token
      rw [hkeep hrun]
      exact h.count token
    · exact fun e he => (h.allowed e he).mono hcalls hsub
  | ranInTurn user tool args hs hplain hrun hsound' =>
    subst hs
    refine ⟨⟨h.filed.recorded, h.filed.issued, h.filed.settled⟩, h.nodup,
      forall_set h.sound (hsound' hsound), ?_, ?_⟩
    · intro token
      rw [hkeep hrun]
      simpa [Execution.onToken] using h.count token
    · intro e he
      rcases List.mem_append.1 he with he | he
      · exact (h.allowed e he).mono hcalls fun _ hr => hr
      · rw [List.mem_singleton.1 he]
        exact hplain hsound
  | cancelled c row readAt ok hp' hpc hcancel _ hs hp'' =>
    subst hs hp' hp''
    have hfiled : Filed { cs.shared with
        rows := if ok then close c.user c.token .cancelled cs.shared.rows else cs.shared.rows
        cancelled := cs.shared.cancelled ++ [c.token] } := by
      cases ok
      · exact ⟨h.filed.recorded, h.filed.issued, h.filed.settled⟩
      · exact ⟨recorded_close h.filed.recorded _ _ _, h.filed.issued, fun token ht =>
          settled_close (h.filed.settled token ht) c.user (by decide)⟩
    refine ⟨hfiled, h.nodup, forall_set h.sound trivial, ?_, ?_⟩
    · intro token
      rw [hkeep fun token => by simp [Party.running, hpc]]
      exact h.count token
    · exact fun e he => (h.allowed e he).mono hcalls fun _ hr => hr
  | confirmed c row readAt hp' hpc hcancel hcloses hs hp'' =>
    subst hs hp' hp''
    have hrow : HoldsRow cs.shared.inserted c.user c.token row readAt := by
      have hc : c.Sound cs.shared.inserted c.pc := hsound
      rwa [hpc] at hc
    have hnew : c.token ∉ cs.shared.confirmed := by
      intro hmem
      obtain ⟨r, hr, htoken, hpending⟩ := exists_of_closes hcloses
      exact (h.filed.settled _ hmem).2 r hr htoken hpending
    refine ⟨⟨recorded_close h.filed.recorded _ _ _, h.filed.issued, ?_⟩, ?_,
      forall_set h.sound ⟨hcancel, hrow⟩, ?_, ?_⟩
    · intro token ht
      rcases List.mem_append.1 ht with ht | ht
      · exact settled_close (h.filed.settled token ht) c.user (by decide)
      · rw [List.mem_singleton.1 ht]
        exact settled_of_close h.filed hrow (by decide)
    · rw [List.nodup_append]
      refine ⟨h.nodup, List.nodup_singleton _, ?_⟩
      rintro a ha b hb rfl
      exact hnew (List.mem_singleton.1 hb ▸ ha)
    · intro token
      have hset := total_set (Party.running token) hp
        (.confirm { c with pc := .run row readAt })
      have hbefore : Party.running token (.confirm c) = 0 := by simp [Party.running, hpc]
      have hafter : Party.running token (.confirm { c with pc := .run row readAt })
          = if c.token = token then 1 else 0 := rfl
      have hcount := h.count token
      rw [List.count_append, List.count_singleton]
      rw [hbefore, hafter] at hset
      simp only [beq_iff_eq]
      omega
    · exact fun e he => (h.allowed e he).mono hcalls fun _ hr => hr
  | ranOnClick c row readAt hp' hpc hs hp'' =>
    subst hs hp' hp''
    obtain ⟨hcancel, hrow⟩ :
        c.cancel = false ∧ HoldsRow cs.shared.inserted c.user c.token row readAt := by
      have hc : c.Sound cs.shared.inserted c.pc := hsound
      rwa [hpc] at hc
    refine ⟨⟨h.filed.recorded, h.filed.issued, h.filed.settled⟩, h.nodup,
      forall_set h.sound trivial, ?_, ?_⟩
    · intro token
      have hset := total_set (Party.running token) hp (.confirm { c with pc := .ended })
      have hbefore : Party.running token (.confirm c) = if c.token = token then 1 else 0 := by
        simp [Party.running, hpc]
      have hafter : Party.running token (.confirm { c with pc := .ended }) = 0 := rfl
      have hcount := h.count token
      rw [hbefore, hafter] at hset
      rw [List.countP_append, List.countP_singleton]
      simp only [Execution.onToken, decide_eq_true_eq]
      omega
    · intro e he
      rcases List.mem_append.1 he with he | he
      · exact (h.allowed e he).mono hcalls fun _ hr => hr
      · rw [List.mem_singleton.1 he]
        refine ⟨?_, row.createdAt, ?_, hrow.valid⟩
        · have hlt : i < cs.calls.length := (List.getElem?_eq_some_iff.1 hp).1
          rw [← hcancel]
          exact List.mem_set hlt _
        · rw [← hrow.token, ← hrow.username, ← hrow.pending]
          exact hrow.mem

theorem ledger_step (h : Ledger cs) {a : Act Request Move Empty}
    (hs : support.step cs a = some cs') : Ledger cs' := by
  cases a with
  | enter q =>
    cases hs
    exact ledger_enter h q
  | move i m =>
    obtain ⟨p, sh, p', hp, hm, rfl⟩ := Machine.step_move hs
    exact ledger_move h hp hm
  | env e => exact e.elim

theorem ledger_init : Ledger (Conf.init Shared.init) := by
  refine ⟨⟨?_, List.nodup_nil, ?_⟩, List.nodup_nil, ?_, fun _ => rfl, ?_⟩
  · intro r hr
    cases hr
  · intro token ht
    cases ht
  · intro p hp
    cases hp
  · intro e he
    cases he

/-- In every interleaving of turns and clicks: guarded tools run on clicks alone, each
token once, and what a turn does is latched. -/
theorem guarded_always (acts : List (Act Request Move Empty)) :
    Always support.step Guarded (Conf.init Shared.init) acts := by
  intro pre _ cs hcs
  exact (exec_kept (fun _ _ _ h hs => ledger_step h hs) ledger_init hcs).guarded

/-! ## Cancels -/

/-- A cancelled action is settled for good. -/
structure Withdrawn (cs : Conf Shared Party) : Prop extends Ledger cs where
  withdrawn : ∀ token ∈ cs.shared.cancelled,
    token ∉ cs.shared.confirmed ∧ cs.shared.Settled token

theorem Withdrawn.kept (h : Withdrawn cs) : Kept cs where
  toGuarded := h.guarded
  cancelled := by
    intro token ht
    have hzero : cs.shared.confirmed.count token = 0 :=
      List.count_eq_zero_of_not_mem (h.withdrawn token ht).1
    have hle := h.execs_le token
    omega

theorem withdrawn_move (h : Withdrawn cs) {sh : Shared} {m : Move}
    (hp : cs.calls[i]? = some p) (hm : move cs.shared p m = some (sh, p'))
    (hG : cancelsInTime cs (.move i m)) : Withdrawn ⟨sh, cs.calls.set i p'⟩ := by
  refine ⟨ledger_move h.toLedger hp hm, ?_⟩
  have hsound := h.sound p (List.mem_of_getElem? hp)
  cases effect_of_move hm with
  | quiet hs _ _ =>
    subst hs
    exact h.withdrawn
  | deleted q hs _ _ =>
    subst hs
    exact fun token ht => ⟨(h.withdrawn token ht).1, settled_filter (h.withdrawn token ht).2 q⟩
  | inserted row hs hfresh _ _ _ =>
    subst hs
    exact fun token ht =>
      ⟨(h.withdrawn token ht).1, settled_insert (h.withdrawn token ht).2 hfresh⟩
  | ranInTurn user tool args hs _ _ _ =>
    subst hs
    exact h.withdrawn
  | cancelled c row readAt ok hp' hpc hcancel hquery hs hp'' =>
    subst hs hp' hp'' hquery
    have hrow : HoldsRow cs.shared.inserted c.user c.token row readAt := by
      have hc : c.Sound cs.shared.inserted c.pc := hsound
      rwa [hpc] at hc
    -- the cancel's own UPDATE comes first
    have hcancels : (Party.confirm c).cancels = some c.token := by
      simp [Party.cancels, hpc, hcancel]
    obtain ⟨rfl, hnew⟩ := hG _ hp _ hcancels
    intro token ht
    rcases List.mem_append.1 ht with ht | ht
    · exact ⟨(h.withdrawn token ht).1, settled_close (h.withdrawn token ht).2 c.user (by decide)⟩
    · rw [List.mem_singleton.1 ht]
      exact ⟨hnew, settled_of_close h.filed hrow (by decide)⟩
  | confirmed c row readAt hp' hpc hcancel hcloses hs hp'' =>
    subst hs hp' hp''
    intro token ht
    obtain ⟨hnot, hsettled⟩ := h.withdrawn token ht
    refine ⟨?_, settled_close hsettled c.user (by decide)⟩
    intro hmem
    rcases List.mem_append.1 hmem with hmem | hmem
    · exact hnot hmem
    · -- a confirmation would have found it pending
      obtain ⟨r, hr, htoken, hpending⟩ := exists_of_closes hcloses
      exact hsettled.2 r hr (htoken.trans (List.mem_singleton.1 hmem).symm) hpending
  | ranOnClick c row readAt hp' hpc hs hp'' =>
    subst hs
    exact h.withdrawn

theorem withdrawn_step (h : Withdrawn cs) {a : Act Request Move Empty} (hG : cancelsInTime cs a)
    (hs : support.step cs a = some cs') : Withdrawn cs' := by
  cases a with
  | enter q =>
    cases hs
    exact ⟨ledger_enter h.toLedger q, h.withdrawn⟩
  | move i m =>
    obtain ⟨p, sh, p', hp, hm, rfl⟩ := Machine.step_move hs
    exact withdrawn_move h hp hm hG
  | env e => exact e.elim

/-- For every sequence of model answers and every interleaving of turns and clicks in
which each cancel closes its row before a confirmation does: in every state a guarded
tool has run on a valid click of its account alone, once per token and never after a
cancel that was answered ok, and no turn has used a sensitive tool after a route. -/
theorem clicks_kept {acts : List (Act Request Move Empty)}
    (hG : Meets support.step cancelsInTime (Conf.init Shared.init) acts) :
    Always support.step Kept (Conf.init Shared.init) acts :=
  always_of_meets (fun _ h => h.kept) (fun _ _ _ h hG hs => withdrawn_step h hG hs)
    ⟨ledger_init, fun token ht => by cases ht⟩ hG

/-- A turn of "ada" that proposes to stop the model, up to its token. -/
def proposal : List (Act Request Move Empty) :=
  [.enter (.turn "ada".toList []),
    .move 0 (.reply (.answered [⟨"stop_model".toList, "{}".toList⟩])), .move 0 .look,
    .move 0 (.timed 100 true), .move 0 (.query true), .move 0 (.inserted "tok".toList true)]

/-- The user cancels it, and nothing else. -/
def cancelled : List (Act Request Move Empty) :=
  proposal ++ [.enter (.confirm "ada".toList "tok".toList true), .move 1 (.timed 200 true),
    .move 1 (.query true)]

/-- Two clicks at once: both have read the row before either closes it. -/
def bothClicks : List (Act Request Move Empty) :=
  proposal ++ [.enter (.confirm "ada".toList "tok".toList true),
    .enter (.confirm "ada".toList "tok".toList false), .move 1 (.timed 200 true),
    .move 2 (.timed 200 true), .move 2 (.query true), .move 1 (.query true), .move 2 .ran]

theorem clicks_kept_cancelled : Meets support.step cancelsInTime (Conf.init Shared.init) cancelled ∧
      Always support.step Kept (Conf.init Shared.init) cancelled := by
  have hG : Meets support.step cancelsInTime (Conf.init Shared.init) cancelled := by
    decide
  exact ⟨hG, clicks_kept hG⟩

theorem cancelled_action_runs : ∃ cs, exec support.step (Conf.init Shared.init) bothClicks = some cs ∧
      cs.shared.cancelled = ["tok".toList] ∧
      cs.shared.execs = [.onClick "ada".toList "tok".toList "stop_model".toList "{}".toList 200] ∧
      ¬ Always support.step Kept (Conf.init Shared.init) bothClicks := by
  refine ⟨_, rfl, rfl, rfl, ?_⟩
  intro h
  have hkept := (h _ (List.prefix_refl _) _ rfl).cancelled "tok".toList (by decide)
  revert hkept
  decide

end Portal.Support
