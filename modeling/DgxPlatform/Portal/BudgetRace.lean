import DgxPlatform.Lib.Calls
import DgxPlatform.Portal.Budget
import Mathlib.Tactic.Ring

/-! # Approvals and rejections that run together

`admin_budget_approve` and `admin_budget_reject` as the source runs them: a
sequence of awaits, between which any other call may move. Nothing ties the
status check, the read of the cap, its write and the final mark together.

The cap follows the approved requests exactly as long as no call writes on what
another call changed: every cap write finds the cap it read, the grant it stacks
on carries that cap, its request is not credited by anybody else, and no
rejection overwrites an approval. `approve_alone` ties the steps to the atomic
handler: a call that nobody interrupts is `Ledger.approve`.
-/

namespace Portal.Budget

open Run Calls

/-- How far an approval is, with what it has read. -/
inductive ApprovePc where
  | readStatus
  | readCap (amount : ℚ)
  | readClock (amount : ℚ) (seen : Option ℚ)
  | readGrant (amount : ℚ) (seen : Option ℚ) (now : Time)
  | writeCap (seen : Option ℚ) (p : Plan)
  | writeGrant (p : Plan)
  | mark (p : Plan)
  | answered (refusal : Option Refusal)
deriving DecidableEq, Repr

inductive RejectPc where
  | readRow
  | write
  | answered (refusal : Option Refusal)
deriving DecidableEq, Repr

/-- A call on one request. -/
inductive Call where
  | approve (id : Nat) (form : ApproveForm) (pc : ApprovePc)
  | reject (id : Nat) (pc : RejectPc)
deriving DecidableEq, Repr

/-- What a call is begun with. -/
inductive Begin where
  | approve (id : Nat) (form : ApproveForm)
  | reject (id : Nat)
deriving DecidableEq, Repr

def Begin.first : Begin → Call
  | .approve id form => .approve id form .readStatus
  | .reject id => .reject id .readRow

/-- The next await of an approval. `ok` is whether LiteLLM answers: an unreadable
envelope reads as no cap, a refused update ends the call. -/
def approveMove (s : Timed) (id : Nat) (form : ApproveForm) (ok : Bool) :
    ApprovePc → Option (Timed × ApprovePc)
  | .readStatus =>
      match requirePending (s.1.requests.find? id) with
      | .error e => some (s, .answered (some e))
      | .ok _ =>
          match readAmount form.amount with
          | .error e => some (s, .answered (some e))
          | .ok amount => some (s, .readCap amount)
  -- `account_info` answers an empty account when LiteLLM does not
  | .readCap amount => some (s, .readClock amount (if ok then s.1.maxBudget else none))
  | .readClock amount seen => some (s, .readGrant amount seen s.2)
  -- the deadline is read from the form after the query
  | .readGrant amount seen now =>
      match readDeadline now form.grantDays with
      | .error e => some (s, .answered (some e))
      | .ok exp =>
          some (s, .writeCap seen (plan (currentCap seen) (activeGrant s.1.grants now) amount exp))
  | .writeCap _ p =>
      if ok then some ((s.1.updateEnvelope p.newBudget, s.2), .writeGrant p)
      else some (s, .answered
        (some ⟨"Erreur lors de la mise à jour du budget sur LiteLLM.", 503⟩))
  | .writeGrant p => some ((s.1.writeGrant p, s.2), .mark p)
  -- no look at the status: another call may have marked it
  | .mark p => some ((s.1.markApproved id p, s.2), .answered none)
  | .answered _ => none

/-- The next await of a rejection: it looks at the row, not at its status. -/
def rejectMove (s : Timed) (id : Nat) : RejectPc → Option (Timed × RejectPc)
  | .readRow =>
      match s.1.requests.find? id with
      | none => some (s, .answered (some ⟨"Demande introuvable.", 404⟩))
      | some _ => some (s, .write)
  | .write => some ((s.1.markRejected id, s.2), .answered none)
  | .answered _ => none

def callMove (s : Timed) : Call → Bool → Option (Timed × Call)
  | .approve id form pc, ok => (approveMove s id form ok pc).map fun r => (r.1, .approve id form r.2)
  | .reject id pc, _ => (rejectMove s id pc).map fun r => (r.1, .reject id r.2)

/-- The race: the calls, and a clock that moves on. -/
def race : Machine Timed Begin Call Bool Time where
  first := Begin.first
  move := callMove
  env := fun s t => if s.2 ≤ t then some (s.1, t) else none

def Call.isAnswered : Call → Bool
  | .approve _ _ (.answered _) => true
  | .reject _ (.answered _) => true
  | _ => false

/-- The amount a request is credited for. -/
def Request.recorded (r : Request) : ℚ :=
  if r.status = .approved then r.grantedAmount.getD 0 else 0

/-- Once every call has answered, the cap is the initial one plus the amounts of
the approved requests, each counted once. Unlimited stays unlimited. -/
def CreditedOnce (s₀ : Ledger) (start : Time) (acts : List (Act Begin Bool Time)) : Prop :=
  ∀ s, exec race.step (Conf.init (s₀, start)) acts = some s →
    (∀ c ∈ s.calls, c.isAnswered = true) →
    s.shared.1.maxBudget = s₀.maxBudget.map (· + s.shared.1.requests.sum Request.recorded)

/-! ## The condition -/

/-- The amount a call has written into the cap and not yet marked. -/
def Call.credited : Call → ℚ
  | .approve _ _ (.writeGrant p) => p.amount
  | .approve _ _ (.mark p) => p.amount
  | _ => 0

/-- Whether a call is between its cap write and its mark, on request `r`. -/
def Call.credits (r : Nat) : Call → Nat
  | .approve id _ (.writeGrant _) => if id = r then 1 else 0
  | .approve id _ (.mark _) => if id = r then 1 else 0
  | _ => 0

def Ledger.isApproved (s : Ledger) (r : Nat) : Bool :=
  (s.requests.find? r).any fun q => q.status = .approved

/-- A cap write finds a cap that is set and is the one its call read, the grant a
temporary approval stacks on carries that cap, and its request is credited
neither in the table nor by a call in flight; a rejection does not find its
request approved. -/
def notOvertaken (s : Conf Timed Call) : Act Begin Bool Time → Prop
  | .move i ok =>
      match s.calls[i]? with
      | some (.approve id _ (.writeCap seen p)) =>
          ok = true → s.shared.1.maxBudget ≠ none ∧ s.shared.1.maxBudget = seen ∧
            (p.expiresAt.isSome → ∀ g ∈ p.grant, some g.currentBudget = seen) ∧
            s.shared.1.isApproved id = false ∧ ∀ c ∈ s.calls, c.credits id = 0
      | some (.reject id .write) => s.shared.1.isApproved id = false
      | _ => True
  | _ => True

instance (s : Conf Timed Call) (a : Act Begin Bool Time) : Decidable (notOvertaken s a) := by
  unfold notOvertaken
  split
  · split <;> infer_instance
  · infer_instance

/-! ## The invariant -/

/-- What a call relies on: its request is in the table, and what it is about to
write was planned from what it read. -/
def Call.Known (requests : Table Request Request.id) : Call → Prop
  | .approve id _ pc =>
      match pc with
      | .readStatus => True
      | .answered _ => True
      | .writeCap seen p =>
          (requests.find? id).isSome ∧
            p = plan (currentCap seen) p.grant p.amount p.expiresAt
      | _ => (requests.find? id).isSome
  | .reject _ _ => True

/-- The request's row counts as a credit once it is approved. -/
def Ledger.approvedCount (s : Ledger) (r : Nat) : Nat := if s.isApproved r then 1 else 0

/-- The cap is the initial one plus what is recorded and what is in flight, and no
request is credited twice. -/
structure Balanced (cap : Option ℚ) (s : Conf Timed Call) : Prop where
  balance : s.shared.1.maxBudget =
    cap.map (· + (s.shared.1.requests.sum Request.recorded + total Call.credited s.calls))
  once : ∀ r, s.shared.1.approvedCount r + total (Call.credits r) s.calls ≤ 1
  known : ∀ c ∈ s.calls, c.Known s.shared.1.requests

variable {cap : Option ℚ} {s : Conf Timed Call} {i : Nat} {c c' : Call}

theorem recorded_init {requests : Table Request Request.id}
    (h : ∀ r ∈ requests.rows, r.status = .pending) : requests.sum Request.recorded = 0 := by
  unfold Table.sum
  refine List.sum_eq_zero ?_
  intro x hx
  rcases List.mem_map.1 hx with ⟨r, hr, rfl⟩
  simp [Request.recorded, h r hr]

theorem balanced_init {s₀ : Ledger} {start : Time} (h : ∀ r ∈ s₀.requests.rows, r.status = .pending) :
    Balanced s₀.maxBudget (Conf.init (s₀, start)) where
  balance := by simp [Conf.init, recorded_init h]
  once r := by
    have hnot : s₀.isApproved r = false := by
      unfold Ledger.isApproved
      cases hr : s₀.requests.find? r with
      | none => rfl
      | some q => simp [h q (Table.mem_of_find? hr)]
    simp [Conf.init, Ledger.approvedCount, hnot]
  known := by simp [Conf.init]

theorem balanced_quiet (hs : Balanced cap s) (hi : s.calls[i]? = some c)
    (hcred : c'.credited = c.credited) (honce : ∀ r, c'.credits r = c.credits r)
    (hknown : c'.Known s.shared.1.requests) :
    Balanced cap ⟨s.shared, s.calls.set i c'⟩ where
  balance := by rw [total_set_of_eq _ hi _ hcred]; exact hs.balance
  once r := by rw [total_set_of_eq _ hi _ (honce r)]; exact hs.once r
  known := forall_set hs.known hknown

theorem balanced_enter (hs : Balanced cap s) (b : Begin) : Balanced cap ⟨s.shared, s.calls ++ [b.first]⟩ where
  balance := by cases b <;> simpa [Begin.first, Call.credited] using hs.balance
  once r := by cases b <;> simpa [Begin.first, Call.credits] using hs.once r
  known := by
    refine forall_append hs.known ?_
    cases b <;> trivial

theorem approvedCount_congr {s s' : Ledger} (h : s'.requests = s.requests) (r : Nat) :
    s'.approvedCount r = s.approvedCount r := by
  unfold Ledger.approvedCount Ledger.isApproved
  rw [h]

variable {id : Nat} {form : ApproveForm}

theorem balanced_writeCap {seen : Option ℚ} {p : Plan}
    (hs : Balanced cap s) (hi : s.calls[i]? = some (.approve id form (.writeCap seen p)))
    (hne : s.shared.1.maxBudget ≠ none) (hseen : s.shared.1.maxBudget = seen)
    (hgrant : p.expiresAt.isSome → ∀ g ∈ p.grant, some g.currentBudget = seen)
    (hfree : s.shared.1.isApproved id = false) (hothers : ∀ c ∈ s.calls, c.credits id = 0) :
    Balanced cap ⟨(s.shared.1.updateEnvelope p.newBudget, s.shared.2),
      s.calls.set i (.approve id form (.writeGrant p))⟩ := by
  rcases hs.known _ (List.mem_of_getElem? hi) with ⟨hreq, hplan⟩
  have hbal := hs.balance
  rcases Option.ne_none_iff_exists'.1 hne with ⟨m, hm⟩
  -- the cap the plan was made from is still there
  have hnew : p.newBudget = m + p.amount := by
    rw [← hseen, hm, currentCap_some] at hplan
    rw [hplan]
    refine (plan_newBudget fun hexp g hg => ?_).trans (by simp)
    have hg' := hgrant hexp g (by simpa using hg)
    rw [← hseen, hm] at hg'
    exact Option.some.inj hg'
  refine ⟨?_, fun r => ?_, forall_set hs.known hreq⟩
  · -- the cap and what is in flight grow by the same amount
    have htot := total_set Call.credited hi (.approve id form (.writeGrant p))
    simp only [Call.credited, add_zero] at htot
    rw [hm] at hbal
    rcases Option.map_eq_some_iff.1 hbal.symm with ⟨x, rfl, hx⟩
    simp only [updateEnvelope_maxBudget, updateEnvelope_requests, Option.map_some, htot]
    rw [hnew, ← hx]
    congr 1
    ring
  · -- nobody else credits `id`, so this call is its only credit
    have htot := total_set (Call.credits r) hi (.approve id form (.writeGrant p))
    simp only [Call.credits, add_zero] at htot
    have hr := hs.once r
    rw [htot, approvedCount_congr (updateEnvelope_requests _ _)]
    by_cases hidr : id = r
    · subst hidr
      simp [total_eq_zero _ hothers, Ledger.approvedCount, hfree]
    · simpa [hidr] using hr

theorem balanced_writeGrant {p : Plan} (hs : Balanced cap s)
    (hi : s.calls[i]? = some (.approve id form (.writeGrant p))) :
    Balanced cap ⟨(s.shared.1.writeGrant p, s.shared.2),
      s.calls.set i (.approve id form (.mark p))⟩ where
  balance := by
    rw [total_set_of_eq _ hi (.approve id form (.mark p)) rfl]
    simpa using hs.balance
  once r := by
    rw [total_set_of_eq _ hi (.approve id form (.mark p)) rfl]
    rw [approvedCount_congr (writeGrant_requests _ _)]
    exact hs.once r
  known := by
    refine forall_set (by simpa using hs.known) ?_
    simpa [Call.Known] using hs.known _ (List.mem_of_getElem? hi)

theorem known_update {requests : Table Request Request.id} {f : Request → Request}
    (hf : ∀ r, (f r).id = r.id) (h : c.Known requests) : c.Known (requests.update id f hf) := by
  cases c with
  | approve r _ pc =>
    have hsome : (requests.find? r).isSome → ((requests.update id f hf).find? r).isSome := by simp
    cases pc with
    | readStatus => trivial
    | answered _ => trivial
    | writeCap seen p => exact ⟨hsome h.1, h.2⟩
    | readCap _ | readClock _ _ | readGrant _ _ _ | writeGrant _ | mark _ => exact hsome h
  | reject _ _ => trivial

theorem isApproved_markApproved {s : Ledger} {id r : Nat} {p : Plan} (h : (s.requests.find? id).isSome) :
    (s.markApproved id p).isApproved r = (decide (r = id) || s.isApproved r) := by
  rcases Option.isSome_iff_exists.1 h with ⟨q, hq⟩
  unfold Ledger.isApproved
  rw [markApproved_requests, Table.find?_update]
  by_cases hr : r = id
  · simp [hr, hq, Request.approve]
  · simp [hr]

theorem balanced_mark {p : Plan} (hs : Balanced cap s) (hi : s.calls[i]? = some (.approve id form (.mark p))) :
    Balanced cap ⟨(s.shared.1.markApproved id p, s.shared.2),
      s.calls.set i (.approve id form (.answered none))⟩ := by
  have hreq : (s.shared.1.requests.find? id).isSome := hs.known _ (List.mem_of_getElem? hi)
  rcases Option.isSome_iff_exists.1 hreq with ⟨q, hq⟩
  -- the call itself is a credit of `id`, so the row is not approved yet
  have hfree : s.shared.1.isApproved id = false := by
    have honce := hs.once id
    have htot := total_set (Call.credits id) hi (.approve id form (.answered none))
    simp only [Call.credits, if_true, add_zero] at htot
    unfold Ledger.approvedCount at honce
    by_contra happ
    rw [Bool.not_eq_false] at happ
    rw [if_pos happ] at honce
    omega
  have hrow : q.recorded = 0 := by
    have hst : ¬ q.status = .approved := by simpa [Ledger.isApproved, hq] using hfree
    simp [Request.recorded, hst]
  refine ⟨?_, fun r => ?_, ?_⟩
  · -- what leaves the flight is what the row records
    have htot := total_set Call.credited hi (.approve id form (.answered none))
    have hsum : (s.shared.1.markApproved id p).requests.sum Request.recorded + q.recorded =
        s.shared.1.requests.sum Request.recorded + p.amount :=
          Table.sum_update (Request.id_approve p.amount) _ hq
    simp only [Call.credited, add_zero] at htot
    rw [hrow, add_zero] at hsum
    have hbal := hs.balance
    rw [← htot] at hbal
    simp only [markApproved_maxBudget, hsum, hbal]
    congr 1
    funext x
    ring
  · -- the call's credit becomes the row's
    have htot := total_set (Call.credits r) hi (.approve id form (.answered none))
    have honce := hs.once r
    simp only [Call.credits, add_zero] at htot
    unfold Ledger.approvedCount at honce ⊢
    rw [isApproved_markApproved hreq]
    by_cases hr : r = id
    · subst hr
      simp only [if_true] at htot
      simp [hfree] at honce ⊢
      omega
    · have hidr : ¬ id = r := fun e => hr e.symm
      simp only [hidr, if_false, add_zero] at htot
      simpa [hr, htot] using honce
  · exact forall_set (fun c hc => known_update (Request.id_approve _) (hs.known c hc)) trivial

/-- A rejection that does not find its request approved changes no credit. -/
theorem balanced_reject (hs : Balanced cap s)
    (hi : s.calls[i]? = some (.reject id .write)) (hfree : s.shared.1.isApproved id = false) :
    Balanced cap ⟨(s.shared.1.markRejected id, s.shared.2),
      s.calls.set i (.reject id (.answered none))⟩ := by
  have happ : ∀ r, (s.shared.1.markRejected id).isApproved r = s.shared.1.isApproved r := by
    intro r
    unfold Ledger.isApproved at *
    rw [markRejected_requests, Table.find?_update]
    by_cases hr : r = id
    · subst hr
      rw [hfree]
      cases s.shared.1.requests.find? r <;> simp [Request.reject]
    · simp [hr]
  refine ⟨?_, fun r => ?_, ?_⟩
  · rw [total_set_of_eq _ hi (.reject id (.answered none)) rfl]
    have hsum : (s.shared.1.markRejected id).requests.sum Request.recorded =
        s.shared.1.requests.sum Request.recorded := by
      refine Table.sum_update_of_eq Request.id_reject _ fun q hq => ?_
      have hst : ¬ q.status = .approved := by simpa [Ledger.isApproved, hq] using hfree
      simp [Request.recorded, Request.reject, hst]
    simp only [markRejected_maxBudget, hsum]
    exact hs.balance
  · rw [total_set_of_eq _ hi (.reject id (.answered none)) rfl]
    simp only [Ledger.approvedCount, happ]
    exact hs.once r
  · exact forall_set (fun c hc => known_update Request.id_reject (hs.known c hc)) trivial

theorem balanced_step {s s' : Conf Timed Call} {a : Act Begin Bool Time} (hs : Balanced cap s)
    (hG : notOvertaken s a) (h : race.step s a = some s') : Balanced cap s' := by
  cases a with
  | enter b =>
    cases h
    exact balanced_enter hs b
  | env t =>
    rcases Machine.step_env h with ⟨sh, hsh, rfl⟩
    simp only [race] at hsh
    split at hsh
    · cases hsh
      exact ⟨hs.balance, hs.once, hs.known⟩
    · cases hsh
  | move i ok =>
    rcases Machine.step_move h with ⟨c, sh, c', hi, hm, rfl⟩
    have hknown := hs.known c (List.mem_of_getElem? hi)
    cases c with
    | reject id pc =>
      rcases Option.map_eq_some_iff.1 hm with ⟨⟨s₁, pc'⟩, hr, heq⟩
      cases heq
      cases pc with
      | readRow =>
        simp only [rejectMove] at hr
        split at hr <;> cases hr
        all_goals exact balanced_quiet hs hi rfl (fun _ => rfl) trivial
      | write =>
        cases hr
        simp only [notOvertaken, hi] at hG
        exact balanced_reject hs hi hG
      | answered e => cases hr
    | approve id form pc =>
      rcases Option.map_eq_some_iff.1 hm with ⟨⟨s₁, pc'⟩, hr, heq⟩
      cases heq
      cases pc with
      | readStatus =>
        simp only [approveMove] at hr
        split at hr
        · cases hr
          exact balanced_quiet hs hi rfl (fun _ => rfl) trivial
        · next hp =>
            -- a request that is pending is in the table, and no call deletes it
            have hreq : (s.shared.1.requests.find? id).isSome := by
              cases hq : s.shared.1.requests.find? id with
              | none => rw [hq] at hp; cases hp
              | some q => rfl
            split at hr
            · cases hr
              exact balanced_quiet hs hi rfl (fun _ => rfl) trivial
            · cases hr
              exact balanced_quiet hs hi rfl (fun _ => rfl) hreq
      | readCap amount =>
        cases hr
        exact balanced_quiet hs hi rfl (fun _ => rfl) hknown
      | readClock amount seen =>
        cases hr
        exact balanced_quiet hs hi rfl (fun _ => rfl) hknown
      | readGrant amount seen now =>
        simp only [approveMove] at hr
        split at hr
        · cases hr
          exact balanced_quiet hs hi rfl (fun _ => rfl) trivial
        · cases hr
          exact balanced_quiet hs hi rfl (fun _ => rfl) ⟨hknown, by simp⟩
      | writeCap seen p =>
        simp only [notOvertaken, hi] at hG
        simp only [approveMove] at hr
        split at hr
        · next hok =>
            cases hr
            rcases hG hok with ⟨hne, hseen, hgrant, hfree, hothers⟩
            exact balanced_writeCap hs hi hne hseen hgrant hfree hothers
        · cases hr
          exact balanced_quiet hs hi rfl (fun _ => rfl) trivial
      | writeGrant p =>
        cases hr
        exact balanced_writeGrant hs hi
      | mark p =>
        cases hr
        exact balanced_mark hs hi
      | answered e => cases hr

theorem credited_of_answered {c : Call} (h : c.isAnswered = true) : c.credited = 0 := by
  cases c with
  | approve _ _ pc => cases pc <;> simp_all [Call.isAnswered, Call.credited]
  | reject _ _ => rfl

/-- An account with one pending request and a cap of 1000 tokens. -/
def oneRequest : Ledger := .init (some 1000) ⟨[⟨1, .pending, none⟩], by decide⟩

/-- A double click on "approve": both calls find the request pending, and the
second reads the cap the first has raised. -/
def doubleClick : List (Act Begin Bool Time) :=
  [.enter (.approve 1 ⟨some 500, none⟩), .enter (.approve 1 ⟨some 500, none⟩),
    .move 0 true, .move 1 true, .move 0 true, .move 0 true, .move 0 true, .move 0 true,
    .move 1 true, .move 1 true, .move 1 true, .move 1 true,
    .move 0 true, .move 0 true, .move 1 true, .move 1 true]

/-- Run alone, with LiteLLM answering, the seven awaits of an accepted approval
are the atomic handler. -/
theorem approve_alone {s s' : Ledger} {now : Time} (h : s.approve now id form = .ok s') :
    exec race.step (Conf.init (s, now))
      (.enter (.approve id form) :: List.replicate 7 (.move 0 true)) =
      some ⟨(s', now), [.approve id form (.answered none)]⟩ := by
  rcases approve_reads h with ⟨amount, exp, p, hpending, hamount, hdeadline, rfl, rfl⟩
  simp [exec, Machine.step, race, Begin.first, Conf.init, callMove, approveMove, hpending, hamount,
    hdeadline, List.replicate]

end Portal.Budget
