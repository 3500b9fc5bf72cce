import DgxPlatform.Lib.Table
import DgxPlatform.Portal.Basic
import Mathlib.Data.Rat.Defs
import Mathlib.Algebra.Order.Ring.Rat
import Mathlib.Tactic.Linarith

/-! # Account budgets set by an admin

The records behind one account's budget: the LiteLLM envelope's cap, the rows of
`budget_grants`, the account's `budget_requests` and the audit log. The handlers
are cut into the pieces the source runs between two awaits, so that the same
pieces make the atomic handlers here and the interleaved calls of the race model.

* `Ledger.approve`, `Ledger.budgetSet` are `admin_budget_approve` and
  `admin_budget_set`, `Ledger.revertExpired` is the reaper's pass.

Token amounts are rationals. The ISO texts the source compares are ordered as the
instants they print.
-/

namespace Portal.Budget

/-- Above this, an amount is a typo that makes the account unlimited in effect. -/
def MAX_AMOUNT : ℚ := 1000000000000

/-- One day, in microseconds. -/
def DAY : Time := 86400 * 1000000

/-- A row of `budget_grants`. -/
structure Grant where
  id : Nat
  baseBudget : ℚ
  currentBudget : ℚ
  expiresAt : Time
deriving DecidableEq, Repr

inductive ReqStatus where
  | pending
  | approved
  | rejected
deriving DecidableEq, Repr

/-- A row of `budget_requests`. -/
structure Request where
  id : Nat
  status : ReqStatus
  grantedAmount : Option ℚ
deriving DecidableEq, Repr

/-- The audit entries of the accepted operations; an approval's deadline is
`none` when it is permanent. -/
inductive Audit where
  | budgetSet (value : ℚ)
  | budgetApprove (amount : ℚ) (expiresAt : Option Time)
deriving DecidableEq, Repr

/-- Everything the budget handlers read and write for one account. LiteLLM's
`maxBudget` is `none` for an unlimited account; the audit log is newest first. -/
structure Ledger where
  maxBudget : Option ℚ
  grants : List Grant
  nextGrant : Nat
  requests : Table Request Request.id
  audit : List Audit

/-- The ledger and the clock. -/
abbrev Timed := Ledger × Time

def Ledger.init (cap : Option ℚ) (requests : Table Request Request.id) : Ledger :=
  ⟨cap, [], 1, requests, []⟩

/-! ## The pieces of an approval -/

/-- The form of an approval: `amount` as `parse_py_float` reads it (an infinite
amount is one above `MAX_AMOUNT`, a NaN is no number), `grantDays` absent when
blank, else as `py_int` reads it. -/
structure ApproveForm where
  amount : Option ℚ
  grantDays : Option (Option Int)
deriving DecidableEq, Repr

def requirePending : Option Request → Except Refusal Unit
  | some r =>
      if r.status = .pending then .ok ()
      else .error ⟨"Demande introuvable ou déjà traitée.", 404⟩
  | none => .error ⟨"Demande introuvable ou déjà traitée.", 404⟩

def readAmount (amount : Option ℚ) : Except Refusal ℚ :=
  match amount.filter fun v => 0 < v with
  | none => .error ⟨"Le montant à ajouter doit être un nombre positif.", 400⟩
  | some v =>
      if MAX_AMOUNT < v then
        .error ⟨"Montant irréaliste (> 1e12 tokens) — vérifie la saisie.", 400⟩
      else .ok v

/-- `max_budget.filter(|b| *b != 0.0).unwrap_or(0.0)`: an unlimited account
reads as 0. -/
def currentCap (maxBudget : Option ℚ) : ℚ := (maxBudget.filter fun b => b ≠ 0).getD 0

/-- `SELECT … FROM budget_grants WHERE expires_at > now`, the first row. -/
def activeGrant (grants : List Grant) (now : Time) : Option Grant :=
  grants.find? fun g => now < g.expiresAt

/-- The deadline of the grant: none for a permanent raise. -/
def readDeadline (now : Time) : Option (Option Int) → Except Refusal (Option Time)
  | none => .ok none
  | some days =>
      match days.filter fun d => 1 ≤ d ∧ d ≤ 365 with
      | none => .error
          ⟨"Durée de la subvention : nombre de jours entre 1 et 365 (vide = permanent).", 400⟩
      | some d => .ok (some (now + d.toNat * DAY))

/-- What an approval is about to write. -/
structure Plan where
  amount : ℚ
  grant : Option Grant
  expiresAt : Option Time
  base : ℚ
  newBudget : ℚ
deriving DecidableEq, Repr

/-- A temporary grant stacks on the active one, and its base cap is frozen at the
first boost; a permanent raise adds to the cap that was read. -/
def plan (current : ℚ) (grant : Option Grant) (amount : ℚ) (expiresAt : Option Time) : Plan :=
  let base := (grant.map Grant.baseBudget).getD current
  match expiresAt with
  | some _ => ⟨amount, grant, expiresAt, base, (grant.map Grant.currentBudget).getD base + amount⟩
  | none => ⟨amount, grant, expiresAt, base, current + amount⟩

/-- `update_envelope`: LiteLLM's cap of the account. -/
def Ledger.updateEnvelope (s : Ledger) (amount : ℚ) : Ledger := { s with maxBudget := some amount }

/-- `UPDATE budget_grants SET … WHERE id=?`. -/
def updateGrant (grants : List Grant) (id : Nat) (f : Grant → Grant) : List Grant :=
  grants.map fun g => if g.id = id then f g else g

/-- The grant row of an approval: a stacked or a new one when it is temporary; a
permanent raise during a grant must survive the deadline, so it raises the base
too. -/
def Ledger.writeGrant (s : Ledger) (p : Plan) : Ledger :=
  match p.expiresAt, p.grant with
  -- stacked: the base of the first boost stays
  | some exp, some g =>
      { s with grants := updateGrant s.grants g.id fun r =>
          { r with currentBudget := p.newBudget, expiresAt := exp } }
  | some exp, none =>
      { s with
        grants := s.grants ++ [⟨s.nextGrant, p.base, p.newBudget, exp⟩]
        nextGrant := s.nextGrant + 1 }
  -- computed from the row that was read, not from the one that is there
  | none, some g =>
      { s with grants := updateGrant s.grants g.id fun r =>
          { r with
            baseBudget := g.baseBudget + p.amount
            currentBudget := g.currentBudget + p.amount } }
  | none, none => s

/-- `SET status='approved', granted_amount=?`. -/
def Request.approve (amount : ℚ) (r : Request) : Request :=
  { r with status := .approved, grantedAmount := some amount }

/-- `SET status='rejected'`: whatever the status was. -/
def Request.reject (r : Request) : Request := { r with status := .rejected }

theorem Request.id_approve (amount : ℚ) (r : Request) : (r.approve amount).id = r.id := rfl

theorem Request.id_reject (r : Request) : r.reject.id = r.id := rfl

/-- The request is marked approved, and the approval is logged. -/
def Ledger.markApproved (s : Ledger) (id : Nat) (p : Plan) : Ledger :=
  { s with
    requests := s.requests.update id (Request.approve p.amount) (Request.id_approve p.amount)
    audit := .budgetApprove p.amount p.expiresAt :: s.audit }

def Ledger.markRejected (s : Ledger) (id : Nat) : Ledger :=
  { s with requests := s.requests.update id Request.reject Request.id_reject }

/-! ## The handlers, run alone -/

/-- `admin_budget_approve`, LiteLLM answering. -/
def Ledger.approve (s : Ledger) (now : Time) (id : Nat) (form : ApproveForm) :
    Except Refusal Ledger :=
  (requirePending (s.requests.find? id)).bind fun _ =>
    (readAmount form.amount).bind fun amount =>
      (readDeadline now form.grantDays).bind fun exp =>
        let p := plan (currentCap s.maxBudget) (activeGrant s.grants now) amount exp
        .ok (((s.updateEnvelope p.newBudget).writeGrant p).markApproved id p)

/-- `admin_budget_set`: the account's cap, exactly. `isProtected` is what
`owner_protected` answers, `value` what `parse_py_float` reads. -/
def Ledger.budgetSet (s : Ledger) (isProtected : Bool) (value : Option ℚ) : Except Refusal Ledger :=
  if isProtected then
    .error ⟨"Ce compte est le propriétaire de l'instance : seul lui-même peut le modifier.", 403⟩
  else
    match value.filter fun v => 0 < v with
    | none => .error ⟨"Budget : nombre strictement positif attendu (tokens). Pour couper l'accès d'un compte, utilise le blocage du compte — réversible et tracé ; un budget de 0 le plafonne réellement à zéro token.", 400⟩
    | some v =>
        if MAX_AMOUNT < v then
          .error ⟨"Montant irréaliste (> 1e12 tokens) — vérifie la saisie.", 400⟩
        else .ok { s.updateEnvelope v with grants := [], audit := .budgetSet v :: s.audit }

/-- `cap_untouched`: the cap still reads as the one the grant set, or LiteLLM does
not say. -/
def capUntouched (litellmMaxBudget : Option ℚ) (grantedCurrent : ℚ) : Bool :=
  match litellmMaxBudget with
  -- LiteLLM does not say: the grant is reverted all the same
  | none => true
  | some current => |current - grantedCurrent| < 1

/-- The reaper's work on one expired row: back to the base cap unless an admin
moved the cap, and the row is deleted either way. -/
def Ledger.revertGrant (s : Ledger) (g : Grant) : Ledger :=
  let s' := if capUntouched s.maxBudget g.currentBudget then s.updateEnvelope g.baseBudget else s
  { s' with grants := s'.grants.filter fun r => r.id ≠ g.id }

/-- `revert_expired`: one pass of the reaper. -/
def Ledger.revertExpired (s : Ledger) (now : Time) : Ledger :=
  (s.grants.filter fun g => g.expiresAt ≤ now).foldl Ledger.revertGrant s

/-! ## What each write leaves alone -/

section Frame

variable (s : Ledger) (p : Plan) (id : Nat) (amount : ℚ)

@[simp] theorem updateEnvelope_maxBudget : (s.updateEnvelope amount).maxBudget = some amount := rfl

@[simp] theorem updateEnvelope_grants : (s.updateEnvelope amount).grants = s.grants := rfl

@[simp] theorem updateEnvelope_nextGrant : (s.updateEnvelope amount).nextGrant = s.nextGrant := rfl

@[simp] theorem updateEnvelope_requests : (s.updateEnvelope amount).requests = s.requests := rfl

@[simp] theorem updateEnvelope_audit : (s.updateEnvelope amount).audit = s.audit := rfl

@[simp] theorem writeGrant_maxBudget : (s.writeGrant p).maxBudget = s.maxBudget := by
  unfold Ledger.writeGrant; split <;> rfl

@[simp] theorem writeGrant_requests : (s.writeGrant p).requests = s.requests := by
  unfold Ledger.writeGrant; split <;> rfl

@[simp] theorem writeGrant_audit : (s.writeGrant p).audit = s.audit := by
  unfold Ledger.writeGrant; split <;> rfl

@[simp] theorem markApproved_maxBudget : (s.markApproved id p).maxBudget = s.maxBudget := rfl

@[simp] theorem markApproved_grants : (s.markApproved id p).grants = s.grants := rfl

theorem markApproved_requests : (s.markApproved id p).requests =
    s.requests.update id (Request.approve p.amount) (Request.id_approve p.amount) := rfl

theorem markRejected_requests :
    (s.markRejected id).requests = s.requests.update id Request.reject Request.id_reject := rfl

@[simp] theorem markRejected_maxBudget : (s.markRejected id).maxBudget = s.maxBudget := rfl

@[simp] theorem markApproved_audit :
    (s.markApproved id p).audit = .budgetApprove p.amount p.expiresAt :: s.audit := rfl

variable (current : ℚ) (grant : Option Grant) (exp : Option Time)

@[simp] theorem plan_amount : (plan current grant amount exp).amount = amount := by
  cases exp <;> rfl

@[simp] theorem plan_grant : (plan current grant amount exp).grant = grant := by
  cases exp <;> rfl

@[simp] theorem plan_expiresAt : (plan current grant amount exp).expiresAt = exp := by
  cases exp <;> rfl

end Frame

/-! ## What an accepted operation does -/

theorem readAmount_ok {a : Option ℚ} {v : ℚ} (h : readAmount a = .ok v) : 0 < v ∧ v ≤ MAX_AMOUNT := by
  unfold readAmount at h
  split at h
  · cases h
  · next w hw =>
      have hpos : 0 < w := by simpa using (Option.filter_eq_some_iff.1 hw).2
      split at h
      · cases h
      · next hmax =>
          cases h
          exact ⟨hpos, not_lt.1 hmax⟩

/-- What an approval that is not refused has read, and what it has written. -/
theorem approve_reads {s s' : Ledger} {now : Time} {id : Nat} {form : ApproveForm}
    (h : s.approve now id form = .ok s') :
    ∃ amount exp p, requirePending (s.requests.find? id) = .ok () ∧
      readAmount form.amount = .ok amount ∧ readDeadline now form.grantDays = .ok exp ∧
      p = plan (currentCap s.maxBudget) (activeGrant s.grants now) amount exp ∧
      s' = ((s.updateEnvelope p.newBudget).writeGrant p).markApproved id p := by
  unfold Ledger.approve at h
  -- the refusals, in the order the handler makes them
  rcases bind_eq_ok.1 h with ⟨_, hpending, h⟩
  rcases bind_eq_ok.1 h with ⟨amount, hamount, h⟩
  rcases bind_eq_ok.1 h with ⟨exp, hdeadline, h⟩
  cases h
  exact ⟨amount, exp, _, hpending, hamount, hdeadline, rfl, rfl⟩

/-- An approval that is not refused credits a positive amount on a pending
request. -/
theorem approve_ok {s s' : Ledger} {now : Time} {id : Nat} {form : ApproveForm}
    (h : s.approve now id form = .ok s') :
    ∃ amount exp p, 0 < amount ∧ readDeadline now form.grantDays = .ok exp ∧
      requirePending (s.requests.find? id) = .ok () ∧
      p = plan (currentCap s.maxBudget) (activeGrant s.grants now) amount exp ∧
      s' = ((s.updateEnvelope p.newBudget).writeGrant p).markApproved id p := by
  rcases approve_reads h with ⟨amount, exp, p, hpending, hamount, hdeadline, hp, hs'⟩
  exact ⟨amount, exp, p, (readAmount_ok hamount).1, hdeadline, hpending, hp, hs'⟩

theorem budgetSet_ok {s s' : Ledger} {isProtected : Bool} {value : Option ℚ}
    (h : s.budgetSet isProtected value = .ok s') :
    ∃ v, value = some v ∧ 0 < v ∧
      s' = { s.updateEnvelope v with grants := [], audit := .budgetSet v :: s.audit } := by
  unfold Ledger.budgetSet at h
  split at h
  · cases h
  · split at h
    · cases h
    · next v hv =>
        rcases Option.filter_eq_some_iff.1 hv with ⟨rfl, hpos⟩
        split at h
        · cases h
        · cases h
          exact ⟨v, rfl, by simpa using hpos, rfl⟩

@[simp] theorem currentCap_some (c : ℚ) : currentCap (some c) = c := by
  unfold currentCap
  by_cases hc : c = 0
  · -- a cap of 0 is filtered out and comes back as the default
    rw [Option.filter_some_neg (by simpa using hc), hc, Option.getD_none]
  · rw [Option.filter_some_pos (by simpa using hc), Option.getD_some]

/-- The cap a grant set is still untouched as long as nobody writes another. -/
theorem capUntouched_self (c : ℚ) : capUntouched (some c) c = true := by
  simp [capUntouched]

/-- What an approval writes on a cap that is set and, if a grant is active, is
the grant's: the amount on top of it. -/
theorem plan_newBudget {c : ℚ} {grant : Option Grant} {amount : ℚ} {exp : Option Time}
    (h : exp.isSome → ∀ g, grant = some g → g.currentBudget = c) :
    (plan c grant amount exp).newBudget = c + amount := by
  cases exp with
  | none => rfl
  | some e =>
    cases grant with
    | none => rfl
    | some g => simp [plan, h rfl g rfl]

end Portal.Budget
