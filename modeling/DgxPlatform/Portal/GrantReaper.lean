import DgxPlatform.Lib.Run
import DgxPlatform.Portal.Budget

/-! # Temporary grants come back

The budget operations of one account, each run alone, at times that never go
back. `owed` says what the account's cap is once no temporary grant is left: the
last exactly-set cap and the permanent amounts approved since.

The cap does come back as long as no approval meets an unlimited account (read
as 0, and so frozen as the base) or a grant whose deadline has passed but which
the reaper has not seen yet (no longer active, so neither stacked on nor raised).
Both can happen, and then a temporary amount stays or the account ends at 0.
-/

namespace Portal.Budget

open Run

/-- One operation of an admin, or a pass of the reaper. -/
inductive Op where
  | approve (id : Nat) (form : ApproveForm)
  | budgetSet (isProtected : Bool) (value : Option ℚ)
  | revertExpired
deriving DecidableEq, Repr

/-- What the operation leaves; a refused one leaves everything as it is. -/
def Ledger.apply (s : Ledger) (now : Time) : Op → Ledger
  | .approve id form => (s.approve now id form).toOption.getD s
  | .budgetSet isProtected value => (s.budgetSet isProtected value).toOption.getD s
  | .revertExpired => s.revertExpired now

/-- An operation at its time, which is not before the time of the last one. -/
def opStep : Step Timed (Time × Op) := fun s a =>
  if s.2 ≤ a.1 then some (s.1.apply a.1 a.2, a.1) else none

/-- The cap without temporary grants, from the audit log (newest first): the last
cap set exactly, `cap` if none was, plus the permanent amounts approved since.
Unlimited stays unlimited. -/
def owed (cap : Option ℚ) : List Audit → Option ℚ
  | [] => cap
  | .budgetSet v :: _ => some v
  | .budgetApprove amount none :: log => (owed cap log).map (· + amount)
  | .budgetApprove _ (some _) :: log => owed cap log

/-- An approval finds a cap that is set, and no expired grant that the reaper has
yet to revert. -/
def approvable (s : Timed) (a : Time × Op) : Prop :=
  match a.2 with
  | .approve _ _ => s.1.maxBudget ≠ none ∧ ∀ g ∈ s.1.grants, a.1 < g.expiresAt
  | _ => True

instance (s : Timed) (a : Time × Op) : Decidable (approvable s a) := by
  unfold approvable
  split <;> infer_instance

/-- After a reaper pass later than every deadline, the cap is the owed one. -/
def ComesBack (cap : Option ℚ) (requests : Table Request Request.id) (start : Time)
    (ops : List (Time × Op)) (reap : Time) : Prop :=
  ∀ s s' : Timed, exec opStep (Ledger.init cap requests, start) ops = some s →
    (∀ g ∈ s.1.grants, g.expiresAt < reap) →
    opStep s (reap, .revertExpired) = some s' →
    s'.1.maxBudget = owed cap s'.1.audit

/-! ## The invariant -/

/-- Either no grant is left and the cap is the owed one, or one grant is left
which carries both: the cap it set, and the owed one to come back to. -/
def Settled (cap : Option ℚ) (s : Ledger) : Prop :=
  (s.grants = [] ∧ s.maxBudget = owed cap s.audit) ∨
    ∃ g, s.grants = [g] ∧ s.maxBudget = some g.currentBudget ∧
      owed cap s.audit = some g.baseBudget

variable {cap : Option ℚ} {s s' : Ledger} {now : Time}

theorem settled_init (requests : Table Request Request.id) :
    Settled cap (Ledger.init cap requests) := Or.inl ⟨rfl, rfl⟩

theorem settled_approve {id : Nat} {form : ApproveForm} (hs : Settled cap s)
    (hcap : s.maxBudget ≠ none) (hactive : ∀ g ∈ s.grants, now < g.expiresAt)
    (h : s.approve now id form = .ok s') : Settled cap s' := by
  rcases approve_ok h with ⟨amount, exp, p, -, -, -, rfl, rfl⟩
  rcases hs with ⟨hg, howed⟩ | ⟨g, hg, hmax, howed⟩
  · -- no grant: a temporary approval freezes the owed cap as the base
    rcases Option.ne_none_iff_exists'.1 hcap with ⟨c, hc⟩
    have hact : activeGrant s.grants now = none := by simp [activeGrant, hg]
    rw [hact, hc, currentCap_some]
    rw [hc] at howed
    cases exp with
    | none => exact Or.inl ⟨by simp [Ledger.writeGrant, hg], by simp [plan, owed, ← howed]⟩
    | some e =>
      refine Or.inr ⟨⟨s.nextGrant, c, c + amount, e⟩, ?_, ?_, ?_⟩
      · simp [Ledger.writeGrant, plan, hg]
      · simp [plan]
      · simp [owed, ← howed]
  · -- one grant, still active: both kinds of approval update its row
    have hlt : now < g.expiresAt := hactive g (by rw [hg]; exact List.mem_singleton_self g)
    have hact : activeGrant s.grants now = some g := by simp [activeGrant, hg, hlt]
    rw [hact, hmax, currentCap_some]
    cases exp with
    | none =>
      refine Or.inr ⟨{ g with
        baseBudget := g.baseBudget + amount
        currentBudget := g.currentBudget + amount }, ?_, ?_, ?_⟩
      · simp [Ledger.writeGrant, updateGrant, hg]
      · simp [plan]
      · simp [owed, howed]
    | some e =>
      refine Or.inr ⟨{ g with
        currentBudget := g.currentBudget + amount
        expiresAt := e }, ?_, ?_, ?_⟩
      · simp [Ledger.writeGrant, updateGrant, plan, hg]
      · simp [plan]
      · simp [owed, howed]

theorem settled_budgetSet {isProtected : Bool} {value : Option ℚ}
    (h : s.budgetSet isProtected value = .ok s') : Settled cap s' := by
  rcases budgetSet_ok h with ⟨v, -, -, rfl⟩
  exact Or.inl ⟨rfl, rfl⟩

/-- The reaper's pass on a settled ledger: nothing before the deadline, and the
base cap after it. -/
theorem revertExpired_single {g : Grant} (hg : s.grants = [g])
    (hmax : s.maxBudget = some g.currentBudget) :
    s.revertExpired now = if g.expiresAt ≤ now then
      { s with maxBudget := some g.baseBudget, grants := [] } else s := by
  unfold Ledger.revertExpired
  by_cases hexp : g.expiresAt ≤ now
  · simp [hg, hexp, Ledger.revertGrant, hmax, capUntouched_self, Ledger.updateEnvelope]
  · simp [hg, hexp]

theorem settled_revertExpired (hs : Settled cap s) : Settled cap (s.revertExpired now) := by
  rcases hs with ⟨hg, howed⟩ | ⟨g, hg, hmax, howed⟩
  · -- nothing to revert
    have hnone : s.revertExpired now = s := by simp [Ledger.revertExpired, hg]
    rw [hnone]
    exact Or.inl ⟨hg, howed⟩
  · -- the one grant carries the owed cap as its base
    rw [revertExpired_single hg hmax]
    split
    · exact Or.inl ⟨rfl, howed.symm⟩
    · exact Or.inr ⟨g, hg, hmax, howed⟩

theorem settled_opStep {x x' : Timed} {a : Time × Op} (hs : Settled cap x.1)
    (hG : approvable x a) (h : opStep x a = some x') : Settled cap x'.1 := by
  rcases a with ⟨t, op⟩
  unfold opStep at h
  split at h
  · cases h
    cases op with
    | approve id form =>
      cases ha : x.1.approve t id form with
      -- a refused operation leaves the ledger as it is
      | error e => simpa [Ledger.apply, ha, Except.toOption] using hs
      | ok y =>
        simpa [Ledger.apply, ha, Except.toOption] using settled_approve hs hG.1 hG.2 ha
    | budgetSet isProtected value =>
      cases hb : x.1.budgetSet isProtected value with
      | error e => simpa [Ledger.apply, hb, Except.toOption] using hs
      | ok y =>
        have hy : Settled cap y := settled_budgetSet hb
        simpa [Ledger.apply, hb, Except.toOption] using hy
    | revertExpired => exact settled_revertExpired hs
  · cases h

/-- A settled ledger whose deadlines have all passed is brought back. -/
theorem cap_of_settled (hs : Settled cap s) (hdue : ∀ g ∈ s.grants, g.expiresAt ≤ now) :
    (s.revertExpired now).maxBudget = owed cap (s.revertExpired now).audit := by
  rcases hs with ⟨hg, howed⟩ | ⟨g, hg, hmax, howed⟩
  · simpa [Ledger.revertExpired, hg] using howed
  · have hexp : g.expiresAt ≤ now := hdue g (by rw [hg]; exact List.mem_singleton_self g)
    rw [revertExpired_single hg hmax, if_pos hexp]
    exact howed.symm

/-- The account's pending requests 1, 2 and 3. -/
def threeRequests : Table Request Request.id :=
  ⟨[⟨1, .pending, none⟩, ⟨2, .pending, none⟩, ⟨3, .pending, none⟩], by decide⟩

end Portal.Budget
