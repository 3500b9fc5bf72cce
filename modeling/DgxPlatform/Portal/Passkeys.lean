import DgxPlatform.Lib.Calls
import DgxPlatform.Portal.Basic
import Mathlib.Logic.Function.Basic

/-! # The passkey second factor

`finish_login` as the source runs it: the challenge is read at the start and
deleted near the end, the stored counter is read before the assertion is checked
and written after, and any other call may move in between.

Every challenge opens at most one session and no counter decreases as long as a
successful call still finds its challenge when it deletes it, and the counter it
read when it writes.
-/

namespace Portal.Passkeys

open Run Calls

abbrev Bytes := List UInt8

/-- `config.WEBAUTHN_*`, with the RP ID's hash. -/
structure Settings where
  origin : String
  rpIdHash : Bytes
  requireUv : Bool
deriving DecidableEq, Repr

/-! ## One assertion -/

/-- What the client signed, as `client_data` parses it. -/
structure ClientData where
  typ : String
  challenge : Bytes
  origin : String
deriving DecidableEq, Repr

/-- What the authenticator signed, as `auth_data` parses it. -/
structure AuthData where
  rpIdHash : Bytes
  up : Bool
  uv : Bool
  signCount : Nat
deriving DecidableEq, Repr

/-- The answer of the browser. `clientData` fails with the envelope too
(`check_envelope`, a missing field); `verifies` is `cose_key` and `verify_sig`
under the stored key. -/
structure Assertion where
  id : Option String
  clientData : Except String ClientData
  authData : Except String AuthData
  verifies : Bytes → Except String Unit

/-- `verify_assertion`: the new counter, if every check passes. -/
def verifyAssertion (cfg : Settings) (a : Assertion) (challenge storedCose : Bytes)
    (storedCount : Int) : Except String Nat :=
  a.clientData.bind fun cd =>
    if cd.typ ≠ "webauthn.get" ∨ cd.challenge ≠ challenge ∨ cd.origin ≠ cfg.origin then
      .error "client data does not match the challenge"
    else
      a.authData.bind fun auth =>
        if auth.rpIdHash ≠ cfg.rpIdHash then .error "unexpected RP ID hash"
        else if auth.up = false then .error "user was not present"
        else if cfg.requireUv ∧ auth.uv = false then .error "user verification required"
        else if (0 < auth.signCount ∨ 0 < storedCount) ∧ auth.signCount ≤ storedCount then
          .error "sign count did not grow: possible cloned authenticator"
        else (a.verifies storedCose).bind fun _ => .ok auth.signCount

/-- An accepted assertion never carries a smaller counter than the stored one. -/
theorem verifyAssertion_count {cfg : Settings} {a : Assertion} {challenge cose : Bytes}
    {stored : Int} {new : Nat} (h : verifyAssertion cfg a challenge cose stored = .ok new) :
    stored ≤ new := by
  unfold verifyAssertion at h
  cases hcd : a.clientData with
  | error e => rw [hcd] at h; cases h
  | ok cd =>
    rw [hcd] at h
    simp only [Except.bind] at h
    split at h
    · cases h
    · cases had : a.authData with
      | error e => rw [had] at h; cases h
      | ok auth =>
        rw [had] at h
        simp only at h
        split at h
        · cases h
        split at h
        · cases h
        split at h
        · cases h
        split at h
        · cases h
        next hgrow =>
        split at h
        · cases h
        · cases h
          -- a smaller counter is positive or faces a positive one
          by_contra hlt
          exact hgrow ⟨by omega, by omega⟩

/-! ## The tables -/

inductive Kind where
  | login
  | register
deriving DecidableEq, Repr

/-- A row of `pending_webauthn`, by its nonce. -/
structure Pending where
  username : String
  kind : Kind
  challenge : Bytes
  fullname : Option String
  isAdmin : Option Int
  expiresAt : Time
deriving DecidableEq, Repr

/-- A row of `webauthn_credentials`, by account and credential id. -/
structure Credential where
  publicKey : Bytes
  signCount : Int
deriving DecidableEq, Repr

/-- A session, with the nonce of the challenge that opened it. -/
structure Session where
  nonce : String
  username : String
  fullname : String
  isAdmin : Bool
deriving DecidableEq, Repr

/-- The tables and the clock. `issued` are the nonces drawn so far: a nonce is
never drawn twice. -/
structure Db where
  pending : String → Option Pending
  issued : List String
  creds : String × String → Option Credential
  blocked : String → Bool
  sessions : List Session
  now : Time

/-- Before any challenge: the accounts' keys and the block list. -/
def Db.init (creds : String × String → Option Credential) (blocked : String → Bool) (now : Time) :
    Db :=
  ⟨fun _ => none, [], creds, blocked, [], now⟩

/-- `DELETE FROM pending_webauthn WHERE nonce=?`. -/
def Db.deleteNonce (s : Db) (nonce : String) : Db :=
  { s with pending := Function.update s.pending nonce none }

/-- `pending_clear`. -/
def Db.pendingClear (s : Db) (nonce : String) : Db :=
  if nonce = "" then s else s.deleteNonce nonce

/-- `UPDATE webauthn_credentials SET sign_count=?`. -/
def Db.setCount (s : Db) (key : String × String) (count : Nat) : Db :=
  let updated := (s.creds key).map fun k => { k with signCount := (count : Int) }
  { s with creds := Function.update s.creds key updated }

/-- The sessions opened by one challenge. -/
def Db.openedBy (s : Db) (nonce : String) : Nat := s.sessions.countP fun x => x.nonce = nonce

/-! ## The calls -/

/-- How far a call is, with what it has read. -/
inductive Pc where
  | readPending
  | checkExpiry (row : Pending)
  | expire
  | readKey (p : Pending) (id : String)
  | checkBlock (p : Pending) (id : String) (stored : Int) (new : Nat)
  | writeCount (p : Pending) (id : String) (stored : Int) (new : Nat)
  | clear (p : Pending) (refusal : Option Refusal)
  | applySession (p : Pending)
  | answered (refusal : Option Refusal)
deriving DecidableEq, Repr

/-- A call of `finish_login`. -/
structure Call where
  nonce : String
  cred : Assertion
  pc : Pc

def Call.goto (c : Call) (pc : Pc) : Call := { c with pc := pc }

/-- The account's session, under its full name or its user name. -/
def Pending.session (p : Pending) (nonce : String) : Session :=
  ⟨nonce, p.username, (p.fullname.filter fun f => f ≠ "").getD p.username, p.isAdmin.getD 0 ≠ 0⟩

/-- The next await of a call; `ok` is whether `apply_session` succeeds. -/
def finishMove (cfg : Settings) (s : Db) (c : Call) (ok : Bool) : Option (Db × Call) :=
  match c.pc with
  | .readPending =>
      match if c.nonce = "" then none else s.pending c.nonce with
      | none =>
          some (s, c.goto (.answered (some ⟨"Demande de connexion expirée ou invalide.", 400⟩)))
      | some row => some (s, c.goto (.checkExpiry row))
  | .checkExpiry row =>
      -- `pending_get`: an expired row is deleted and reads as none
      if row.expiresAt < s.now then some (s, c.goto .expire)
      else if row.kind ≠ .login then
        some (s, c.goto (.answered (some ⟨"Demande de connexion expirée ou invalide.", 400⟩)))
      else
        match c.cred.id with
        | none => some (s, c.goto (.answered (some ⟨"Clé invalide.", 400⟩)))
        | some id => some (s, c.goto (.readKey row id))
  | .expire =>
      some (s.deleteNonce c.nonce,
        c.goto (.answered (some ⟨"Demande de connexion expirée ou invalide.", 400⟩)))
  | .readKey p id =>
      match s.creds (p.username, id) with
      | none => some (s, c.goto (.clear p (some ⟨"Clé inconnue pour ce compte.", 401⟩)))
      | some k =>
          match verifyAssertion cfg c.cred p.challenge k.publicKey k.signCount with
          | .error _ => some (s, c.goto (.clear p (some ⟨"Vérification de la clé échouée.", 401⟩)))
          | .ok new => some (s, c.goto (.checkBlock p id k.signCount new))
  | .checkBlock p id stored new =>
      if s.blocked p.username then
        some (s, c.goto (.clear p (some ⟨"Accès révoqué pour ce compte.", 403⟩)))
      else some (s, c.goto (.writeCount p id stored new))
  -- unconditional: the counter that is there now is not looked at
  | .writeCount p id _ new => some (s.setCount (p.username, id) new, c.goto (.clear p none))
  | .clear p refusal =>
      -- whether the row was still there is not looked at either
      some (s.pendingClear c.nonce,
        c.goto (match refusal with
          | some r => .answered (some r)
          | none => .applySession p))
  | .applySession p =>
      if ok then some ({ s with sessions := p.session c.nonce :: s.sessions }, c.goto (.answered none))
      else some (s, c.goto (.answered (some ⟨"", 500⟩)))
  | .answered _ => none

/-- What happens around the calls: the clock, the block list, and the two queries
of `pending_insert`. -/
inductive Env where
  | tick (t : Time)
  | block (username : String) (on : Bool)
  | pendingDelete (username : String) (kind : Kind)
  | pendingInsert (nonce : String) (row : Pending)
deriving DecidableEq, Repr

def envMove (s : Db) : Env → Option Db
  | .tick t => if s.now ≤ t then some { s with now := t } else none
  | .block username on => some { s with blocked := Function.update s.blocked username on }
  | .pendingDelete username kind =>
      some { s with pending := fun n =>
        (s.pending n).filter fun r => ¬ (r.username = username ∧ r.kind = kind) }
  | .pendingInsert nonce row =>
      if nonce ∈ s.issued then none
      else some { s with
        pending := Function.update s.pending nonce (some row)
        issued := nonce :: s.issued }

/-- A call is begun with a nonce and an assertion. -/
def service (cfg : Settings) : Machine Db (String × Assertion) Call Bool Env where
  first := fun b => ⟨b.1, b.2, .readPending⟩
  move := finishMove cfg
  env := envMove

/-! ## The property and the condition -/

/-- No challenge opens two sessions, and no counter is smaller at the end than
after any part of the run. -/
def SingleUse (cfg : Settings) (s₀ : Db) (before after : List (Act (String × Assertion) Bool Env)) :
    Prop :=
  ∀ m s, exec (service cfg).step (Conf.init s₀) before = some m →
    exec (service cfg).step m after = some s →
    (∀ nonce, s.shared.openedBy nonce ≤ 1) ∧
      ∀ key k, m.shared.creds key = some k →
        ∃ k', s.shared.creds key = some k' ∧ k.signCount ≤ k'.signCount

/-- A successful call finds its challenge when it deletes it, and the counter it
read when it writes the new one. -/
def notRaced (s : Conf Db Call) : Act (String × Assertion) Bool Env → Prop
  | .move i _ =>
      match s.calls[i]? with
      | none => True
      | some c =>
          match c.pc with
          | .clear _ none => (s.shared.pending c.nonce).isSome
          | .writeCount p id stored _ =>
              ∀ k ∈ s.shared.creds (p.username, id), k.signCount = stored
          | _ => True
  | _ => True

instance (s : Conf Db Call) (a : Act (String × Assertion) Bool Env) : Decidable (notRaced s a) := by
  unfold notRaced
  split
  · split
    · infer_instance
    · split <;> infer_instance
  · infer_instance

/-! ## What a move can do -/

/-- Whether a call is about to open a session for a challenge. -/
def Call.opening (nonce : String) (c : Call) : Nat :=
  match c.pc with
  | .applySession _ => if c.nonce = nonce then 1 else 0
  | _ => 0

theorem opening_goto_applySession (c : Call) (p : Pending) (n : String) :
    (c.goto (.applySession p)).opening n = if c.nonce = n then 1 else 0 := rfl

theorem opening_of_applySession {c : Call} {p : Pending} (h : c.pc = .applySession p) (n : String) :
    c.opening n = if c.nonce = n then 1 else 0 := by
  unfold Call.opening
  rw [h]

theorem opening_of_clear {c : Call} {p : Pending} {r : Option Refusal} (h : c.pc = .clear p r)
    (n : String) : c.opening n = 0 := by
  unfold Call.opening
  rw [h]

/-- What a call relies on: it has a nonce, and the counter it carries has grown. -/
def Call.Ok (c : Call) : Prop :=
  match c.pc with
  | .readPending => True
  | .answered _ => True
  | .checkBlock _ _ stored new => c.nonce ≠ "" ∧ stored ≤ new
  | .writeCount _ _ stored new => c.nonce ≠ "" ∧ stored ≤ new
  | _ => c.nonce ≠ ""

/-- A move that opens no session, writes no counter and inserts no challenge. -/
structure Quiet (s s' : Db) (c c' : Call) : Prop where
  sessions : s'.sessions = s.sessions
  issued : s'.issued = s.issued
  creds : s'.creds = s.creds
  pending : ∀ n, (s'.pending n).isSome → (s.pending n).isSome
  opening : ∀ n, c'.opening n ≤ c.opening n
  ok : c'.Ok

theorem Quiet.goto {s : Db} {c : Call} {pc : Pc} (hopen : ∀ n, (c.goto pc).opening n = 0)
    (hok : (c.goto pc).Ok) : Quiet s s c (c.goto pc) :=
  ⟨rfl, rfl, rfl, fun _ h => h, fun n => by rw [hopen n]; exact Nat.zero_le _, hok⟩

theorem isSome_update_none {s : Db} {nonce n : String}
    (h : (Function.update s.pending nonce none n).isSome) : (s.pending n).isSome := by
  by_cases hn : n = nonce
  · subst hn
    simp at h
  · rwa [Function.update_of_ne hn] at h

theorem isSome_pendingClear {s : Db} {nonce n : String}
    (h : ((s.pendingClear nonce).pending n).isSome) : (s.pending n).isSome := by
  unfold Db.pendingClear at h
  split at h
  · exact h
  · exact isSome_update_none h

theorem pendingClear_quiet (s : Db) (nonce : String) :
    (s.pendingClear nonce).sessions = s.sessions ∧ (s.pendingClear nonce).issued = s.issued ∧
      (s.pendingClear nonce).creds = s.creds := by
  unfold Db.pendingClear
  split <;> exact ⟨rfl, rfl, rfl⟩

variable {cfg : Settings} {s s' : Db} {c c' : Call} {ok : Bool}

/-- A call reads, or writes the counter, or deletes its challenge to open a
session, or opens it. -/
theorem finishMove_cases (hc : c.Ok) (h : finishMove cfg s c ok = some (s', c')) :
    Quiet s s' c c' ∨
    (∃ p id stored new, c.pc = .writeCount p id stored new ∧
      s' = s.setCount (p.username, id) new ∧ c' = c.goto (.clear p none)) ∨
    (∃ p, c.pc = .clear p none ∧ s' = s.pendingClear c.nonce ∧ c' = c.goto (.applySession p)) ∨
    (∃ p, c.pc = .applySession p ∧
      s' = { s with sessions := p.session c.nonce :: s.sessions } ∧
      c' = c.goto (.answered none)) := by
  unfold finishMove at h
  unfold Call.Ok at hc
  cases hpc : c.pc with
  | readPending =>
    simp only [hpc] at h
    left
    split at h
    · cases h
      exact Quiet.goto (fun _ => rfl) trivial
    · next row hrow =>
        cases h
        -- only a call with a nonce gets a row
        have hnonce : c.nonce ≠ "" := by
          intro hempty
          rw [if_pos hempty] at hrow
          cases hrow
        exact Quiet.goto (fun _ => rfl) hnonce
  | checkExpiry row =>
    simp only [hpc] at h hc
    left
    split at h
    · cases h
      exact Quiet.goto (fun _ => rfl) hc
    split at h
    · cases h
      exact Quiet.goto (fun _ => rfl) trivial
    split at h
    · cases h
      exact Quiet.goto (fun _ => rfl) trivial
    · cases h
      exact Quiet.goto (fun _ => rfl) hc
  | expire =>
    simp only [hpc] at h
    cases h
    exact Or.inl ⟨rfl, rfl, rfl, fun _ hn => isSome_update_none hn, fun _ => Nat.zero_le _, trivial⟩
  | readKey p id =>
    simp only [hpc] at h hc
    left
    split at h
    · cases h
      exact Quiet.goto (fun _ => rfl) hc
    split at h
    · cases h
      exact Quiet.goto (fun _ => rfl) hc
    · next hv =>
        cases h
        exact Quiet.goto (fun _ => rfl) ⟨hc, verifyAssertion_count hv⟩
  | checkBlock p id stored new =>
    simp only [hpc] at h hc
    left
    split at h
    · cases h
      exact Quiet.goto (fun _ => rfl) hc.1
    · cases h
      exact Quiet.goto (fun _ => rfl) hc
  | writeCount p id stored new =>
    simp only [hpc] at h
    cases h
    exact Or.inr (Or.inl ⟨p, id, stored, new, rfl, rfl, rfl⟩)
  | clear p refusal =>
    simp only [hpc] at h
    cases h
    cases refusal with
    | none => exact Or.inr (Or.inr (Or.inl ⟨p, rfl, rfl, rfl⟩))
    -- a refusal deletes the challenge as well
    | some r =>
      rcases pendingClear_quiet s c.nonce with ⟨hs, hi, hcr⟩
      exact Or.inl ⟨hs, hi, hcr, fun _ hn => isSome_pendingClear hn, fun _ => Nat.zero_le _,
        trivial⟩
  | applySession p =>
    simp only [hpc] at h
    split at h
    · cases h
      exact Or.inr (Or.inr (Or.inr ⟨p, rfl, rfl, rfl⟩))
    · cases h
      exact Or.inl (Quiet.goto (fun _ => rfl) trivial)
  | answered r =>
    simp only [hpc] at h
    cases h

/-! ## The invariant -/

/-- A challenge that can still be read counts one. -/
def Db.live (s : Db) (nonce : String) : Nat := if (s.pending nonce).isSome then 1 else 0

/-- What a challenge has opened, is opening, or can still open. -/
def uses (s : Conf Db Call) (nonce : String) : Nat :=
  s.shared.openedBy nonce + total (Call.opening nonce) s.calls + s.shared.live nonce

/-- No challenge is used twice, one that was never issued not at all. -/
structure Spent (s : Conf Db Call) : Prop where
  once : ∀ n, uses s n ≤ 1
  fresh : ∀ n, n ∉ s.shared.issued → uses s n = 0
  ok : ∀ c ∈ s.calls, c.Ok

theorem spent_of_uses_le {s s' : Conf Db Call} (hs : Spent s)
    (hissued : s'.shared.issued = s.shared.issued) (huses : ∀ n, uses s' n ≤ uses s n)
    (hok : ∀ c ∈ s'.calls, c.Ok) : Spent s' where
  once n := (huses n).trans (hs.once n)
  fresh n hn := by
    have hzero := hs.fresh n (by rwa [← hissued])
    have hle := huses n
    omega
  ok := hok

theorem live_le {s s' : Db} {n : String} (h : (s'.pending n).isSome → (s.pending n).isSome) :
    s'.live n ≤ s.live n := by
  unfold Db.live
  by_cases h' : (s'.pending n).isSome
  · rw [if_pos h', if_pos (h h')]
  · rw [if_neg h']
    exact Nat.zero_le _

theorem openedBy_congr {s s' : Db} (h : s'.sessions = s.sessions) (n : String) :
    s'.openedBy n = s.openedBy n := by
  unfold Db.openedBy
  rw [h]

theorem spent_init (creds : String × String → Option Credential) (blocked : String → Bool)
    (now : Time) : Spent (Conf.init (Db.init creds blocked now)) where
  once n := by simp [uses, Conf.init, Db.init, Db.openedBy, Db.live]
  fresh n _ := by simp [uses, Conf.init, Db.init, Db.openedBy, Db.live]
  ok := by simp [Conf.init]

section Moves

variable {s : Conf Db Call} {s' : Db} {i : Nat} {c c' : Call}

theorem spent_quiet (hs : Spent s) (hi : s.calls[i]? = some c) (hq : Quiet s.shared s' c c') :
    Spent ⟨s', s.calls.set i c'⟩ := by
  refine spent_of_uses_le hs hq.issued (fun n => ?_) (forall_set hs.ok hq.ok)
  have htot := total_set (Call.opening n) hi c'
  have hopen := hq.opening n
  have hlive := live_le (hq.pending n)
  simp only [uses, openedBy_congr hq.sessions]
  omega

theorem spent_writeCount {p : Pending} {id : String} {stored : Int} {new : Nat} (hs : Spent s)
    (hi : s.calls[i]? = some c) (hpc : c.pc = .writeCount p id stored new) :
    Spent ⟨s.shared.setCount (p.username, id) new, s.calls.set i (c.goto (.clear p none))⟩ := by
  have hc : c.nonce ≠ "" ∧ stored ≤ new := by
    simpa [Call.Ok, hpc] using hs.ok c (List.mem_of_getElem? hi)
  refine spent_of_uses_le hs rfl (fun n => ?_) (forall_set hs.ok hc.1)
  have htot := total_set_of_eq (Call.opening n) hi (c.goto (.clear p none))
    (by simp [Call.opening, Call.goto, hpc])
  have hlive : (s.shared.setCount (p.username, id) new).live n = s.shared.live n := rfl
  have hopened : (s.shared.setCount (p.username, id) new).openedBy n = s.shared.openedBy n := rfl
  simp only [uses, htot, hlive, hopened, le_refl]

/-- A call that still finds its challenge turns it into the session it opens. -/
theorem spent_clear {p : Pending} (hs : Spent s) (hi : s.calls[i]? = some c)
    (hpc : c.pc = .clear p none) (hlive : (s.shared.pending c.nonce).isSome) :
    Spent ⟨s.shared.pendingClear c.nonce, s.calls.set i (c.goto (.applySession p))⟩ := by
  have hc : c.nonce ≠ "" := by simpa [Call.Ok, hpc] using hs.ok c (List.mem_of_getElem? hi)
  have hclear : s.shared.pendingClear c.nonce = s.shared.deleteNonce c.nonce := by
    simp [Db.pendingClear, hc]
  rw [hclear]
  refine spent_of_uses_le hs rfl (fun n => ?_) (forall_set hs.ok hc)
  have htot := total_set (Call.opening n) hi (c.goto (.applySession p))
  have hopened : (s.shared.deleteNonce c.nonce).openedBy n = s.shared.openedBy n := rfl
  rw [opening_goto_applySession, opening_of_clear hpc] at htot
  simp only [uses, hopened]
  -- `live` gives its one to `opening`
  by_cases hn : c.nonce = n
  · have hafter : (s.shared.deleteNonce c.nonce).live n = 0 := by
      simp [Db.live, Db.deleteNonce, hn]
    have hbefore : s.shared.live n = 1 := by simp [Db.live, ← hn, hlive]
    rw [if_pos hn] at htot
    omega
  · have hafter : (s.shared.deleteNonce c.nonce).live n = s.shared.live n := by
      have hne : n ≠ c.nonce := fun e => hn e.symm
      simp [Db.live, Db.deleteNonce, Function.update_of_ne hne]
    rw [if_neg hn] at htot
    omega

theorem spent_apply {p : Pending} (hs : Spent s) (hi : s.calls[i]? = some c)
    (hpc : c.pc = .applySession p) :
    Spent ⟨{ s.shared with sessions := p.session c.nonce :: s.shared.sessions },
      s.calls.set i (c.goto (.answered none))⟩ := by
  refine spent_of_uses_le hs rfl (fun n => ?_) (forall_set hs.ok trivial)
  have htot := total_set (Call.opening n) hi (c.goto (.answered none))
  have hdone : (c.goto (.answered none)).opening n = 0 := rfl
  rw [opening_of_applySession hpc, hdone] at htot
  simp only [uses, Db.openedBy, Db.live, Pending.session, List.countP_cons, decide_eq_true_eq]
  omega

theorem spent_env {e : Env} (hs : Spent s) (h : envMove s.shared e = some s') :
    Spent ⟨s', s.calls⟩ := by
  cases e with
  | tick t =>
    simp only [envMove] at h
    split at h
    · cases h
      exact ⟨hs.once, hs.fresh, hs.ok⟩
    · cases h
  | block username on =>
    cases h
    exact ⟨hs.once, hs.fresh, hs.ok⟩
  | pendingDelete username kind =>
    cases h
    refine spent_of_uses_le hs rfl (fun n => ?_) hs.ok
    -- the account's older challenges are gone, none is new
    refine Nat.add_le_add_left (live_le fun hn => ?_) _
    rcases Option.isSome_iff_exists.1 hn with ⟨r, hr⟩
    rw [(Option.filter_eq_some_iff.1 hr).1]
    rfl
  | pendingInsert nonce row =>
    simp only [envMove] at h
    split at h
    · cases h
    · next hfresh =>
        cases h
        -- the nonce was never issued, so nothing has used it
        have hzero : uses s nonce = 0 := hs.fresh nonce hfresh
        have huses : ∀ n, n ≠ nonce → uses ⟨{ s.shared with
            pending := Function.update s.shared.pending nonce (some row)
            issued := nonce :: s.shared.issued }, s.calls⟩ n = uses s n := by
          intro n hn
          simp [uses, Db.openedBy, Db.live, Function.update_of_ne hn]
        refine ⟨fun n => ?_, fun n hn => ?_, hs.ok⟩
        · by_cases hn : n = nonce
          · subst hn
            have hopened : s.shared.openedBy n = 0 := by unfold uses at hzero; omega
            have hopening : total (Call.opening n) s.calls = 0 := by unfold uses at hzero; omega
            unfold Db.openedBy at hopened
            simp [uses, Db.openedBy, Db.live, hopened, hopening]
          · rw [huses n hn]
            exact hs.once n
        · rw [huses n fun e => hn (e ▸ List.mem_cons_self)]
          exact hs.fresh n fun hmem => hn (List.mem_cons_of_mem _ hmem)

/-! ## Whole runs -/

/-- The counters never shrink from `s` to `s'`. -/
def Grown (s s' : Db) : Prop :=
  ∀ key k, s.creds key = some k → ∃ k', s'.creds key = some k' ∧ k.signCount ≤ k'.signCount

theorem Grown.refl (s : Db) : Grown s s := fun _ k hk => ⟨k, hk, Int.le_refl _⟩

theorem Grown.of_creds_eq {s₀ s s' : Db} (h : Grown s₀ s) (heq : s'.creds = s.creds) :
    Grown s₀ s' := by
  intro key k hk
  rw [heq]
  exact h key k hk

theorem Grown.setCount {s₀ s : Db} {key : String × String} {new : Nat} (h : Grown s₀ s)
    (hle : ∀ k, s.creds key = some k → k.signCount ≤ new) : Grown s₀ (s.setCount key new) := by
  intro key' k hk
  rcases h key' k hk with ⟨k', hk', hkk'⟩
  by_cases hkey : key' = key
  · subst hkey
    refine ⟨{ k' with signCount := new }, ?_, Int.le_trans hkk' (hle k' hk')⟩
    simp [Db.setCount, hk']
  · exact ⟨k', by simpa [Db.setCount, Function.update_of_ne hkey] using hk', hkk'⟩

/-- One step that is not raced: no challenge is used twice, no counter shrinks. -/
theorem spent_step {s₀ : Db} {s t : Conf Db Call} {a : Act (String × Assertion) Bool Env}
    (hs : Spent s ∧ Grown s₀ s.shared) (hG : notRaced s a) (h : (service cfg).step s a = some t) :
    Spent t ∧ Grown s₀ t.shared := by
  rcases hs with ⟨hspent, hgrown⟩
  cases a with
  | enter b =>
    cases h
    refine ⟨?_, hgrown⟩
    refine spent_of_uses_le hspent rfl (fun n => ?_) (forall_append hspent.ok trivial)
    have hnew : Call.opening n ((service cfg).first b) = 0 := rfl
    simp only [uses, total_append_singleton, hnew, add_zero, le_refl]
  | env e =>
    rcases Machine.step_env h with ⟨s', he, rfl⟩
    refine ⟨spent_env hspent he, hgrown.of_creds_eq ?_⟩
    cases e with
    | tick _ | pendingInsert _ _ =>
      simp only [service, envMove] at he
      split at he <;> cases he
      rfl
    | block _ _ | pendingDelete _ _ => cases he; rfl
  | move i ok =>
    rcases Machine.step_move h with ⟨c, s', c', hi, hm, rfl⟩
    have hc := hspent.ok c (List.mem_of_getElem? hi)
    simp only [notRaced, hi] at hG
    rcases finishMove_cases hc hm with hq | ⟨p, id, stored, new, hpc, rfl, rfl⟩ |
      ⟨p, hpc, rfl, rfl⟩ | ⟨p, hpc, rfl, rfl⟩
    · exact ⟨spent_quiet hspent hi hq, hgrown.of_creds_eq hq.creds⟩
    · -- the counter it read is still there, and the new one is not smaller
      simp only [hpc] at hG
      have hle : stored ≤ new := by
        simp only [Call.Ok, hpc] at hc
        exact hc.2
      refine ⟨spent_writeCount hspent hi hpc, hgrown.setCount fun k hk => ?_⟩
      rw [hG k hk]
      exact hle
    · simp only [hpc] at hG
      -- the challenge it deletes is still there
      exact ⟨spent_clear hspent hi hpc hG,
        hgrown.of_creds_eq (pendingClear_quiet s.shared c.nonce).2.2⟩
    · exact ⟨spent_apply hspent hi hpc, hgrown⟩

end Moves

/-- The second factor is single use: in every run in which a successful call finds
its challenge when it deletes it and the counter it read when it writes. -/
theorem single_use_of_not_raced (cfg : Settings) (creds : String × String → Option Credential)
    (blocked : String → Bool) (now : Time)
    (before after : List (Act (String × Assertion) Bool Env))
    (hG : Meets (service cfg).step notRaced (Conf.init (Db.init creds blocked now))
      (before ++ after)) :
    SingleUse cfg (Db.init creds blocked now) before after := by
  intro m s hm hs
  rcases meets_append.1 hG with ⟨hbefore, hafter⟩
  have hspent : Spent m ∧ Grown (Db.init creds blocked now) m.shared :=
    exec_inv (fun _ _ _ hi hg hst => spent_step hi hg hst)
      ⟨spent_init creds blocked now, Grown.refl _⟩ hbefore hm
  have hend : Spent s ∧ Grown m.shared s.shared :=
    exec_inv (fun _ _ _ hi hg hst => spent_step hi hg hst)
      ⟨hspent.1, Grown.refl m.shared⟩ (hafter m hm) hs
  refine ⟨fun nonce => ?_, hend.2⟩
  have honce := hend.1.once nonce
  unfold uses at honce
  omega

/-! ## A replay -/

def someSettings : Settings := ⟨"https://example.org", [], false⟩

/-- The account's key, with its counter at 7. -/
def oneKey (key : String × String) : Option Credential :=
  if key = ("ada", "k1") then some ⟨[], 7⟩ else none

def oneChallenge : Pending := ⟨"ada", .login, [1, 2, 3], none, none, 300⟩

/-- An assertion of that key for that challenge, with the counter at 8. -/
def signed : Assertion where
  id := some "k1"
  clientData := .ok ⟨"webauthn.get", [1, 2, 3], "https://example.org"⟩
  authData := .ok ⟨[], true, true, 8⟩
  verifies := fun _ => .ok ()

/-- The same answer sent twice: both calls read the challenge and the counter
before either has deleted or written. -/
def replay : List (Act (String × Assertion) Bool Env) :=
  [.env (.pendingInsert "n1" oneChallenge), .enter ("n1", signed), .enter ("n1", signed),
    .move 0 true, .move 0 true, .move 0 true, .move 1 true, .move 1 true, .move 1 true,
    .move 0 true, .move 0 true, .move 0 true, .move 0 true,
    .move 1 true, .move 1 true, .move 1 true, .move 1 true]

/-- One challenge opens two sessions. -/
theorem replay_opens_two_sessions :
    ¬ SingleUse someSettings (Db.init oneKey (fun _ => false) 0) replay [] := by
  intro h
  have hone := (h _ _ rfl rfl).1 "n1"
  revert hone
  decide

/-- One call after the other: the run exists, and the second finds no challenge. -/
theorem replay_in_turn_refused :
    (exec (service someSettings).step (Conf.init (Db.init oneKey (fun _ => false) 0))
      ([.env (.pendingInsert "n1" oneChallenge), .enter ("n1", signed), .move 0 true, .move 0 true,
        .move 0 true, .move 0 true, .move 0 true, .move 0 true, .move 0 true] ++
        [.enter ("n1", signed), .move 1 true])).isSome ∧
    SingleUse someSettings (Db.init oneKey (fun _ => false) 0)
      [.env (.pendingInsert "n1" oneChallenge), .enter ("n1", signed), .move 0 true, .move 0 true,
        .move 0 true, .move 0 true, .move 0 true, .move 0 true, .move 0 true]
      [.enter ("n1", signed), .move 1 true] :=
  ⟨rfl, single_use_of_not_raced _ _ _ _ _ _ (by decide)⟩

end Portal.Passkeys
