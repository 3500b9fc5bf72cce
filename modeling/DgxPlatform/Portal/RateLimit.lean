import DgxPlatform.Lib.Calls

/-! # The per-account rate limit

`guards::rate_limited` for one account and one bucket, statement by statement: the
clock, the conditional upsert, the read of `first_at`, and the reopening of the
window, which writes whatever the row is by then. Any number of calls run between
each other's statements, each with the clock reading it started with. Instants and the
window are microseconds.

* `limiter` is the machine of the calls over the row of `login_attempts`.

Clock readings that lie within one window then see two windows at most, the one that
was open and the one opened after it, and each of them accepts `max` calls at most
(`accepted_le_of_reopens_expired`). Two calls that have both read an expired row reset
the counter one after the other (`idle_burst_accepted`).
-/

namespace Portal.Guards

open Run Calls

/-- The row of `login_attempts` under the key `<bucket>|<username>`. -/
structure Row where
  fails : Nat
  firstAt : Nat
deriving DecidableEq, Repr

/-- How far a call is, with the `first_at` it has read. -/
inductive Pc where
  | upsert
  | read
  | reopen
  /-- the seconds to wait, 0 when the request is counted -/
  | answered (wait : Int)
  | failed
deriving DecidableEq, Repr

/-- A call, with the clock it has read. `window` records the window that counts it;
no statement reads it. -/
structure Call where
  now : Nat
  pc : Pc
  window : Option Nat
deriving DecidableEq, Repr

section Statements

variable (max window : Nat)

/-- `INSERT … ON CONFLICT(key) DO UPDATE SET fails=fails+1 WHERE first_at > now - window
AND fails < max`: the row, and the rows affected. -/
def upsert (now : Nat) : Option Row → Row × Nat
  | none => (⟨1, now⟩, 1)
  | some r =>
      if (now : Int) - window < r.firstAt ∧ r.fails < max then ({ r with fails := r.fails + 1 }, 1)
      else (r, 0)

/-- The window that was read has not run out. -/
def windowOpen (now first : Nat) : Prop := (now : Int) - first ≤ window

instance (now first : Nat) : Decidable (windowOpen window now first) :=
  inferInstanceAs (Decidable (_ ≤ _))

/-- The whole seconds left of the window, one at least. -/
def secondsToWait (now first : Nat) : Int :=
  Max.max (((window : Int) - ((now : Int) - first)) / 1000000) 1

/-- The next statement of a call; `ok` is whether the database answers. -/
def move (row : Option Row) (c : Call) (ok : Bool) : Option (Option Row × Call) :=
  match c.pc, ok with
  | .upsert, true =>
      match upsert max window c.now row with
      | (r, 0) => some (some r, { c with pc := .read })
      | (r, _) => some (some r, { c with pc := .answered 0, window := some r.firstAt })
  | .read, true =>
      match row with
      | some r =>
          if windowOpen window c.now r.firstAt then
            some (row, { c with pc := .answered (secondsToWait window c.now r.firstAt) })
          else some (row, { c with pc := .reopen })
      | none => some (row, { c with pc := .reopen })
  -- whatever the row is by now
  | .reopen, true =>
      some (row.map fun _ => ⟨1, c.now⟩, { c with pc := .answered 0, window := some c.now })
  | .upsert, false => some (row, { c with pc := .failed })
  | .read, false => some (row, { c with pc := .failed })
  | .reopen, false => some (row, { c with pc := .failed })
  | _, _ => none

/-- Any number of calls for one account and bucket. A call is begun with its clock
reading. -/
def limiter : Machine (Option Row) Nat Call Bool Empty where
  first := fun now => ⟨now, .upsert, none⟩
  move := move max window
  env := fun _ e => e.elim

end Statements

/-- The call was answered 0. -/
def Call.accepted (c : Call) : Nat := if c.pc = .answered 0 then 1 else 0

/-- The call was answered 0 and counted in the window opened at `w`. -/
def Call.acceptedIn (w : Nat) (c : Call) : Nat :=
  if c.pc = .answered 0 ∧ c.window = some w then 1 else 0

def accepted (s : Conf (Option Row) Call) : Nat := total Call.accepted s.calls

def acceptedIn (w : Nat) (s : Conf (Option Row) Call) : Nat := total (Call.acceptedIn w) s.calls

/-- A reopening finds the row it has read about: its window has run out by the clock of
the call. -/
def reopensExpired (window : Nat) (s : Conf (Option Row) Call) : Act Nat Bool Empty → Prop
  | .move i true =>
      ∀ c ∈ s.calls[i]?, c.pc = .reopen →
        ∃ r ∈ s.shared, ¬ windowOpen window c.now r.firstAt
  | _ => True

instance (window : Nat) (s : Conf (Option Row) Call) :
    (a : Act Nat Bool Empty) → Decidable (reopensExpired window s a)
  | .move i true => inferInstanceAs (Decidable (∀ c ∈ s.calls[i]?, c.pc = .reopen →
      ∃ r ∈ s.shared, ¬ windowOpen window c.now r.firstAt))
  | .move _ false => .isTrue trivial
  | .enter _ => .isTrue trivial
  | .env _ => .isTrue trivial

/-! ## What a statement does -/

variable {max window T : Nat} {row row' : Option Row} {c c' : Call} {ok : Bool}

/-- A statement accepts nobody and leaves the row alone, or counts its call in the
window that is open, or opens a window. -/
inductive LimiterMove (max : Nat) (row : Option Row) (c : Call) : Bool → Option Row → Call → Prop
  | quiet (ok : Bool) (c' : Call) (hnow : c'.now = c.now) (hpc : c.pc ≠ .answered 0)
      (hpc' : c'.pc ≠ .answered 0) : LimiterMove max row c ok row c'
  | inserted (hrow : row = none) (hpc : c.pc ≠ .answered 0) :
      LimiterMove max row c true (some ⟨1, c.now⟩)
        { c with pc := .answered 0, window := some c.now }
  | counted (r : Row) (hrow : row = some r) (hpc : c.pc ≠ .answered 0) (hfree : r.fails < max) :
      LimiterMove max row c true (some { r with fails := r.fails + 1 })
        { c with pc := .answered 0, window := some r.firstAt }
  | reopened (hpc : c.pc = .reopen) :
      LimiterMove max row c true (row.map fun _ => ⟨1, c.now⟩)
        { c with pc := .answered 0, window := some c.now }

theorem one_le_secondsToWait (window now first : Nat) : 1 ≤ secondsToWait window now first := by
  unfold secondsToWait
  exact Int.le_max_right _ _

theorem limiterMove_of_move (h : move max window row c ok = some (row', c')) :
    LimiterMove max row c ok row' c' := by
  unfold move at h
  split at h
  · next hpc =>
      have hne : c.pc ≠ .answered 0 := by rw [hpc]; simp
      cases row with
      | none =>
        cases h
        exact .inserted rfl hne
      | some r =>
        by_cases hcond : (c.now : Int) - window < r.firstAt ∧ r.fails < max
        · simp only [upsert, if_pos hcond] at h
          cases h
          exact .counted r rfl hne hcond.2
        · simp only [upsert, if_neg hcond] at h
          cases h
          exact .quiet true _ rfl hne (by simp)
  · next hpc =>
      have hne : c.pc ≠ .answered 0 := by rw [hpc]; simp
      split at h
      · next r =>
          split at h
          · cases h
            -- a wait is never the answer 0
            have hwait := one_le_secondsToWait window c.now r.firstAt
            refine .quiet true _ rfl hne ?_
            intro h0
            have hzero : secondsToWait window c.now r.firstAt = 0 := Pc.answered.inj h0
            omega
          · cases h
            exact .quiet true _ rfl hne (by simp)
      · cases h
        exact .quiet true _ rfl hne (by simp)
  · next hpc =>
      cases h
      exact .reopened hpc
  · next hpc =>
      cases h
      exact .quiet false _ rfl (by rw [hpc]; simp) (by simp)
  · next hpc =>
      cases h
      exact .quiet false _ rfl (by rw [hpc]; simp) (by simp)
  · next hpc =>
      cases h
      exact .quiet false _ rfl (by rw [hpc]; simp) (by simp)
  · cases h

/-! ## The invariant -/

/-- The row counts the calls accepted in its window, and `max` of them at most. Before
the window is reopened nobody is accepted elsewhere; afterwards its `first_at` is one of
the clock readings, and the window before it has accepted `max` at most. -/
structure Limited (max window T : Nat) (s : Conf (Option Row) Call) : Prop where
  absent : s.shared = none → accepted s = 0
  counts : ∀ r ∈ s.shared, acceptedIn r.firstAt s ≤ r.fails
  bounded : ∀ r ∈ s.shared, 0 < acceptedIn r.firstAt s → r.fails ≤ max
  windows : ∀ r ∈ s.shared, accepted s = acceptedIn r.firstAt s ∨
    (T ≤ r.firstAt ∧ accepted s ≤ max + acceptedIn r.firstAt s)
  each : ∀ w, acceptedIn w s ≤ max
  clocks : ∀ c ∈ s.calls, T ≤ c.now ∧ c.now ≤ T + window

variable {s s' : Conf (Option Row) Call} {i : Nat}

theorem limited_init (max window T : Nat) (row : Option Row) :
    Limited max window T (Conf.init row) where
  absent _ := rfl
  counts _ _ := Nat.zero_le _
  bounded _ _ h := absurd h (Nat.lt_irrefl 0)
  windows _ _ := Or.inl rfl
  each _ := Nat.zero_le _
  clocks := by simp [Conf.init]

theorem acceptedIn_add_le {w w' : Nat} (h : w ≠ w') (s : Conf (Option Row) Call) :
    acceptedIn w s + acceptedIn w' s ≤ accepted s := by
  unfold acceptedIn accepted
  rw [← total_add]
  refine total_le_total fun c _ => ?_
  unfold Call.acceptedIn Call.accepted
  split_ifs <;> simp_all

/-- An accepted call adds one to its window and to the sum, and nothing elsewhere. -/
theorem accepted_set (hc : s.calls[i]? = some c) (hpc : c.pc ≠ .answered 0) (row' : Option Row)
    (w : Nat) :
    accepted ⟨row', s.calls.set i { c with pc := .answered 0, window := some w }⟩
      = accepted s + 1 := by
  have hset := total_set Call.accepted hc { c with pc := .answered 0, window := some w }
  simpa [accepted, Call.accepted, hpc] using hset

theorem acceptedIn_set (hc : s.calls[i]? = some c) (hpc : c.pc ≠ .answered 0) (row' : Option Row)
    (w w' : Nat) :
    acceptedIn w' ⟨row', s.calls.set i { c with pc := .answered 0, window := some w }⟩
      = acceptedIn w' s + if w = w' then 1 else 0 := by
  have hset := total_set (Call.acceptedIn w') hc { c with pc := .answered 0, window := some w }
  simpa [acceptedIn, Call.acceptedIn, hpc] using hset

theorem limited_enter (h : Limited max window T s) {now : Nat} (hT : T ≤ now)
    (hnow : now ≤ T + window) :
    Limited max window T { s with calls := s.calls ++ [⟨now, .upsert, none⟩] } := by
  have hsum : accepted { s with calls := s.calls ++ [⟨now, .upsert, none⟩] } = accepted s := by
    simp [accepted, Call.accepted]
  have hin : ∀ w, acceptedIn w { s with calls := s.calls ++ [⟨now, .upsert, none⟩] }
      = acceptedIn w s := by
    intro w
    simp [acceptedIn, Call.acceptedIn]
  constructor
  · simpa only [hsum] using h.absent
  · simpa only [hin] using h.counts
  · simpa only [hin] using h.bounded
  · simpa only [hsum, hin] using h.windows
  · simpa only [hin] using h.each
  · exact forall_append h.clocks ⟨hT, hnow⟩

theorem limited_quiet (h : Limited max window T s) (hc : s.calls[i]? = some c)
    (hnow : c'.now = c.now) (hpc : c.pc ≠ .answered 0) (hpc' : c'.pc ≠ .answered 0) :
    Limited max window T ⟨s.shared, s.calls.set i c'⟩ := by
  have hsum : accepted ⟨s.shared, s.calls.set i c'⟩ = accepted s :=
    total_set_of_eq Call.accepted hc c' (by simp [Call.accepted, hpc, hpc'])
  have hin : ∀ w, acceptedIn w ⟨s.shared, s.calls.set i c'⟩ = acceptedIn w s := fun w =>
    total_set_of_eq (Call.acceptedIn w) hc c' (by simp [Call.acceptedIn, hpc, hpc'])
  constructor
  · simpa only [hsum] using h.absent
  · simpa only [hin] using h.counts
  · simpa only [hin] using h.bounded
  · simpa only [hsum, hin] using h.windows
  · simpa only [hin] using h.each
  · exact forall_set h.clocks (hnow ▸ h.clocks c (List.mem_of_getElem? hc))

theorem limited_inserted (h : Limited max window T s) (hmax : 1 ≤ max)
    (hc : s.calls[i]? = some c) (hrow : s.shared = none) (hpc : c.pc ≠ .answered 0) :
    Limited max window T
      ⟨some ⟨1, c.now⟩, s.calls.set i { c with pc := .answered 0, window := some c.now }⟩ := by
  have hzero := h.absent hrow
  have hin : ∀ w, acceptedIn w s = 0 := by
    intro w
    have hne : w ≠ w + 1 := by omega
    have hle := acceptedIn_add_le hne s
    omega
  constructor
  · intro habs
    cases habs
  · rintro r ⟨⟩
    simp [acceptedIn_set hc hpc, hin]
  · rintro r ⟨⟩ -
    exact hmax
  · rintro r ⟨⟩
    left
    simp [acceptedIn_set hc hpc, accepted_set hc hpc, hin, hzero]
  · intro w
    rw [acceptedIn_set hc hpc, hin]
    split <;> omega
  · exact forall_set h.clocks (h.clocks c (List.mem_of_getElem? hc))

theorem limited_counted (h : Limited max window T s) {r : Row} (hc : s.calls[i]? = some c)
    (hrow : s.shared = some r) (hpc : c.pc ≠ .answered 0) (hfree : r.fails < max) :
    Limited max window T ⟨some { r with fails := r.fails + 1 },
      s.calls.set i { c with pc := .answered 0, window := some r.firstAt }⟩ := by
  have hcount := h.counts r hrow
  have hwin := h.windows r hrow
  constructor
  · intro habs
    cases habs
  · rintro q ⟨⟩
    simp only [acceptedIn_set hc hpc, if_true]
    omega
  · rintro q ⟨⟩ -
    exact hfree
  · rintro q ⟨⟩
    simp only [acceptedIn_set hc hpc, accepted_set hc hpc, if_true]
    omega
  · intro w
    have hw := h.each w
    rw [acceptedIn_set hc hpc]
    by_cases hr : r.firstAt = w
    · subst hr
      simp only [if_true]
      omega
    · simpa [hr] using hw
  · exact forall_set h.clocks (h.clocks c (List.mem_of_getElem? hc))

/-- A reopening of an expired window: everybody was accepted in that window, which is
older than all clock readings. -/
theorem limited_reopened (h : Limited max window T s) (hmax : 1 ≤ max) {r : Row}
    (hc : s.calls[i]? = some c) (hrow : s.shared = some r) (hpc : c.pc ≠ .answered 0)
    (hexp : ¬ windowOpen window c.now r.firstAt) :
    Limited max window T
      ⟨some ⟨1, c.now⟩, s.calls.set i { c with pc := .answered 0, window := some c.now }⟩ := by
  obtain ⟨hT, hnow⟩ := h.clocks c (List.mem_of_getElem? hc)
  unfold windowOpen at hexp
  have hold : accepted s = acceptedIn r.firstAt s := by
    rcases h.windows r hrow with heq | ⟨hfirst, -⟩
    · exact heq
    · omega
  have hne : r.firstAt ≠ c.now := by omega
  -- nobody is counted in the window that is opened now
  have hnew : acceptedIn c.now s = 0 := by
    have hle := acceptedIn_add_le hne s
    omega
  have hmaxOld := h.each r.firstAt
  constructor
  · intro habs
    cases habs
  · rintro q ⟨⟩
    simp [acceptedIn_set hc hpc, hnew]
  · rintro q ⟨⟩ -
    exact hmax
  · rintro q ⟨⟩
    right
    simp only [acceptedIn_set hc hpc, accepted_set hc hpc, if_true]
    omega
  · intro w
    have hw := h.each w
    rw [acceptedIn_set hc hpc]
    by_cases hr : c.now = w
    · subst hr
      simp only [if_true]
      omega
    · simpa [hr] using hw
  · exact forall_set h.clocks ⟨hT, hnow⟩

/-! ## Runs -/

/-- The clock readings of a run lie between `T` and `T + window`. -/
def readsWithin (window T : Nat) : Act Nat Bool Empty → Prop
  | .enter now => T ≤ now ∧ now ≤ T + window
  | _ => True

theorem limited_step (h : Limited max window T s) (hmax : 1 ≤ max) {a : Act Nat Bool Empty}
    (hclock : readsWithin window T a) (hG : reopensExpired window s a)
    (hs : (limiter max window).step s a = some s') : Limited max window T s' := by
  cases a with
  | enter now =>
    cases hs
    exact limited_enter h hclock.1 hclock.2
  | move i ok =>
    obtain ⟨c, row', c', hc, hm, rfl⟩ := Machine.step_move hs
    cases limiterMove_of_move hm with
    | quiet _ _ hnow hpc hpc' => exact limited_quiet h hc hnow hpc hpc'
    | inserted hrow hpc => exact limited_inserted h hmax hc hrow hpc
    | counted r hrow hpc hfree => exact limited_counted h hc hrow hpc hfree
    | reopened hpc =>
      obtain ⟨r, hr, hexp⟩ := hG c hc hpc
      rw [Option.mem_def.1 hr]
      exact limited_reopened h hmax hc hr (by rw [hpc]; simp) hexp
  | env e => exact e.elim

/-- What the limit promises: `max` calls in each window, and no third window. -/
def Bounded (max : Nat) (s : Conf (Option Row) Call) : Prop :=
  accepted s ≤ 2 * max ∧ ∀ w, acceptedIn w s ≤ max

theorem Limited.bounded_run (h : Limited max window T s) : Bounded max s := by
  refine ⟨?_, h.each⟩
  cases hrow : s.shared with
  | none =>
    have hzero := h.absent hrow
    omega
  | some r =>
    have heach := h.each r.firstAt
    have hwin := h.windows r hrow
    omega

/-- Whatever the row is at first: calls whose clock readings lie within one window, and
whose reopenings all find the window expired, are accepted `2 * max` times at most. -/
theorem accepted_le_of_reopens_expired (hmax : 1 ≤ max) (row : Option Row)
    {acts : List (Act Nat Bool Empty)} (hclock : ∀ a ∈ acts, readsWithin window T a)
    (hG : Meets (limiter max window).step (reopensExpired window) (Conf.init row) acts) :
    Always (limiter max window).step (Bounded max) (Conf.init row) acts :=
  always_of_meets (fun _ h => h.bounded_run)
    (fun _ _ _ h hG hs => limited_step h hmax hG.1 hG.2 hs) (limited_init max window T row)
    (meets_of_forall hclock hG)

/-- One call after the other, an hour after the last window. -/
def oneByOne : List (Act Nat Bool Empty) :=
  [.enter 3600000000, .move 0 true, .move 0 true, .move 0 true, .enter 3600000001, .move 1 true]

theorem accepted_le_one_by_one :
    (1 ≤ 2 ∧ (∀ a ∈ oneByOne, readsWithin 60000000 3600000000 a) ∧
      Meets (limiter 2 60000000).step (reopensExpired 60000000) (Conf.init (some ⟨2, 0⟩)) oneByOne) ∧
    Always (limiter 2 60000000).step (Bounded 2) (Conf.init (some ⟨2, 0⟩)) oneByOne := by
  have hclock : ∀ a ∈ oneByOne, readsWithin 60000000 3600000000 a := by
    simp [oneByOne, readsWithin]
  have hG : Meets (limiter 2 60000000).step (reopensExpired 60000000) (Conf.init (some ⟨2, 0⟩))
      oneByOne := by
    decide
  exact ⟨⟨by decide, hclock, hG⟩, accepted_le_of_reopens_expired (by decide) _ hclock hG⟩

/-- Three calls that arrive together an hour after the last window. -/
def idleBurst : List (Act Nat Bool Empty) :=
  [.enter 3600000000, .enter 3600000000, .enter 3600000000,
    .move 0 true, .move 1 true, .move 2 true, .move 0 true, .move 1 true, .move 2 true,
    .move 0 true, .move 1 true, .move 2 true]

theorem idle_burst_accepted :
    (∀ a ∈ idleBurst, readsWithin 60000000 3600000000 a) ∧
    ∃ s, exec (limiter 1 60000000).step (Conf.init (some ⟨1, 0⟩)) idleBurst = some s ∧
      accepted s = 3 ∧ ¬ accepted s ≤ 2 * 1 := by
  refine ⟨by simp [idleBurst, readsWithin], _, rfl, rfl, ?_⟩
  decide

end Portal.Guards
