import DgxPlatform.Lib.Calls
import DgxPlatform.Portal.Basic
import Mathlib.Logic.Function.Basic

/-! # The login lockout

Sign-in attempts with a wrong password on one username, as the source runs them:
the locks are read first, the password is checked, and only then the failure is
counted, under the key of the address and under the key of the user, each time by
a read and a later write.

* `Attempt` is `login`, or `verify_password_locked`, which knows the user key only.

The counter follows the attempts, six of them at most reach the password, and a
lock stays, as long as the attempts leave each other room: no counter changes
between an attempt's read and its write or is read out of its window; while the
user key is not locked, few enough attempts have read it and are not counted yet;
a lock that was read is judged before its deadline; and the lock of an address
refuses nobody before the user key counts six. The sixth failure then locks the
key (`locked_iff_failRow`), and the lock stops the seventh attempt.
-/

namespace Portal.Login

open Run Calls

def LOGIN_MAX_FAILS : Nat := 6

def LOGIN_WINDOW : Time := 900 * 1000000

def LOGIN_LOCK : Time := 900 * 1000000

/-- The keys of `login_attempts` for one username: `<ip>|<username>` for each
address, and `user:<username>`. -/
inductive Key where
  | ip (address : String)
  | user
deriving DecidableEq, Repr

/-- A row of `login_attempts`. -/
structure Row where
  fails : Nat
  firstAt : Time
  lockedUntil : Time
deriving DecidableEq, Repr

/-- The table and the clock. -/
structure Db where
  rows : Key → Option Row
  now : Time

/-- `INSERT … ON CONFLICT(key) DO UPDATE`. -/
def Db.write (s : Db) (key : Key) (row : Row) : Db :=
  { s with rows := Function.update s.rows key (some row) }

@[simp] theorem write_rows_self (s : Db) (key : Key) (row : Row) :
    (s.write key row).rows key = some row := Function.update_self ..

@[simp] theorem write_rows_of_ne (s : Db) {key k : Key} (h : k ≠ key) (row : Row) :
    (s.write key row).rows k = s.rows k := Function.update_of_ne h ..

/-- `locked`: the whole seconds of lock left, from the deadline that was read. -/
def secondsLeft (lockedUntil : Option Time) (now : Time) : Nat :=
  match lockedUntil with
  | some u => if u ≠ 0 then (u - now) / 1000000 else 0
  | none => 0

/-- `fail`: the row to write, from the row that was read. The failures count
within the window, and the sixth locks. -/
def failRow (row : Option Row) (t : Time) : Row :=
  let counted : Nat × Time :=
    match row with
    | some r => if t - r.firstAt ≤ LOGIN_WINDOW then (r.fails + 1, r.firstAt) else (1, t)
    | none => (1, t)
  ⟨counted.1, counted.2, if LOGIN_MAX_FAILS ≤ counted.1 then t + LOGIN_LOCK else 0⟩

/-! ## The attempts -/

/-- Where the password is asked: the login page, from an address, or
`verify_password_locked`. -/
inductive Origin where
  | login (address : String)
  | verify
deriving DecidableEq, Repr

/-- How far an attempt is, with what it has read. -/
inductive Pc where
  | readIpLock
  | ipLock (lockedUntil : Option Time)
  | readUserLock
  | userLock (lockedUntil : Option Time)
  | checkPassword
  | failClock (key : Key)
  | failRead (key : Key) (t : Time)
  | failWrite (key : Key) (t : Time) (row : Option Row)
  | refused
  | failed
deriving DecidableEq, Repr

structure Attempt where
  origin : Origin
  pc : Pc
deriving DecidableEq, Repr

def Attempt.goto (a : Attempt) (pc : Pc) : Attempt := { a with pc := pc }

/-- `verify_password_locked` has no address to look at. -/
def firstPc : Origin → Pc
  | .login _ => .readIpLock
  | .verify => .readUserLock

/-- The first counter of a failure: the address's, if there is one. -/
def firstKey : Origin → Key
  | .login address => .ip address
  | .verify => .user

/-- What follows the write of one counter. -/
def afterWrite : Key → Pc
  | .ip _ => .failClock .user
  | .user => .failed

/-- The next await of an attempt with a wrong password. -/
def attemptMove (s : Db) (a : Attempt) : Option (Db × Attempt) :=
  match a.pc with
  | .readIpLock => some (s, a.goto (.ipLock ((s.rows (firstKey a.origin)).map Row.lockedUntil)))
  | .ipLock u =>
      if 0 < secondsLeft u s.now then some (s, a.goto .refused) else some (s, a.goto .readUserLock)
  | .readUserLock => some (s, a.goto (.userLock ((s.rows .user).map Row.lockedUntil)))
  | .userLock u =>
      if 0 < secondsLeft u s.now then some (s, a.goto .refused) else some (s, a.goto .checkPassword)
  -- the hash takes its time, the table is not looked at again
  | .checkPassword => some (s, a.goto (.failClock (firstKey a.origin)))
  | .failClock key => some (s, a.goto (.failRead key s.now))
  | .failRead key t => some (s, a.goto (.failWrite key t (s.rows key)))
  -- whatever the row is by now
  | .failWrite key t row =>
      some (s.write key (failRow row t), a.goto (afterWrite key))
  | .refused => none
  | .failed => none

/-- The attempts, and a clock that moves on. -/
def lockout : Machine Db Origin Attempt Unit Time where
  first := fun o => ⟨o, firstPc o⟩
  move := fun s a _ => attemptMove s a
  env := fun s t => if s.now ≤ t then some { s with now := t } else none

/-- No failure is counted yet. -/
def Db.init (now : Time) : Db := ⟨fun _ => none, now⟩

/-- The failures counted under a key. -/
def Db.fails (s : Db) (key : Key) : Nat := ((s.rows key).map Row.fails).getD 0

/-! ## The property and the condition -/

/-- Whether the attempt has been answered. -/
def Attempt.answered (a : Attempt) : Nat :=
  match a.pc with
  | .refused => 1
  | .failed => 1
  | _ => 0

/-- Whether the attempt has reached the password. -/
def Attempt.reached (a : Attempt) : Nat :=
  match a.pc with
  | .checkPassword => 1
  | .failClock _ => 1
  | .failRead _ _ => 1
  | .failWrite _ _ _ => 1
  | .failed => 1
  | _ => 0

/-- After `k ≤ LOGIN_MAX_FAILS` answered attempts the user key counts `k`, at most
`LOGIN_MAX_FAILS` attempts have reached the password, and a lock found at any
moment of the run is still there at the end. -/
def NotOutrun (start : Time) (before after : List (Act Origin Unit Time)) : Prop :=
  ∀ m s, exec lockout.step (Conf.init (Db.init start)) before = some m →
    exec lockout.step m after = some s →
    (total Attempt.answered s.calls ≤ LOGIN_MAX_FAILS →
      s.shared.fails .user = total Attempt.answered s.calls) ∧
    total Attempt.reached s.calls ≤ LOGIN_MAX_FAILS ∧
    ∀ key r, m.shared.rows key = some r → 0 < r.lockedUntil →
      ∃ r', s.shared.rows key = some r' ∧ r.lockedUntil ≤ r'.lockedUntil

/-- Whether the attempt has read that the user key is not locked, and its failure
is not counted there yet. -/
def Attempt.uncounted (a : Attempt) : Nat :=
  match a.pc with
  | .userLock u => if u.getD 0 = 0 then 1 else 0
  | .checkPassword => 1
  | .failClock _ => 1
  | .failRead _ _ => 1
  | .failWrite _ _ _ => 1
  | _ => 0

/-- The user key is read with fewer attempts under way than failures left to the
limit, a lock is judged before its deadline, an address's lock refuses nobody
before the limit; a counter is read within its window, and it is written while it
is still the one that was read. -/
def leavesRoom (s : Conf Db Attempt) : Act Origin Unit Time → Prop
  | .move i _ =>
      match s.calls[i]? with
      | none => True
      | some a =>
          match a.pc with
          | .ipLock u =>
              0 < secondsLeft u s.shared.now → LOGIN_MAX_FAILS ≤ s.shared.fails .user
          | .readUserLock =>
              s.shared.fails .user < LOGIN_MAX_FAILS →
                total Attempt.uncounted s.calls < LOGIN_MAX_FAILS - s.shared.fails .user
          | .userLock u => u.getD 0 ≠ 0 → 0 < secondsLeft u s.shared.now
          | .failRead key t => ∀ r ∈ s.shared.rows key, t - r.firstAt ≤ LOGIN_WINDOW
          | .failWrite key _ row => s.shared.rows key = row
          | _ => True
  | _ => True

instance (s : Conf Db Attempt) (a : Act Origin Unit Time) : Decidable (leavesRoom s a) := by
  unfold leavesRoom
  split
  · split
    · infer_instance
    · split <;> infer_instance
  · infer_instance

/-! ## The weights of an attempt -/

/-- Whether the attempt has counted its failure under a key: the address's counter
is written first, the user's last. -/
def Attempt.wrote (key : Key) (a : Attempt) : Nat :=
  match a.pc with
  | .failed => if key = .user ∨ key = firstKey a.origin then 1 else 0
  | .failClock .user => if key ≠ .user ∧ key = firstKey a.origin then 1 else 0
  | .failRead .user _ => if key ≠ .user ∧ key = firstKey a.origin then 1 else 0
  | .failWrite .user _ _ => if key ≠ .user ∧ key = firstKey a.origin then 1 else 0
  | _ => 0

def Attempt.isRefused (a : Attempt) : Nat :=
  match a.pc with
  | .refused => 1
  | _ => 0

/-- The attempt takes one of the places before the limit: it is counted under the
user key, or found it without a lock. -/
def Attempt.place (a : Attempt) : Nat := a.uncounted + a.wrote .user

/-- The attempt has read a lock, or was refused by one. -/
def Attempt.SawLock (a : Attempt) : Prop :=
  match a.pc with
  | .userLock u => u.getD 0 ≠ 0
  | .refused => True
  | _ => False

/-- What an attempt relies on: it counts under its own keys, and the row it is
about to replace was within its window. -/
def Attempt.Ok (a : Attempt) : Prop :=
  match a.pc with
  | .failClock key => key = .user ∨ key = firstKey a.origin
  | .failRead key _ => key = .user ∨ key = firstKey a.origin
  | .failWrite key t row =>
      (key = .user ∨ key = firstKey a.origin) ∧ ∀ r ∈ row, t - r.firstAt ≤ LOGIN_WINDOW
  | _ => True

theorem answered_eq (a : Attempt) : a.answered = a.isRefused + a.wrote .user := by
  rcases a with ⟨o, pc⟩
  cases pc with
  -- the user key is counted last, so only its own positions matter
  | failClock k | failRead k _ | failWrite k _ _ =>
    cases k <;> simp [Attempt.answered, Attempt.isRefused, Attempt.wrote]
  | _ => simp [Attempt.answered, Attempt.isRefused, Attempt.wrote]

theorem reached_le_place (a : Attempt) : a.reached ≤ a.place := by
  rcases a with ⟨o, pc⟩
  cases pc with
  | failed => simp [Attempt.reached, Attempt.place, Attempt.wrote]
  | _ => simp [Attempt.reached, Attempt.place, Attempt.uncounted]

theorem wrote_le_reached (key : Key) (a : Attempt) : a.wrote key ≤ a.reached := by
  rcases a with ⟨o, pc⟩
  cases pc with
  | failClock k | failRead k _ | failWrite k _ _ =>
    cases k
    · exact Nat.zero_le _
    · simp only [Attempt.wrote, Attempt.reached]
      split <;> omega
  | failed =>
    simp only [Attempt.wrote, Attempt.reached]
    split <;> omega
  | _ => exact Nat.zero_le _

/-- The write of a counter, in the weights: one more failure under that key, and
under no other. -/
theorem wrote_afterWrite {a : Attempt} {key : Key} {t : Time} {row : Option Row}
    (hpc : a.pc = .failWrite key t row) (hkey : key = .user ∨ key = firstKey a.origin) (k : Key) :
    (a.goto (afterWrite key)).wrote k = a.wrote k + if k = key then 1 else 0 := by
  rcases a with ⟨o, pc⟩
  obtain rfl : pc = .failWrite key t row := hpc
  cases key with
  | user =>
    by_cases hk : k = .user
    · simp [Attempt.wrote, Attempt.goto, afterWrite, hk]
    · simp [Attempt.wrote, Attempt.goto, afterWrite, hk]
  | ip address =>
    -- an address's counter is written by a login from that address
    have hfirst : firstKey o = .ip address := by
      rcases hkey with h | h
      · cases h
      · exact h.symm
    by_cases hk : k = .ip address
    · simp [Attempt.wrote, Attempt.goto, afterWrite, hfirst, hk]
    · simp [Attempt.wrote, Attempt.goto, afterWrite, hfirst, hk]

theorem place_afterWrite {a : Attempt} {key : Key} {t : Time} {row : Option Row}
    (hpc : a.pc = .failWrite key t row) : (a.goto (afterWrite key)).place = a.place := by
  rcases a with ⟨o, pc⟩
  obtain rfl : pc = .failWrite key t row := hpc
  cases key <;> simp [Attempt.place, Attempt.uncounted, Attempt.wrote, Attempt.goto, afterWrite]

/-! ## The row a failure writes -/

theorem fails_failRow {row : Option Row} {t : Time}
    (h : ∀ r ∈ row, t - r.firstAt ≤ LOGIN_WINDOW) :
    (failRow row t).fails = (row.map Row.fails).getD 0 + 1 := by
  cases row with
  | none => rfl
  | some r => simp [failRow, h r rfl]

theorem locked_iff_failRow (row : Option Row) (t : Time) :
    0 < (failRow row t).lockedUntil ↔ LOGIN_MAX_FAILS ≤ (failRow row t).fails := by
  have hdeadline : (failRow row t).lockedUntil =
      if LOGIN_MAX_FAILS ≤ (failRow row t).fails then t + LOGIN_LOCK else 0 := rfl
  have hlock : 0 < t + LOGIN_LOCK := Nat.add_pos_right t (by decide)
  rw [hdeadline]
  split
  · next hfull => exact ⟨fun _ => hfull, fun _ => hlock⟩
  · next hfull => exact ⟨fun h => absurd h (Nat.lt_irrefl 0), fun h => absurd h hfull⟩

theorem ne_zero_of_secondsLeft {u : Option Time} {now : Time} (h : 0 < secondsLeft u now) :
    u.getD 0 ≠ 0 := by
  cases u with
  | none => exact absurd h (Nat.lt_irrefl 0)
  | some v =>
    intro hv
    obtain rfl : v = 0 := hv
    exact absurd h (Nat.lt_irrefl 0)

/-! ## What a move can do -/

/-- A move that neither reads the user's lock nor counts; a refusal is quiet when
the attempt has read a lock. -/
structure Quiet (a a' : Attempt) : Prop where
  wrote : ∀ key, a'.wrote key = a.wrote key
  uncounted : a'.uncounted = a.uncounted
  sawLock : a'.SawLock → a.SawLock

/-- An attempt moves on quietly, is refused by its address's lock, reads the
user's lock, passes a lock that has run out, or counts its failure. -/
theorem attemptMove_cases {s s' : Db} {a a' : Attempt} (h : attemptMove s a = some (s', a')) :
    (s' = s ∧ Quiet a a') ∨
    (s' = s ∧ a' = a.goto .refused ∧ ∃ u, a.pc = .ipLock u ∧ 0 < secondsLeft u s.now) ∨
    (s' = s ∧ a.pc = .readUserLock ∧
      a' = a.goto (.userLock ((s.rows .user).map Row.lockedUntil))) ∨
    (∃ u, a.pc = .userLock u ∧ u.getD 0 ≠ 0 ∧ ¬ 0 < secondsLeft u s.now) ∨
    (∃ key t row, a.pc = .failWrite key t row ∧ a' = a.goto (afterWrite key) ∧
      s' = s.write key (failRow row t)) := by
  rcases a with ⟨o, pc⟩
  cases pc with
  | readIpLock =>
    cases h
    exact Or.inl ⟨rfl, fun _ => rfl, rfl, id⟩
  | ipLock u =>
    simp only [attemptMove] at h
    split at h
    · next hu =>
        cases h
        exact Or.inr (Or.inl ⟨rfl, rfl, u, rfl, hu⟩)
    · cases h
      exact Or.inl ⟨rfl, fun _ => rfl, rfl, id⟩
  | readUserLock =>
    cases h
    exact Or.inr (Or.inr (Or.inl ⟨rfl, rfl, rfl⟩))
  | userLock u =>
    simp only [attemptMove] at h
    split at h
    · next hu =>
        -- refused: the lock that was read is no free place
        have hlock := ne_zero_of_secondsLeft hu
        cases h
        refine Or.inl ⟨rfl, fun _ => rfl, ?_, fun _ => hlock⟩
        simp [Attempt.uncounted, Attempt.goto, hlock]
    · next hu =>
        by_cases hlock : u.getD 0 = 0
        · cases h
          refine Or.inl ⟨rfl, fun _ => rfl, ?_, False.elim⟩
          simp [Attempt.uncounted, Attempt.goto, hlock]
        · exact Or.inr (Or.inr (Or.inr (Or.inl ⟨u, rfl, hlock, hu⟩)))
  | checkPassword =>
    cases h
    refine Or.inl ⟨rfl, fun key => ?_, rfl, id⟩
    cases o with
    | login address => rfl
    | verify =>
      show (if key ≠ Key.user ∧ key = Key.user then 1 else 0) = 0
      exact if_neg fun hk => hk.1 hk.2
  | failClock key =>
    cases h
    exact Or.inl ⟨rfl, fun _ => by cases key <;> rfl, rfl, id⟩
  | failRead key t =>
    cases h
    exact Or.inl ⟨rfl, fun _ => by cases key <;> rfl, rfl, id⟩
  | failWrite key t row =>
    cases h
    exact Or.inr (Or.inr (Or.inr (Or.inr ⟨key, t, row, rfl, rfl, rfl⟩)))
  | refused => cases h
  | failed => cases h

theorem ok_move {s s' : Db} {a a' : Attempt} (ha : a.Ok)
    (hwindow : ∀ key t, a.pc = .failRead key t → ∀ r ∈ s.rows key, t - r.firstAt ≤ LOGIN_WINDOW)
    (h : attemptMove s a = some (s', a')) : a'.Ok := by
  rcases a with ⟨o, pc⟩
  cases pc with
  | ipLock u | userLock u =>
    simp only [attemptMove] at h
    split at h <;> cases h <;> trivial
  | checkPassword =>
    cases h
    exact Or.inr rfl
  | failClock key =>
    cases h
    exact ha
  | failRead key t =>
    cases h
    exact ⟨ha, hwindow key t rfl⟩
  | failWrite key t row =>
    cases h
    cases key with
    | ip address => exact Or.inl rfl
    | user => trivial
  | readIpLock | readUserLock => cases h; trivial
  | refused | failed => cases h

/-! ## The invariant -/

/-- Every counter is the number of failures written under its key, at most
`LOGIN_MAX_FAILS` places are taken, a key is locked exactly when its counter is at
the limit, and whoever has seen a lock finds the user's counter there. -/
structure Counted (s : Conf Db Attempt) : Prop where
  fails : ∀ key, s.shared.fails key = total (Attempt.wrote key) s.calls
  room : total Attempt.place s.calls ≤ LOGIN_MAX_FAILS
  locked : ∀ key r, s.shared.rows key = some r → (0 < r.lockedUntil ↔ LOGIN_MAX_FAILS ≤ r.fails)
  seen : ∀ a ∈ s.calls, a.SawLock → LOGIN_MAX_FAILS ≤ s.shared.fails .user
  ok : ∀ a ∈ s.calls, a.Ok

theorem counted_init (start : Time) : Counted (Conf.init (Db.init start)) where
  fails _ := rfl
  room := Nat.zero_le _
  locked _ _ h := by cases h
  seen := by simp [Conf.init]
  ok := by simp [Conf.init]

/-- The user key reads as locked exactly when its counter is at the limit. -/
theorem Counted.userLock_iff {s : Conf Db Attempt} (hs : Counted s) :
    ((s.shared.rows .user).map Row.lockedUntil).getD 0 ≠ 0 ↔
      LOGIN_MAX_FAILS ≤ s.shared.fails .user := by
  unfold Db.fails
  cases hrow : s.shared.rows .user with
  | none => simp [LOGIN_MAX_FAILS]
  | some r => simpa [Nat.pos_iff_ne_zero] using hs.locked .user r hrow

section Moves

variable {s : Conf Db Attempt} {i : Nat} {a a' : Attempt}

theorem total_place (cs : List Attempt) :
    total Attempt.place cs = total Attempt.uncounted cs + total (Attempt.wrote .user) cs :=
  total_add Attempt.uncounted (Attempt.wrote .user) cs

theorem total_answered (cs : List Attempt) :
    total Attempt.answered cs = total Attempt.isRefused cs + total (Attempt.wrote .user) cs := by
  rw [← total_add]
  exact congrArg (total · cs) (funext answered_eq)

theorem counted_quiet (hs : Counted s) (hi : s.calls[i]? = some a) (hq : Quiet a a') (hok : a'.Ok) :
    Counted ⟨s.shared, s.calls.set i a'⟩ where
  fails key := by
    rw [total_set_of_eq _ hi a' (hq.wrote key)]
    exact hs.fails key
  room := by
    have hplace : a'.place = a.place := by
      rw [Attempt.place, Attempt.place, hq.uncounted, hq.wrote]
    rw [total_set_of_eq _ hi a' hplace]
    exact hs.room
  locked := hs.locked
  seen := forall_set hs.seen fun h => hs.seen a (List.mem_of_getElem? hi) (hq.sawLock h)
  ok := forall_set hs.ok hok

/-- A refusal by the lock of an address counts nothing; the limit is reached. -/
theorem counted_refuse {u : Option Time} (hs : Counted s) (hi : s.calls[i]? = some a)
    (hpc : a.pc = .ipLock u) (hfull : LOGIN_MAX_FAILS ≤ s.shared.fails .user) :
    Counted ⟨s.shared, s.calls.set i (a.goto .refused)⟩ where
  fails key := by
    have hw : (a.goto .refused).wrote key = a.wrote key := by
      simp [Attempt.wrote, Attempt.goto, hpc]
    rw [total_set_of_eq _ hi _ hw]
    exact hs.fails key
  room := by
    have hp : (a.goto .refused).place = a.place := by
      simp [Attempt.place, Attempt.uncounted, Attempt.wrote, Attempt.goto, hpc]
    rw [total_set_of_eq _ hi _ hp]
    exact hs.room
  locked := hs.locked
  seen := forall_set hs.seen fun _ => hfull
  ok := forall_set hs.ok trivial

/-- Reading the user's lock: below the limit it takes a place, and there is one
left; at the limit it reads a lock. -/
theorem counted_readUserLock (hs : Counted s) (hi : s.calls[i]? = some a)
    (hpc : a.pc = .readUserLock)
    (hroom : s.shared.fails .user < LOGIN_MAX_FAILS →
      total Attempt.uncounted s.calls < LOGIN_MAX_FAILS - s.shared.fails .user) :
    Counted ⟨s.shared,
      s.calls.set i (a.goto (.userLock ((s.shared.rows .user).map Row.lockedUntil)))⟩ where
  fails key := by
    have hw : (a.goto (.userLock ((s.shared.rows .user).map Row.lockedUntil))).wrote key =
        a.wrote key := by
      simp [Attempt.wrote, Attempt.goto, hpc]
    rw [total_set_of_eq _ hi _ hw]
    exact hs.fails key
  room := by
    have htot := total_set Attempt.place hi
      (a.goto (.userLock ((s.shared.rows .user).map Row.lockedUntil)))
    have hplaces := total_place s.calls
    have hfails := hs.fails .user
    have hle := hs.room
    have hold : a.place = 0 := by simp [Attempt.place, Attempt.uncounted, Attempt.wrote, hpc]
    by_cases hlock : ((s.shared.rows .user).map Row.lockedUntil).getD 0 = 0
    · -- no lock: the counter is below the limit
      have hbelow : s.shared.fails .user < LOGIN_MAX_FAILS := by
        by_contra hfull
        exact hs.userLock_iff.2 (not_lt.1 hfull) hlock
      have hfree := hroom hbelow
      have hnew : (a.goto (.userLock ((s.shared.rows .user).map Row.lockedUntil))).place = 1 := by
        simp [Attempt.place, Attempt.uncounted, Attempt.wrote, Attempt.goto, hlock]
      simp only
      omega
    · -- a lock: no place is taken
      have hnew : (a.goto (.userLock ((s.shared.rows .user).map Row.lockedUntil))).place = 0 := by
        simp [Attempt.place, Attempt.uncounted, Attempt.wrote, Attempt.goto, hlock]
      simp only
      omega
  locked := hs.locked
  seen := forall_set hs.seen fun h => hs.userLock_iff.1 h
  ok := forall_set hs.ok trivial

/-- An attempt that is about to count finds fewer than six failures under its key:
it has reached the password itself and is not among them. -/
theorem fails_lt_of_failWrite {key : Key} {t : Time} {row : Option Row} (hs : Counted s)
    (hi : s.calls[i]? = some a) (hpc : a.pc = .failWrite key t row) :
    s.shared.fails key < LOGIN_MAX_FAILS := by
  have hmem : a ∈ s.calls := List.mem_of_getElem? hi
  have hlt : a.wrote key < a.place := by
    rcases a with ⟨o, pc⟩
    obtain rfl : pc = .failWrite key t row := hpc
    cases key <;> simp [Attempt.wrote, Attempt.place, Attempt.uncounted]
  have hle : ∀ c ∈ s.calls, c.wrote key ≤ c.place := by
    intro c _
    exact (wrote_le_reached key c).trans (reached_le_place c)
  have htot := total_lt_total hle hmem hlt
  rw [hs.fails key]
  exact Nat.lt_of_lt_of_le htot hs.room

/-- Counting on the row that was read: one more failure under that key. -/
theorem counted_write {key : Key} {t : Time} {row : Option Row} (hs : Counted s)
    (hi : s.calls[i]? = some a) (hpc : a.pc = .failWrite key t row)
    (hrow : s.shared.rows key = row) :
    Counted ⟨s.shared.write key (failRow row t), s.calls.set i (a.goto (afterWrite key))⟩ := by
  have hok := hs.ok a (List.mem_of_getElem? hi)
  simp only [Attempt.Ok, hpc] at hok
  rcases hok with ⟨hkey, hwindow⟩
  -- the row that is replaced is the one that was read, and within its window
  have hfails : ∀ k, (s.shared.write key (failRow row t)).fails k =
      s.shared.fails k + if k = key then 1 else 0 := by
    intro k
    by_cases hk : k = key
    · subst hk
      simp [Db.fails, fails_failRow hwindow, hrow]
    · simp [Db.fails, hk]
  refine ⟨fun k => ?_, ?_, fun k r hr => ?_, forall_set (fun c hc h => ?_) fun h => ?_,
    forall_set hs.ok ?_⟩
  · have htot := total_set (Attempt.wrote k) hi (a.goto (afterWrite key))
    rw [wrote_afterWrite hpc hkey k] at htot
    have hk := hs.fails k
    rw [hfails k]
    simp only
    omega
  · rw [total_set_of_eq _ hi _ (place_afterWrite hpc)]
    exact hs.room
  · by_cases hk : k = key
    · subst hk
      rw [write_rows_self] at hr
      cases hr
      exact locked_iff_failRow row t
    · rw [write_rows_of_ne _ hk] at hr
      exact hs.locked k r hr
  · -- the user's counter does not fall
    have hfull := hs.seen c hc h
    rw [hfails .user]
    omega
  · cases key <;> cases h
  · cases key with
    | ip address => exact Or.inl rfl
    | user => trivial

end Moves

/-! ## Whole runs -/

/-- The locks of `s` are all in `s'`, none shorter. -/
def LocksKept (s s' : Db) : Prop :=
  ∀ key r, s.rows key = some r → 0 < r.lockedUntil →
    ∃ r', s'.rows key = some r' ∧ r.lockedUntil ≤ r'.lockedUntil

theorem LocksKept.refl (s : Db) : LocksKept s s := fun _ r hr _ => ⟨r, hr, Nat.le_refl _⟩

/-- A counter that is written holds fewer than six failures, so it is no lock. -/
theorem LocksKept.write {s₀ : Db} {s : Conf Db Attempt} {i : Nat} {a : Attempt} {key : Key}
    {t : Time} {row : Option Row} (h : LocksKept s₀ s.shared) (hs : Counted s)
    (hi : s.calls[i]? = some a) (hpc : a.pc = .failWrite key t row) :
    LocksKept s₀ (s.shared.write key (failRow row t)) := by
  intro k r hr hlock
  rcases h k r hr hlock with ⟨r', hr', hle⟩
  by_cases hk : k = key
  · subst hk
    have hfull := (hs.locked k r' hr').1 (Nat.lt_of_lt_of_le hlock hle)
    have hlt := fails_lt_of_failWrite hs hi hpc
    have hfails : s.shared.fails k = r'.fails := by simp [Db.fails, hr']
    omega
  · exact ⟨r', by rw [write_rows_of_ne _ hk]; exact hr', hle⟩

theorem counted_step {s₀ : Db} {s t : Conf Db Attempt} {b : Act Origin Unit Time}
    (hs : Counted s ∧ LocksKept s₀ s.shared) (hG : leavesRoom s b)
    (h : lockout.step s b = some t) : Counted t ∧ LocksKept s₀ t.shared := by
  rcases hs with ⟨hcount, hlocks⟩
  cases b with
  | enter o =>
    cases h
    refine ⟨⟨fun key => ?_, ?_, hcount.locked, forall_append hcount.seen fun hsaw => ?_,
      forall_append hcount.ok ?_⟩, hlocks⟩
    · have hnew : Attempt.wrote key ⟨o, firstPc o⟩ = 0 := by cases o <;> rfl
      simpa [lockout, hnew] using hcount.fails key
    · have hnew : Attempt.place ⟨o, firstPc o⟩ = 0 := by cases o <;> rfl
      simpa [lockout, hnew] using hcount.room
    · cases o <;> cases hsaw
    · cases o <;> trivial
  | env t =>
    rcases Machine.step_env h with ⟨s', he, rfl⟩
    simp only [lockout] at he
    split at he
    · cases he
      exact ⟨⟨hcount.fails, hcount.room, hcount.locked, hcount.seen, hcount.ok⟩, hlocks⟩
    · cases he
  | move i u =>
    rcases Machine.step_move h with ⟨a, s', a', hi, hm, rfl⟩
    simp only [leavesRoom, hi] at hG
    have hok : a'.Ok := by
      refine ok_move (hcount.ok a (List.mem_of_getElem? hi)) (fun key t hpc => ?_) hm
      simpa [hpc] using hG
    rcases attemptMove_cases hm with ⟨rfl, hq⟩ | ⟨rfl, rfl, u, hpc, hu⟩ | ⟨rfl, hpc, rfl⟩ |
      ⟨u, hpc, hlock, hu⟩ | ⟨key, t, row, hpc, rfl, rfl⟩
    · exact ⟨counted_quiet hcount hi hq hok, hlocks⟩
    · simp only [hpc] at hG
      exact ⟨counted_refuse hcount hi hpc (hG hu), hlocks⟩
    · simp only [hpc] at hG
      exact ⟨counted_readUserLock hcount hi hpc hG, hlocks⟩
    · -- no lock is judged after its deadline
      simp only [hpc] at hG
      exact absurd (hG hlock) hu
    · simp only [hpc] at hG
      exact ⟨counted_write hcount hi hpc hG, hlocks.write hcount hi hpc⟩

theorem Counted.isRefused_eq_zero {s : Conf Db Attempt} (hs : Counted s)
    (h : s.shared.fails .user < LOGIN_MAX_FAILS) : total Attempt.isRefused s.calls = 0 := by
  refine total_eq_zero _ fun a ha => ?_
  have hsaw : ¬ a.SawLock := fun hsaw => absurd (hs.seen a ha hsaw) (not_le.2 h)
  rcases a with ⟨o, pc⟩
  cases pc with
  | refused => exact absurd trivial hsaw
  | _ => rfl

/-- All the awaits of one failing attempt from the login page. -/
def wholeAttempt (i : Nat) : List (Act Origin Unit Time) := List.replicate 11 (.move i ())

/-- Seven attempts read the locks before the first failure is counted. -/
def sevenAtOnce : List (Act Origin Unit Time) :=
  List.replicate 7 (.enter (.login "10.0.0.1")) ++
    (List.range 7).flatMap fun i => List.replicate 4 (.move i ())

/-- Six attempts from one address, one after the other. -/
def sixInTurn : List (Act Origin Unit Time) :=
  (List.range 6).flatMap fun i => .enter (.login "10.0.0.1") :: wholeAttempt i

end Portal.Login
