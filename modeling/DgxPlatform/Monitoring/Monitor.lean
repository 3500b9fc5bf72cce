import Mathlib.Data.List.Basic
import Mathlib.Algebra.Order.Ring.Int

/-! # The health monitor

Every few minutes `main` probes the services, compares what is down with what the
saved state says was down in the run before, and sends at most one mail: an alert
for what has fallen, or a recovery mail once nothing is down. The state is saved
again whatever became of the mail.

* `runAt ins t` is run `t` of a history, started from an empty state.
-/

namespace Monitoring

/-- What is probed: `SERVICES`, the backup and the data. -/
inductive Service where
  | backup
  | frontend
  | donnees
  | litellm
  | litellmPostgres
  | portalRs
  | traefik
  | vllmRunner
deriving DecidableEq, Repr

/-- The services in the order of their keys, which `sorted` puts them in. -/
def Service.sorted : List Service :=
  [.backup, .frontend, .donnees, .litellm, .litellmPostgres, .portalRs, .traefik, .vllmRunner]

theorem Service.mem_sorted (k : Service) : k ∈ Service.sorted := by
  cases k <;> decide

structure Counters where
  conversations : Int
  jobs : Int
deriving DecidableEq, Repr

/-- `DATA_FLOOR`. -/
def dataFloor : Int := 20

/-- A counter has lost more than `DATA_DROP_RATIO` (0.4) allows. -/
def lost (mark count : Int) : Bool := decide (dataFloor ≤ mark) && decide (5 * count < 2 * mark)

/-- `_data_intact`: unreadable counters are the container probes' to report. -/
def dataIntact (mark : Counters) : Option Counters → Bool
  | none => true
  | some seen =>
      !(lost (max mark.conversations seen.conversations) seen.conversations ||
        lost (max mark.jobs seen.jobs) seen.jobs)

/-- What a run finds: the services and the backup, the counters if they can be read, and
whether a mail can be sent. -/
structure Readings where
  probe : Service → Bool
  counters : Option Counters
  mail : Bool

/-- The saved state. -/
structure State where
  down : List Service
  watermark : Counters
deriving DecidableEq, Repr

def State.empty : State := ⟨[], ⟨0, 0⟩⟩

inductive Subject where
  | alert
  | recovery
deriving DecidableEq, Repr

/-- A mail, as `_send` is called with it. -/
structure Mail where
  subject : Subject
  services : List Service
  delivered : Bool
deriving DecidableEq, Repr

/-- A run of `main`. -/
structure Run where
  up : Service → Bool
  mails : List Mail
  state : State

/-- `probe`: the data is judged by its watermark. -/
def probe (mark : Counters) (r : Readings) (k : Service) : Bool :=
  if k = .donnees then dataIntact mark r.counters else r.probe k

/-- The watermark never decreases: a failed read counts as nothing. -/
def raised (mark : Counters) (seen : Option Counters) : Counters where
  conversations := max mark.conversations ((seen.map Counters.conversations).getD 0)
  jobs := max mark.jobs ((seen.map Counters.jobs).getD 0)

/-- The services that are down. -/
def down (s : State) (r : Readings) : List Service :=
  Service.sorted.filter fun k => !probe s.watermark r k

def newlyDown (s : State) (r : Readings) : List Service :=
  (down s r).filter fun k => k ∉ s.down

def recovered (s : State) (r : Readings) : List Service :=
  Service.sorted.filter fun k => decide (k ∈ s.down) && probe s.watermark r k

/-- `main` without an option. -/
def run (s : State) (r : Readings) : Run where
  up := probe s.watermark r
  mails :=
    (if newlyDown s r ≠ [] then [⟨.alert, newlyDown s r, r.mail⟩] else []) ++
      -- the recovery mail waits until nothing is down
      if down s r = [] ∧ recovered s r ≠ [] then [⟨.recovery, recovered s r, r.mail⟩] else []
  -- whatever became of the mails
  state := ⟨down s r, raised s.watermark r.counters⟩

/-! ## Histories -/

/-- The state before run `t`. -/
def before (ins : List Readings) (t : Nat) : State :=
  (ins.take t).foldl (fun s r => (run s r).state) .empty

def runAt (ins : List Readings) (t : Nat) : Option Run := ins[t]?.map (run (before ins t))

def mailsAt (ins : List Readings) (t : Nat) : List Mail := ((runAt ins t).map Run.mails).getD []

/-- Service `k` is down in run `t`. -/
def downAt (ins : List Readings) (t : Nat) (k : Service) : Bool :=
  (runAt ins t).any fun x => !x.up k

/-- Every service is up in run `t`. -/
def allUpAt (ins : List Readings) (t : Nat) : Bool :=
  (runAt ins t).any fun x => Service.sorted.all x.up

/-- A mail can be delivered in run `t`. -/
def mailAt (ins : List Readings) (t : Nat) : Bool := ins[t]?.any Readings.mail

/-- Service `k` falls in run `t`. -/
def fallsAt (ins : List Readings) (t : Nat) (k : Service) : Bool :=
  downAt ins t k && (t == 0 || !downAt ins (t - 1) k)

/-- Service `k` is down from run `a` to run `b`, and neither before nor behind. -/
structure Incident (ins : List Readings) (k : Service) (a b : Nat) : Prop where
  falls : fallsAt ins a k = true
  le : a ≤ b
  down : ∀ t, a ≤ t → t ≤ b → downAt ins t k = true
  ends : downAt ins (b + 1) k = false

/-- The delivered alerts that name `k` in run `t`. -/
def alertsAt (ins : List Readings) (k : Service) (t : Nat) : List Mail :=
  (mailsAt ins t).filter fun m => m.subject = .alert ∧ m.delivered = true ∧ k ∈ m.services

/-- Run `e` is the first one behind run `a` in which every service is up. -/
structure Recovers (ins : List Readings) (a e : Nat) : Prop where
  lt : a < e
  up : allUpAt ins e = true
  first : ∀ t, a < t → t < e → allUpAt ins t = false

/-- Every incident is reported once and closed once, and the watermark never decreases. -/
structure Reported (ins : List Readings) : Prop where
  once : ∀ k a b, Incident ins k a b → (∃ t, a ≤ t ∧ t ≤ b ∧ mailAt ins t = true) →
    ((List.range' a (b + 1 - a)).flatMap (alertsAt ins k)).length = 1
  closed : ∀ k a e, alertsAt ins k a ≠ [] → Recovers ins a e →
    ∃ m ∈ mailsAt ins e, m.subject = .recovery ∧ k ∈ m.services
  rising : ∀ t, (before ins t).watermark.conversations ≤ (before ins (t + 1)).watermark.conversations ∧
    (before ins t).watermark.jobs ≤ (before ins (t + 1)).watermark.jobs

/-- The mail of an incident's first run goes out unless none can in any of its runs, and a
service that was alerted on is still down right before everything is up. -/
structure Timely (ins : List Readings) : Prop where
  delivered : ∀ k a b, Incident ins k a b →
    mailAt ins a = true ∨ ∀ t, a ≤ t → t ≤ b → mailAt ins t = false
  lasting : ∀ k a e, fallsAt ins a k = true → mailAt ins a = true → Recovers ins a e →
    downAt ins (e - 1) k = true

/-! ## What one run does -/

variable {s : State} {r : Readings} {k : Service} {ins : List Readings} {t a b e : Nat}

theorem mem_down : k ∈ down s r ↔ (run s r).up k = false := by
  simp [down, run, Service.mem_sorted]

theorem mem_newlyDown : k ∈ newlyDown s r ↔ (run s r).up k = false ∧ k ∉ s.down := by
  rw [newlyDown, List.mem_filter, mem_down, decide_eq_true_eq]

theorem mem_recovered : k ∈ recovered s r ↔ k ∈ s.down ∧ (run s r).up k = true := by
  simp [recovered, run, Service.mem_sorted]

/-- A mail of a run is the alert for what has fallen, or the recovery mail. -/
theorem mem_mails {m : Mail} : m ∈ (run s r).mails ↔
    (newlyDown s r ≠ [] ∧ m = ⟨.alert, newlyDown s r, r.mail⟩) ∨
      ((down s r = [] ∧ recovered s r ≠ []) ∧ m = ⟨.recovery, recovered s r, r.mail⟩) := by
  show m ∈ _ ++ _ ↔ _
  rw [List.mem_append]
  refine or_congr ?_ ?_ <;> split <;> simp_all

/-- A run sends at most one delivered alert that names a service: when the service falls. -/
theorem alerts_run : ((run s r).mails.filter fun m =>
      m.subject = .alert ∧ m.delivered = true ∧ k ∈ m.services).length =
    if ((run s r).up k = false ∧ k ∉ s.down) ∧ r.mail = true then 1 else 0 := by
  have hrecovery : (if down s r = [] ∧ recovered s r ≠ [] then
      [(⟨.recovery, recovered s r, r.mail⟩ : Mail)] else []).filter
        (fun m => m.subject = .alert ∧ m.delivered = true ∧ k ∈ m.services) = [] := by
    split <;> simp
  show ((_ ++ _ : List Mail).filter _).length = _
  rw [List.filter_append]
  refine (congrArg List.length (congrArg _ hrecovery)).trans ?_
  rw [List.append_nil]
  by_cases hk : k ∈ newlyDown s r
  · rw [if_pos (List.ne_nil_of_mem hk), List.filter_singleton]
    have hfalls := mem_newlyDown.1 hk
    cases hmail : r.mail <;> simp [hk, hfalls]
  · have hno : ¬ (((run s r).up k = false ∧ k ∉ s.down) ∧ r.mail = true) :=
      fun h => hk (mem_newlyDown.2 h.1)
    rw [if_neg hno]
    split <;> simp [hk]

/-- In a run in which everything is up, the recovery mail names what was down before. -/
theorem recovery_run (hup : ∀ k, (run s r).up k = true) :
    (∃ m ∈ (run s r).mails, m.subject = .recovery ∧ k ∈ m.services) ↔ k ∈ s.down := by
  constructor
  · rintro ⟨m, hm, hsubject, hk⟩
    rcases mem_mails.1 hm with ⟨-, rfl⟩ | ⟨-, rfl⟩
    · cases hsubject
    · exact (mem_recovered.1 hk).1
  · intro hk
    have hrec : k ∈ recovered s r := mem_recovered.2 ⟨hk, hup k⟩
    have hnone : down s r = [] := by
      refine List.eq_nil_iff_forall_not_mem.2 fun j hj => ?_
      rw [mem_down, hup j] at hj
      cases hj
    exact ⟨_, mem_mails.2 (.inr ⟨⟨hnone, List.ne_nil_of_mem hrec⟩, rfl⟩), rfl, hrec⟩

theorem raised_le (mark : Counters) (seen : Option Counters) :
    mark.conversations ≤ (raised mark seen).conversations ∧ mark.jobs ≤ (raised mark seen).jobs :=
  ⟨le_max_left _ _, le_max_left _ _⟩

/-! ## What a history shows -/

theorem before_succ (h : ins[t]? = some r) : before ins (t + 1) = (run (before ins t) r).state := by
  rw [before, List.take_add_one, h, List.foldl_append]
  rfl

theorem runAt_of (h : ins[t]? = some r) : runAt ins t = some (run (before ins t) r) := by
  rw [runAt, h]
  rfl

theorem downAt_of (h : ins[t]? = some r) :
    downAt ins t k = true ↔ (run (before ins t) r).up k = false := by
  simp [downAt, runAt_of h]

theorem mem_down_before (h : ins[t]? = some r) :
    k ∈ (before ins (t + 1)).down ↔ downAt ins t k = true := by
  rw [before_succ h, downAt_of h]
  exact mem_down

theorem fallsAt_of (h : ins[t]? = some r) :
    fallsAt ins t k = true ↔ (run (before ins t) r).up k = false ∧ k ∉ (before ins t).down := by
  unfold fallsAt
  rw [Bool.and_eq_true, downAt_of h]
  refine and_congr_right fun _ => ?_
  cases t with
  | zero => simp [before, State.empty]
  | succ t =>
    have hlt : t < ins.length := by
      have := (List.getElem?_eq_some_iff.1 h).1
      omega
    rw [mem_down_before (List.getElem?_eq_getElem hlt)]
    simp

theorem alertsAt_length : (alertsAt ins k t).length =
    if fallsAt ins t k = true ∧ mailAt ins t = true then 1 else 0 := by
  cases h : ins[t]? with
  | none => simp [alertsAt, mailsAt, runAt, mailAt, h]
  | some r =>
    have hmail : mailAt ins t = true ↔ r.mail = true := by simp [mailAt, h]
    simp only [fallsAt_of h, hmail, ← alerts_run, alertsAt, mailsAt, runAt_of h, Option.map_some,
      Option.getD_some]

theorem Incident.not_fallsAt (h : Incident ins k a b) (hat : a < t) (htb : t ≤ b) :
    fallsAt ins t k = false := by
  have hprev : downAt ins (t - 1) k = true := h.down (t - 1) (by omega) (by omega)
  have hpos : (t == 0) = false := by
    rw [beq_eq_false_iff_ne]
    omega
  simp [fallsAt, hprev, hpos]

/-- The delivered alerts of an incident are those of its first run. -/
theorem Incident.alerts_length (h : Incident ins k a b) :
    ((List.range' a (b + 1 - a)).flatMap (alertsAt ins k)).length =
      if mailAt ins a = true then 1 else 0 := by
  obtain ⟨n, hn⟩ : ∃ n, b + 1 - a = n + 1 := ⟨b - a, by have := h.le; omega⟩
  have hrest : (List.range' (a + 1) n).flatMap (alertsAt ins k) = [] := by
    refine List.flatMap_eq_nil_iff.2 fun t ht => ?_
    rw [List.mem_range'_1] at ht
    rw [← List.length_eq_zero_iff, alertsAt_length, if_neg]
    rw [h.not_fallsAt (by omega) (by omega)]
    simp
  rw [hn, List.range'_succ, List.flatMap_cons, hrest, List.append_nil, alertsAt_length]
  simp [h.falls]

theorem Recovers.recovery_iff (h : Recovers ins a e) :
    (∃ m ∈ mailsAt ins e, m.subject = .recovery ∧ k ∈ m.services) ↔
      downAt ins (e - 1) k = true := by
  have hup := h.up
  cases he : ins[e]? with
  | none => simp [allUpAt, runAt, he] at hup
  | some r =>
    have hall : ∀ k, (run (before ins e) r).up k = true := by
      intro k
      rw [allUpAt, runAt_of he] at hup
      exact List.all_eq_true.1 hup k k.mem_sorted
    obtain ⟨t, rfl⟩ : ∃ t, e = t + 1 := ⟨e - 1, by have := h.lt; omega⟩
    have hlt : t < ins.length := by
      have := (List.getElem?_eq_some_iff.1 he).1
      omega
    rw [mailsAt, runAt_of he, Nat.add_sub_cancel, ← mem_down_before (List.getElem?_eq_getElem hlt)]
    exact recovery_run hall

theorem watermark_le (t : Nat) :
    (before ins t).watermark.conversations ≤ (before ins (t + 1)).watermark.conversations ∧
      (before ins t).watermark.jobs ≤ (before ins (t + 1)).watermark.jobs := by
  cases h : ins[t]? with
  | none =>
    have hlen : ins.length ≤ t := List.getElem?_eq_none_iff.1 h
    rw [before, before, List.take_of_length_le hlen, List.take_of_length_le (by omega)]
    exact ⟨le_rfl, le_rfl⟩
  | some r =>
    rw [before_succ h]
    exact raised_le _ _

/-- Every incident is reported once and closed once exactly when the mail of its first run is
delivered, or none can be in any of its runs, and a service that was alerted on is down in
the run before the first one in which everything is up. -/
theorem reported_iff (ins : List Readings) : Reported ins ↔ Timely ins := by
  constructor
  · intro h
    refine ⟨fun k a b hinc => ?_, fun k a e hfalls hmail hrec => ?_⟩
    · by_cases ha : mailAt ins a = true
      · exact .inl ha
      · refine .inr fun t hat htb => ?_
        by_contra ht
        have hone := h.once k a b hinc ⟨t, hat, htb, by simpa using ht⟩
        rw [hinc.alerts_length, if_neg ha] at hone
        cases hone
    · refine hrec.recovery_iff.1 (h.closed k a e (fun hnil => ?_) hrec)
      have hlen : (alertsAt ins k a).length = _ := alertsAt_length
      rw [hnil, if_pos ⟨hfalls, hmail⟩] at hlen
      cases hlen
  · intro h
    refine ⟨fun k a b hinc hsome => ?_, fun k a e halert hrec => ?_, watermark_le⟩
    · rw [hinc.alerts_length]
      rcases h.delivered k a b hinc with ha | hnone
      · rw [if_pos ha]
      · obtain ⟨t, hat, htb, ht⟩ := hsome
        rw [hnone t hat htb] at ht
        cases ht
    · have hboth : fallsAt ins a k = true ∧ mailAt ins a = true := by
        by_contra hno
        refine halert (List.length_eq_zero_iff.1 ?_)
        rw [alertsAt_length, if_neg hno]
      exact hrec.recovery_iff.2 (h.lasting k a e hboth.1 hboth.2 hrec)

/-! The mail of the first run fails, the one of the second would not. -/

def traefikDown (mail : Bool) : Readings := ⟨fun k => k ≠ .traefik, none, mail⟩

theorem never_alerted : ¬ Reported [traefikDown false, traefikDown true] := by
  intro h
  have hinc : Incident [traefikDown false, traefikDown true] .traefik 0 1 := by
    refine ⟨by decide, by decide, ?_, by decide⟩
    intro t _ ht
    have ht : t = 0 ∨ t = 1 := by omega
    rcases ht with rfl | rfl <;> decide
  have hone := h.once .traefik 0 1 hinc ⟨1, by decide, by decide, by decide⟩
  revert hone
  decide

end Monitoring
