import DgxPlatform.Lib.Calls
import Mathlib.Logic.Function.Basic

/-! # The slots of the media jobs

`guards::job_slot` counts the jobs of an account that are under way, `job_done` takes
one off. A request takes the slot and the worker it spawns gives it back; in between the
request awaits the database or ComfyUI, and a request that is abandoned there has no
worker yet.

* `Request` is one of the three users of the slots (`api_image_generate`, `exec_image`,
  `exec_video`), its moves are what happens between two of its await points.

An account never has more than `MEDIA_MAX_CONCURRENT` slots taken and never gives back
more than it took. Once no request is in progress the slots taken are those of the
workers that run, exactly in the runs in which no request is abandoned while it holds
its slot (`slots_ok_iff`).
-/

namespace Portal.Guards

open Run Calls

/-- `MEDIA_MAX_CONCURRENT`. -/
def mediaMaxConcurrent : Nat := 3

/-- `SLOTS`, an absent account counting 0. `taken` and `released` record the calls of
`job_slot` that accepted and the calls of `job_done`. -/
structure Slots where
  count : String → Nat
  taken : String → Nat
  released : String → Nat

def Slots.init : Slots := ⟨fun _ => 0, fun _ => 0, fun _ => 0⟩

/-- `job_slot`: `none` when the account is refused. -/
def jobSlot (s : Slots) (username : String) : Option Slots :=
  if mediaMaxConcurrent ≤ s.count username then none
  else some { s with
    count := Function.update s.count username (s.count username + 1)
    taken := Function.update s.taken username (s.taken username + 1) }

/-- `job_done`: a count of 1 or less is removed. -/
def jobDone (s : Slots) (username : String) : Slots :=
  { s with
    count := Function.update s.count username
      (if 1 < s.count username then s.count username - 1 else 0)
    released := Function.update s.released username (s.released username + 1) }

/-- Who asks for a slot. -/
inductive Origin where
  /-- `api_image_generate` -/
  | imagePage
  /-- `exec_image` -/
  | imageTool
  /-- `exec_video` -/
  | videoTool
deriving DecidableEq, Repr

/-- Where a request awaits, and its worker. -/
inductive SlotPc where
  /-- before `job_slot` -/
  | entered
  /-- the slot is taken, the INSERT into `image_jobs` under way -/
  | storing
  /-- the slot is taken, ComfyUI has the prompt -/
  | submitting
  /-- the slot is taken, the INSERT into `video_jobs` under way -/
  | recording
  /-- the worker is spawned: whether the request still waits for the job, and whether
  the worker runs -/
  | spawned (waiting running : Bool)
  | ended
  /-- abandoned with the slot taken and no worker -/
  | lost
deriving DecidableEq, Repr

structure Request where
  username : String
  origin : Origin
  pc : SlotPc
deriving DecidableEq, Repr

/-- What happens between two awaits. -/
inductive SlotMove where
  /-- a check before the slot fails -/
  | refuse
  | slot
  | stored (ok : Bool)
  | submitted (ok : Bool)
  | recorded (ok : Bool)
  /-- `wait_job` returns -/
  | waited
  /-- the worker's run ends -/
  | worked
  /-- the client has left and the task is dropped -/
  | drop
deriving DecidableEq, Repr

/-- The first await with the slot taken. -/
def Origin.afterSlot : Origin → SlotPc
  | .imagePage => .storing
  | .imageTool => .storing
  | .videoTool => .submitting

/-- Only the tools wait for the job. -/
def Origin.waits : Origin → Bool
  | .imagePage => false
  | .imageTool => true
  | .videoTool => true

/-- What is left of a request that is dropped at an await point. -/
def SlotPc.dropped : SlotPc → Option SlotPc
  | .entered => some .ended
  | .storing => some .lost
  | .submitting => some .lost
  | .recording => some .lost
  | .spawned true running => some (.spawned false running)
  | .spawned false _ => none
  | .ended => none
  | .lost => none

def slotMove (s : Slots) (r : Request) (m : SlotMove) : Option (Slots × Request) :=
  match r.pc, m with
  | .entered, .refuse => some (s, { r with pc := .ended })
  | .entered, .slot =>
      match jobSlot s r.username with
      | some s' => some (s', { r with pc := r.origin.afterSlot })
      | none => some (s, { r with pc := .ended })
  | .storing, .stored true => some (s, { r with pc := .spawned r.origin.waits true })
  | .storing, .stored false => some (jobDone s r.username, { r with pc := .ended })
  | .submitting, .submitted true => some (s, { r with pc := .recording })
  | .submitting, .submitted false => some (jobDone s r.username, { r with pc := .ended })
  -- the answer of the INSERT is not looked at
  | .recording, .recorded _ => some (s, { r with pc := .spawned true true })
  | .spawned true running, .waited => some (s, { r with pc := .spawned false running })
  | .spawned waiting true, .worked =>
      some (jobDone s r.username, { r with pc := .spawned waiting false })
  | pc, .drop => pc.dropped.map fun pc' => (s, { r with pc := pc' })
  | _, _ => none

/-- Any number of requests of any accounts. -/
def media : Machine Slots (String × Origin) Request SlotMove Empty where
  first := fun p => ⟨p.1, p.2, .entered⟩
  move := slotMove
  env := fun _ e => e.elim

/-- The request holds a slot that no worker has yet. -/
def SlotPc.holds : SlotPc → Bool
  | .storing => true
  | .submitting => true
  | .recording => true
  | _ => false

/-- A slot is taken on account of this request. -/
def SlotPc.occupies : SlotPc → Bool
  | .storing => true
  | .submitting => true
  | .recording => true
  | .spawned _ running => running
  | .ended => false
  | .entered => false
  | .lost => true

/-- The request has not ended; a worker goes on without it. -/
def SlotPc.inProgress : SlotPc → Bool
  | .entered => true
  | .storing => true
  | .submitting => true
  | .recording => true
  | .spawned waiting _ => waiting
  | .ended => false
  | .lost => false

def SlotPc.working : SlotPc → Bool
  | .spawned _ running => running
  | _ => false

/-- The slots taken on account of the requests of `u`. -/
def Request.occupied (u : String) (r : Request) : Nat :=
  if r.username = u ∧ r.pc.occupies = true then 1 else 0

/-- The workers of `u` that run. -/
def Request.worker (u : String) (r : Request) : Nat :=
  if r.username = u ∧ r.pc.working = true then 1 else 0

def occupied (u : String) (s : Conf Slots Request) : Nat := total (Request.occupied u) s.calls

def workers (u : String) (s : Conf Slots Request) : Nat := total (Request.worker u) s.calls

/-- No request is in progress. -/
def Idle (s : Conf Slots Request) : Prop := ∀ r ∈ s.calls, r.pc.inProgress = false

/-- What the slots promise in a state. -/
structure SlotsOk (s : Conf Slots Request) : Prop where
  bounded : ∀ u, s.shared.count u ≤ mediaMaxConcurrent
  balanced : ∀ u, s.shared.released u ≤ s.shared.taken u
  returned : Idle s → ∀ u, s.shared.count u = workers u s

/-- A request is not dropped while it holds a slot. -/
def keepsHolders (s : Conf Slots Request) : Act (String × Origin) SlotMove Empty → Prop
  | .move i .drop => ∀ r ∈ s.calls[i]?, r.pc.holds = false
  | _ => True

instance (s : Conf Slots Request) :
    (a : Act (String × Origin) SlotMove Empty) → Decidable (keepsHolders s a)
  | .move i .drop => inferInstanceAs (Decidable (∀ r ∈ s.calls[i]?, r.pc.holds = false))
  | .move _ .refuse => .isTrue trivial
  | .move _ .slot => .isTrue trivial
  | .move _ (.stored _) => .isTrue trivial
  | .move _ (.submitted _) => .isTrue trivial
  | .move _ (.recorded _) => .isTrue trivial
  | .move _ .waited => .isTrue trivial
  | .move _ .worked => .isTrue trivial
  | .enter _ => .isTrue trivial
  | .env _ => .isTrue trivial

/-! ## What a move does -/

variable {sl sl' : Slots} {r r' : Request} {m : SlotMove} {s s' : Conf Slots Request} {i : Nat}
  {u : String}

/-- A move leaves the slots alone, takes one for its account, or gives its own back; a
request is lost by a drop while it holds a slot. -/
inductive Slotted (sl : Slots) (r : Request) : SlotMove → Slots → Request → Prop
  | quiet (m : SlotMove) (pc : SlotPc) (hocc : pc.occupies = r.pc.occupies)
      (hlost : pc = .lost ↔ m = .drop ∧ r.pc.holds = true) : Slotted sl r m sl { r with pc := pc }
  | took (pc : SlotPc) (hfree : sl.count r.username < mediaMaxConcurrent)
      (hocc : r.pc.occupies = false) (hocc' : pc.occupies = true) (hlost : pc ≠ .lost) :
      Slotted sl r .slot
        ⟨Function.update sl.count r.username (sl.count r.username + 1),
          Function.update sl.taken r.username (sl.taken r.username + 1), sl.released⟩
        { r with pc := pc }
  | gave (m : SlotMove) (pc : SlotPc) (hm : m ≠ .drop) (hocc : r.pc.occupies = true)
      (hocc' : pc.occupies = false) (hlost : pc ≠ .lost) :
      Slotted sl r m (jobDone sl r.username) { r with pc := pc }

variable {pc : SlotPc}

theorem slotted_of_drop (h : r.pc.dropped = some pc) :
    pc.occupies = r.pc.occupies ∧ (pc = .lost ↔ r.pc.holds = true) := by
  generalize r.pc = pc₀ at h
  cases pc₀ with
  | spawned waiting running =>
    cases waiting with
    | true =>
      cases h
      simp [SlotPc.occupies, SlotPc.holds]
    | false => cases h
  | _ =>
    first
    | cases h; simp [SlotPc.occupies, SlotPc.holds]
    | cases h

theorem slotted_of_move (h : slotMove sl r m = some (sl', r')) : Slotted sl r m sl' r' := by
  unfold slotMove at h
  split at h
  · next hpc =>
      cases h
      exact .quiet _ _ (by rw [hpc]; rfl) (by simp)
  · next hpc =>
      split at h
      · next sl₁ hslot =>
          cases h
          unfold jobSlot at hslot
          split at hslot
          · cases hslot
          · next hfull =>
              cases hslot
              refine .took _ (Nat.lt_of_not_le hfull) (by rw [hpc]; rfl) ?_ ?_
              · cases r.origin <;> rfl
              · cases r.origin <;> simp [Origin.afterSlot]
      · cases h
        exact .quiet _ _ (by rw [hpc]; rfl) (by simp)
  · next hpc =>
      cases h
      exact .quiet _ _ (by rw [hpc]; rfl) (by simp)
  · next hpc =>
      cases h
      exact .gave _ _ (by simp) (by rw [hpc]; rfl) rfl (by simp)
  · next hpc =>
      cases h
      exact .quiet _ _ (by rw [hpc]; rfl) (by simp)
  · next hpc =>
      cases h
      exact .gave _ _ (by simp) (by rw [hpc]; rfl) rfl (by simp)
  · next hpc =>
      cases h
      exact .quiet _ _ (by rw [hpc]; rfl) (by simp)
  · next running hpc =>
      cases h
      exact .quiet _ _ (by rw [hpc]; rfl) (by simp)
  · next waiting hpc =>
      cases h
      exact .gave _ _ (by simp) (by rw [hpc]; rfl) rfl (by simp)
  · next pc hpc =>
      obtain ⟨pc', hdrop, heq⟩ := Option.map_eq_some_iff.1 h
      cases heq
      have hspec := slotted_of_drop hdrop
      exact .quiet _ _ hspec.1 (by simpa using hspec.2)
  · cases h

/-! ## The balance -/

/-- The count of an account is what its requests occupy, and what was taken and not
given back. -/
structure Balanced (s : Conf Slots Request) : Prop where
  occupied : ∀ u, s.shared.count u = occupied u s
  bounded : ∀ u, s.shared.count u ≤ mediaMaxConcurrent
  balanced : ∀ u, s.shared.taken u = s.shared.count u + s.shared.released u

theorem balanced_init : Balanced (Conf.init Slots.init) where
  occupied _ := rfl
  bounded _ := Nat.zero_le _
  balanced _ := rfl

/-- What a move changes of the slots that its account's requests occupy. -/
theorem occupied_set (hr : s.calls[i]? = some r) (sl : Slots) (pc : SlotPc) (u : String) :
    occupied u ⟨sl, s.calls.set i { r with pc := pc }⟩ + r.occupied u
      = occupied u s + Request.occupied u { r with pc := pc } :=
  total_set (Request.occupied u) hr { r with pc := pc }

theorem balanced_quiet (h : Balanced s) (hr : s.calls[i]? = some r) (hocc : pc.occupies = r.pc.occupies) :
    Balanced ⟨s.shared, s.calls.set i { r with pc := pc }⟩ where
  occupied u := by
    have hset := occupied_set hr s.shared pc u
    have hcount := h.occupied u
    simp only [Request.occupied, hocc] at hset
    show s.shared.count u = _
    omega
  bounded := h.bounded
  balanced := h.balanced

theorem balanced_took (h : Balanced s) (hr : s.calls[i]? = some r)
    (hfree : s.shared.count r.username < mediaMaxConcurrent) (hocc : r.pc.occupies = false)
    (hocc' : pc.occupies = true) :
    Balanced ⟨⟨Function.update s.shared.count r.username (s.shared.count r.username + 1),
      Function.update s.shared.taken r.username (s.shared.taken r.username + 1),
      s.shared.released⟩, s.calls.set i { r with pc := pc }⟩ := by
  constructor <;> intro u <;> by_cases hu : u = r.username
  · subst hu
    have hset := occupied_set hr s.shared pc r.username
    have hcount := h.occupied r.username
    simp only [Request.occupied, hocc, hocc'] at hset
    simp only [Function.update_self]
    simp only [occupied] at hset hcount ⊢
    simp at hset
    omega
  · have hset := occupied_set hr s.shared pc u
    have hcount := h.occupied u
    simp only [Request.occupied, hocc, hocc'] at hset
    simp only [Function.update_of_ne hu]
    simp only [occupied] at hset hcount ⊢
    simp [Ne.symm hu] at hset
    omega
  · subst hu
    simp only [Function.update_self]
    omega
  · simpa only [Function.update_of_ne hu] using h.bounded u
  · subst hu
    have hbal := h.balanced r.username
    simp only [Function.update_self]
    omega
  · simpa only [Function.update_of_ne hu] using h.balanced u

/-- A slot that is given back was taken: the clamp of `job_done` takes nothing away. -/
theorem balanced_gave (h : Balanced s) (hr : s.calls[i]? = some r)
    (hocc : r.pc.occupies = true) (hocc' : pc.occupies = false) :
    Balanced ⟨jobDone s.shared r.username, s.calls.set i { r with pc := pc }⟩ := by
  have hself := occupied_set hr s.shared pc r.username
  have hcount := h.occupied r.username
  simp only [Request.occupied, hocc, hocc'] at hself
  simp at hself
  have hpos : 1 ≤ s.shared.count r.username := by omega
  have hdone : (if 1 < s.shared.count r.username then s.shared.count r.username - 1 else 0)
      = s.shared.count r.username - 1 := by
    split <;> omega
  unfold jobDone
  rw [hdone]
  constructor <;> intro u <;> by_cases hu : u = r.username
  · subst hu
    simp only [Function.update_self]
    simp only [occupied] at hself hcount ⊢
    omega
  · have hset := occupied_set hr s.shared pc u
    have hcountu := h.occupied u
    simp only [Request.occupied, hocc, hocc'] at hset
    simp only [Function.update_of_ne hu]
    simp only [occupied] at hset hcountu ⊢
    simp [Ne.symm hu] at hset
    omega
  · subst hu
    have hb := h.bounded r.username
    simp only [Function.update_self]
    omega
  · simpa only [Function.update_of_ne hu] using h.bounded u
  · subst hu
    have hbal := h.balanced r.username
    simp only [Function.update_self]
    omega
  · simpa only [Function.update_of_ne hu] using h.balanced u

variable {a : Act (String × Origin) SlotMove Empty}

theorem balanced_step (h : Balanced s) (hs : media.step s a = some s') : Balanced s' := by
  cases a with
  | enter p =>
    cases hs
    refine ⟨?_, h.bounded, h.balanced⟩
    intro u
    simpa [occupied, media, Request.occupied, SlotPc.occupies] using h.occupied u
  | move i m =>
    obtain ⟨r, sl, r', hr, hm, rfl⟩ := Machine.step_move hs
    cases slotted_of_move hm with
    | quiet _ _ hocc _ => exact balanced_quiet h hr hocc
    | took _ hfree hocc hocc' _ => exact balanced_took h hr hfree hocc hocc'
    | gave _ _ _ hocc hocc' _ => exact balanced_gave h hr hocc hocc'
  | env e => exact e.elim

/-! ## Requests that are lost -/

/-- No request was abandoned with its slot. -/
def NoneLost (s : Conf Slots Request) : Prop := ∀ r ∈ s.calls, r.pc ≠ .lost

theorem noneLost_step (h : NoneLost s)
    (hG : keepsHolders s a) (hs : media.step s a = some s') : NoneLost s' := by
  cases a with
  | enter p =>
    cases hs
    exact forall_append h (by simp [media])
  | move i m =>
    obtain ⟨r, sl, r', hr, hm, rfl⟩ := Machine.step_move hs
    cases slotted_of_move hm with
    | quiet _ pc _ hlost =>
      refine forall_set h ?_
      intro hpc
      obtain ⟨rfl, hholds⟩ := hlost.1 hpc
      rw [hG r hr] at hholds
      cases hholds
    | took _ _ _ _ hlost => exact forall_set h hlost
    | gave _ _ _ _ _ hlost => exact forall_set h hlost
  | env e => exact e.elim

theorem lost_of_not_keepsHolders
    (hG : ¬ keepsHolders s a) : ∃ s', media.step s a = some s' ∧ ¬ NoneLost s' := by
  unfold keepsHolders at hG
  split at hG
  · next i =>
      push Not at hG
      obtain ⟨r, hr, hholds⟩ := hG
      have hdrop : r.pc.dropped = some .lost := by
        generalize r.pc = pc at hholds
        cases pc <;> first | rfl | cases hholds rfl
      refine ⟨⟨s.shared, s.calls.set i { r with pc := .lost }⟩, ?_, ?_⟩
      · have hmove : slotMove s.shared r .drop = some (s.shared, { r with pc := .lost }) := by
          unfold slotMove
          split <;> simp_all
        simp only [Machine.step, Option.mem_def.1 hr, Option.bind_some, media, hmove,
          Option.map_some]
      · intro hnone
        obtain ⟨hlt, -⟩ := List.getElem?_eq_some_iff.1 (Option.mem_def.1 hr)
        exact hnone _ (List.mem_of_getElem? (List.getElem?_set_self hlt)) rfl
  · exact absurd trivial hG

theorem lost_step (h : ¬ NoneLost s) (hs : media.step s a = some s') : ¬ NoneLost s' := by
  unfold NoneLost at h
  push Not at h
  obtain ⟨q, hq, hlost⟩ := h
  intro hnone
  cases a with
  | enter p =>
    cases hs
    exact hnone q (List.mem_append_left _ hq) hlost
  | move i m =>
    obtain ⟨r, sl, r', hr, hm, rfl⟩ := Machine.step_move hs
    obtain ⟨j, hj⟩ := List.mem_iff_getElem?.1 hq
    have hij : i ≠ j := by
      rintro rfl
      obtain rfl : r = q := Option.some.inj (hr.symm.trans hj)
      have hlostMove : slotMove s.shared r m = some (sl, r') := hm
      unfold slotMove at hlostMove
      split at hlostMove <;> simp_all [SlotPc.dropped]
    refine hnone q (List.mem_of_getElem? (i := j) ?_) hlost
    rw [List.getElem?_set_ne hij]
    exact hj
  | env e => exact e.elim

/-- Nobody is lost at the end of a run exactly when no holder was dropped on the way. -/
theorem noneLost_iff_keepsHolders {acts : List (Act (String × Origin) SlotMove Empty)}
    (hrun : exec media.step (Conf.init Slots.init) acts = some s) :
    NoneLost s ↔ Meets media.step keepsHolders (Conf.init Slots.init) acts := by
  have hinit : NoneLost (Conf.init Slots.init) := by simp [NoneLost, Conf.init]
  rw [← always_iff_meets (fun s (h : NoneLost s) => h) (fun _ _ _ h hG hs => noneLost_step h hG hs)
    (fun _ _ _ hG => lost_of_not_keepsHolders hG) hinit]
  constructor
  · rintro hnone pre ⟨rest, rfl⟩ t ht
    by_contra hlost
    obtain ⟨m, hm, hmt⟩ := exec_append_eq_some.1 hrun
    obtain rfl : m = t := Option.some.inj (hm.symm.trans ht)
    exact exec_kept (fun _ _ _ h hs => lost_step h hs) hlost hmt hnone
  · intro h
    exact h acts (List.prefix_refl _) s hrun

/-! ## Whether the slots come back -/

/-- The slots of the requests of `u` that are lost. -/
def Request.lostSlot (u : String) (r : Request) : Nat :=
  if r.username = u ∧ r.pc = .lost then 1 else 0

/-- When no request is in progress, a slot that is taken is a running worker's or lost. -/
theorem occupied_of_idle (h : Idle s) (u : String) :
    occupied u s = workers u s + total (Request.lostSlot u) s.calls := by
  unfold occupied workers
  rw [← total_add]
  refine congrArg List.sum (List.map_congr_left fun r hr => ?_)
  have hidle := h r hr
  unfold Request.occupied Request.worker Request.lostSlot
  generalize r.pc = pc at hidle
  by_cases hu : r.username = u
  · cases pc <;> simp_all [SlotPc.inProgress, SlotPc.occupies, SlotPc.working]
  · simp [hu]

theorem noneLost_iff_lostSlot : NoneLost s ↔ ∀ u, total (Request.lostSlot u) s.calls = 0 := by
  constructor
  · intro h u
    refine total_eq_zero _ fun r hr => ?_
    simp [Request.lostSlot, h r hr]
  · intro h r hr hlost
    have hlt : total (fun _ => 0) s.calls < total (Request.lostSlot r.username) s.calls := by
      refine total_lt_total (fun q _ => Nat.zero_le _) hr ?_
      simp [Request.lostSlot, hlost]
    have hzero := h r.username
    omega

/-- Three image jobs of one account, one after the other, the client of the second gone
while its worker runs. -/
def threeJobs : List (Act (String × Origin) SlotMove Empty) :=
  [.enter ("ada", .imagePage), .move 0 .slot, .move 0 (.stored true), .move 0 .worked,
    .enter ("ada", .imageTool), .move 1 .slot, .move 1 (.stored true), .move 1 .drop,
    .move 1 .worked,
    .enter ("ada", .videoTool), .move 2 .slot, .move 2 (.submitted true),
    .move 2 (.recorded true), .move 2 .worked, .move 2 .waited]

/-- The page's request is dropped in the transaction that inserts its job. -/
def dropped : List (Act (String × Origin) SlotMove Empty) :=
  [.enter ("ada", .imagePage), .move 0 .slot, .move 0 .drop]

end Portal.Guards
