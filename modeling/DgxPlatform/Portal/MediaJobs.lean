import DgxPlatform.Lib.Calls

/-! # The status of a media job

The row of one job of `image_jobs` or `video_jobs` and everybody who writes its status:
the image worker, the cancel of an image, the status route and the cancel of a video,
and the worker of the chat's video tool. Each reads the row, or asks ComfyUI, and writes
later without looking again.

`jobs` is the machine of the job's worker and of any number of requests of its owner.
A cancel that was answered stays, and a job that has ended is not cancelled any more,
exactly in the runs in which no end is written over a cancel and no cancel over an end
(`ends_kept_iff`).
-/

namespace Portal.MediaJobs

open Run Calls

/-- The column `status`. -/
inductive Status where
  | pending
  | running
  | done
  | error
  | cancelled
deriving DecidableEq, Repr

/-- The job is over, by its own doing. -/
def Status.isEnd : Status → Bool
  | .done => true
  | .error => true
  | _ => false

/-- The job has not ended and is not cancelled. -/
def Status.isActive : Status → Bool
  | .pending => true
  | .running => true
  | _ => false

/-- The row of a job. `acknowledged` records that a cancel has found it active, written
"cancelled" and been answered ok, `ended` that its status has been "done" or "error". -/
structure Row where
  status : Status
  doneCount : Nat
  acknowledged : Bool
  ended : Bool
deriving DecidableEq, Repr

/-- `UPDATE … SET status=?` of a worker or of `persist_video`. -/
def Row.close (r : Row) (st : Status) : Row :=
  { r with status := st, ended := r.ended || st.isEnd }

/-- `UPDATE … SET status='cancelled'` of a cancel. -/
def Row.cancel (r : Row) : Row :=
  { r with status := .cancelled, acknowledged := r.acknowledged || r.status.isActive }

/-- What a worker or a request does next, with the answer it gets. -/
inductive Move where
  /-- a statement, and whether the database answers -/
  | query (ok : Bool)
  /-- the sidecar has answered, with an image or not -/
  | generate (ok : Bool)
  /-- `media_store::save` -/
  | save (ok : Bool)
  /-- `comfyui_status` -/
  | probe (st : Status)
  /-- `VIDEO_JOB_MAX` is over -/
  | timeout
  /-- `comfyui_cancel` -/
  | interrupt
deriving DecidableEq, Repr

/-! ## The image worker -/

/-- What the worker of an image job starts with; `client` is whether the HTTP client
could be built. -/
structure ImageJob where
  count : Nat
  client : Bool
deriving DecidableEq, Repr

/-- Where `ImageJob::run` awaits: the image, and the images done so far. -/
inductive WorkerPc where
  | check (idx done : Nat)
  | generate (idx done : Nat)
  | save (idx done : Nat)
  | record (idx done : Nat)
  | lastCheck (done : Nat)
  | close (cancelled : Bool) (done : Nat)
  | finished
deriving DecidableEq, Repr

/-- The loop's next turn. -/
def ImageJob.turn (job : ImageJob) (idx done : Nat) : WorkerPc :=
  if idx < job.count then .check idx done else .lastCheck done

/-- `cancelled`: a read that fails counts as no. -/
def readsCancelled (r : Row) (ok : Bool) : Bool := ok && r.status == .cancelled

/-- The last status. -/
def finalStatus (cancelled : Bool) (done : Nat) : Status :=
  if cancelled then .cancelled else if 0 < done then .done else .error

def workerMove (job : ImageJob) (r : Row) : WorkerPc → Move → Option (Row × WorkerPc)
  | .check idx done, .query ok =>
      if readsCancelled r ok || !job.client then some (r, .lastCheck done)
      else some (r, .generate idx done)
  | .generate idx done, .generate ok =>
      some (r, if ok then .save idx done else job.turn (idx + 1) done)
  | .save idx done, .save ok =>
      some (r, if ok then .record idx (done + 1) else job.turn (idx + 1) done)
  | .record idx done, .query ok =>
      some (if ok then { r with doneCount := done } else r, job.turn (idx + 1) done)
  | .lastCheck done, .query ok => some (r, .close (readsCancelled r ok) done)
  -- the status is not looked at again
  | .close cancelled done, .query true =>
      some ({ r.close (finalStatus cancelled done) with doneCount := done }, .finished)
  | .close _ _, .query false => some (r, .finished)
  | _, _ => none

/-! ## Cancels, polls and the worker of the video tool -/

/-- Where a cancel awaits. -/
inductive CancelPc where
  | read
  /-- ComfyUI is told; not for an image -/
  | interrupt
  | write
  | answered (ok : Bool)
  | failed
deriving DecidableEq, Repr

/-- The statuses under which a cancel goes on. -/
def cancellable (video : Bool) (st : Status) : Bool := if video then st.isActive else st == .running

/-- `api_image_cancel`, `api_video_cancel`. -/
def cancelMove (video : Bool) (r : Row) : CancelPc → Move → Option (Row × CancelPc)
  | .read, .query true =>
      if r.status = .done ∨ r.status = .cancelled then some (r, .answered true)
      else if cancellable video r.status then some (r, if video then .interrupt else .write)
      else some (r, .answered false)
  | .interrupt, .interrupt => some (r, .write)
  -- whatever the status is by now
  | .write, .query true => some (r.cancel, .answered true)
  | .read, .query false => some (r, .failed)
  | .write, .query false => some (r, .failed)
  | _, _ => none

/-- Where `api_video_status` and the worker of `exec_video` await. -/
inductive VideoPc where
  | read
  | probe
  | persist (st : Status)
  | finished
deriving DecidableEq, Repr

/-- `persist_video` writes an end and nothing else. -/
def persist (st : Status) : VideoPc := if st.isEnd then .persist st else .finished

/-- `api_video_status`. -/
def statusMove (r : Row) : VideoPc → Move → Option (Row × VideoPc)
  | .read, .query true => some (r, if r.status = .cancelled then .finished else .probe)
  | .read, .query false => some (r, .finished)
  | .probe, .probe st => some (r, persist st)
  | .persist st, .query true => some (r.close st, .finished)
  | .persist _, .query false => some (r, .finished)
  | _, _ => none

/-- The worker of `exec_video`: it asks until ComfyUI knows an end, or gives up. -/
def videoMove (r : Row) : VideoPc → Move → Option (Row × VideoPc)
  | .probe, .probe st => some (r, if st.isEnd then .persist st else .probe)
  | .probe, .timeout => some (r, .persist .error)
  | .persist st, .query true => some (r.close st, .finished)
  | .persist _, .query false => some (r, .finished)
  | _, _ => none

/-! ## The machine -/

/-- A party of a job. -/
inductive Party where
  | imageWorker (job : ImageJob) (pc : WorkerPc)
  | cancel (video : Bool) (pc : CancelPc)
  | videoStatus (pc : VideoPc)
  | videoWorker (pc : VideoPc)
deriving DecidableEq, Repr

/-- The job: an image, a video of the page, a video of the chat's tool. -/
inductive Job where
  | image (job : ImageJob)
  | videoPage
  | videoTool
deriving DecidableEq, Repr

def Job.isVideo : Job → Bool
  | .image _ => false
  | _ => true

/-- The requests of the job's owner; an image has no status route. -/
inductive Request : Bool → Type where
  | cancel (video : Bool) : Request video
  | status : Request true

def Request.first {video : Bool} : Request video → Party
  | .cancel v => .cancel v .read
  | .status => .videoStatus .read

def move (r : Row) (p : Party) (m : Move) : Option (Row × Party) :=
  match p with
  | .imageWorker job pc => (workerMove job r pc m).map fun x => (x.1, .imageWorker job x.2)
  | .cancel video pc => (cancelMove video r pc m).map fun x => (x.1, .cancel video x.2)
  | .videoStatus pc => (statusMove r pc m).map fun x => (x.1, .videoStatus x.2)
  | .videoWorker pc => (videoMove r pc m).map fun x => (x.1, .videoWorker x.2)

/-- The parties of a job. -/
def jobs (video : Bool) : Machine Row (Request video) Party Move Empty where
  first := Request.first
  move := move
  env := fun _ e => e.elim

/-- The row as it is inserted, and the worker spawned with it. -/
def Job.init : Job → Conf Row Party
  | .image job => ⟨⟨.running, 0, false, false⟩, [.imageWorker job (job.turn 0 0)]⟩
  | .videoPage => ⟨⟨.pending, 0, false, false⟩, []⟩
  | .videoTool => ⟨⟨.running, 0, false, false⟩, [.videoWorker .probe]⟩

/-- A cancel that was answered stays, and a job that has ended is not cancelled. -/
def EndKept (s : Conf Row Party) : Prop :=
  (s.shared.acknowledged = true → s.shared.status = .cancelled) ∧
  (s.shared.ended = true → s.shared.status ≠ .cancelled)

/-- The status that the next move of a party writes. -/
def Party.writes : Party → Move → Option Status
  | .imageWorker _ (.close cancelled done), .query true => some (finalStatus cancelled done)
  | .cancel _ .write, .query true => some .cancelled
  | .videoStatus (.persist st), .query true => some st
  | .videoWorker (.persist st), .query true => some st
  | _, _ => none

/-- `st` may be written over the status of the row: no end over "cancelled", no
"cancelled" over an end. -/
def Row.admits (r : Row) (st : Status) : Prop :=
  (st.isEnd = true → r.status ≠ .cancelled) ∧ (st = .cancelled → r.status.isEnd = false)

instance (r : Row) (st : Status) : Decidable (r.admits st) := inferInstanceAs (Decidable (_ ∧ _))

/-- A status is only written over one that admits it. -/
def admitted {video : Bool} (s : Conf Row Party) : Act (Request video) Move Empty → Prop
  | .move i m => ∀ p ∈ s.calls[i]?, ∀ st ∈ p.writes m, s.shared.admits st
  | _ => True

instance {video : Bool} (s : Conf Row Party) :
    (a : Act (Request video) Move Empty) → Decidable (admitted s a)
  | .move i m => inferInstanceAs
      (Decidable (∀ p ∈ s.calls[i]?, ∀ st ∈ p.writes m, s.shared.admits st))
  | .enter _ => .isTrue trivial
  | .env _ => .isTrue trivial

/-! ## What a move writes -/

variable {r r' : Row} {p p' : Party} {m : Move} {video : Bool} {s s' : Conf Row Party} {i : Nat}

/-- What a party holds is sound: the image worker that is about to write "cancelled" has
found it, and only an end is persisted. -/
def Party.Sound (r : Row) : Party → Prop
  | .imageWorker _ (.close true _) => r.status = .cancelled
  | .videoStatus (.persist st) => st.isEnd = true
  | .videoWorker (.persist st) => st.isEnd = true
  | _ => True

/-- The rows agree on the status and on its history. -/
def Row.Same (r r' : Row) : Prop :=
  r'.status = r.status ∧ r'.acknowledged = r.acknowledged ∧ r'.ended = r.ended

/-- A move leaves the status alone, or writes one: as a cancel, or as an end. -/
inductive JobMove (r : Row) (p : Party) (m : Move) (r' : Row) (p' : Party) : Prop
  | quiet (hrow : r.Same r') (hwrites : p.writes m = none) (hsound : p'.Sound r)
  | cancelled (hrow : r.cancel.Same r') (hwrites : p.writes m = some .cancelled)
      (hsound : ∀ q, p'.Sound q)
  | closed (st : Status) (hrow : (r.close st).Same r') (hwrites : p.writes m = some st)
      (hsound : ∀ q, p'.Sound q)
      (hst : p.Sound r → st.isEnd = true ∨ (st = .cancelled ∧ r.status = .cancelled))

theorem Row.Same.refl (r : Row) : r.Same r := ⟨rfl, rfl, rfl⟩

theorem sound_turn (job job' : ImageJob) (idx done : Nat) (r : Row) :
    (Party.imageWorker job' (job.turn idx done)).Sound r := by
  unfold ImageJob.turn
  split <;> trivial

theorem jobMove_worker {job : ImageJob} {pc pc' : WorkerPc}
    (h : workerMove job r pc m = some (r', pc')) :
    JobMove r (.imageWorker job pc) m r' (.imageWorker job pc') := by
  unfold workerMove at h
  split at h
  · split at h <;> cases h <;> exact .quiet (.refl r) rfl trivial
  · next idx done ok =>
      cases h
      refine .quiet (.refl r) rfl ?_
      cases ok
      · exact sound_turn ..
      · trivial
  · next idx done ok =>
      cases h
      refine .quiet (.refl r) rfl ?_
      cases ok
      · exact sound_turn ..
      · trivial
  · next idx done ok =>
      cases h
      refine .quiet ?_ rfl (sound_turn ..)
      cases ok <;> exact ⟨rfl, rfl, rfl⟩
  · next done ok =>
      cases h
      refine .quiet (.refl r) rfl ?_
      -- the worker holds what it has read
      cases hread : readsCancelled r ok
      · trivial
      · simp only [readsCancelled, Bool.and_eq_true, beq_iff_eq] at hread
        exact hread.2
  · next cancelled done =>
      cases h
      refine .closed (finalStatus cancelled done) ⟨rfl, rfl, rfl⟩ rfl (fun _ => trivial) ?_
      intro hsound
      cases cancelled
      · left
        change (if 0 < done then Status.done else Status.error).isEnd = true
        split <;> rfl
      · exact Or.inr ⟨rfl, hsound⟩
  · cases h
    exact .quiet (.refl r) rfl trivial
  · cases h

theorem jobMove_cancel {pc pc' : CancelPc} (h : cancelMove video r pc m = some (r', pc')) :
    JobMove r (.cancel video pc) m r' (.cancel video pc') := by
  unfold cancelMove at h
  split at h
  · split at h
    · cases h
      exact .quiet (.refl r) rfl trivial
    · split at h <;> cases h <;> exact .quiet (.refl r) rfl trivial
  · cases h
    exact .quiet (.refl r) rfl trivial
  · cases h
    exact .cancelled (.refl _) rfl fun _ => trivial
  · cases h
    exact .quiet (.refl r) rfl trivial
  · cases h
    exact .quiet (.refl r) rfl trivial
  · cases h

theorem jobMove_status {pc pc' : VideoPc} (h : statusMove r pc m = some (r', pc')) :
    JobMove r (.videoStatus pc) m r' (.videoStatus pc') := by
  unfold statusMove at h
  split at h
  · cases h
    refine .quiet (.refl r) rfl ?_
    split <;> trivial
  · cases h
    exact .quiet (.refl r) rfl trivial
  · next st =>
      cases h
      refine .quiet (.refl r) rfl ?_
      unfold persist
      split
      · next hst => exact hst
      · trivial
  · next st =>
      cases h
      exact .closed st (.refl _) rfl (fun _ => trivial) fun hsound => Or.inl hsound
  · cases h
    exact .quiet (.refl r) rfl trivial
  · cases h

theorem jobMove_video {pc pc' : VideoPc} (h : videoMove r pc m = some (r', pc')) :
    JobMove r (.videoWorker pc) m r' (.videoWorker pc') := by
  unfold videoMove at h
  split at h
  · next st =>
      cases h
      refine .quiet (.refl r) rfl ?_
      split
      · next hst => exact hst
      · trivial
  · cases h
    exact .quiet (.refl r) rfl (rfl : Status.isEnd .error = true)
  · next st =>
      cases h
      exact .closed st (.refl _) rfl (fun _ => trivial) fun hsound => Or.inl hsound
  · cases h
    exact .quiet (.refl r) rfl trivial
  · cases h

theorem jobMove_of_move (h : move r p m = some (r', p')) : JobMove r p m r' p' := by
  unfold move at h
  cases p with
  | imageWorker job pc =>
    obtain ⟨x, hx, heq⟩ := Option.map_eq_some_iff.1 h
    cases heq
    exact jobMove_worker hx
  | cancel video pc =>
    obtain ⟨x, hx, heq⟩ := Option.map_eq_some_iff.1 h
    cases heq
    exact jobMove_cancel hx
  | videoStatus pc =>
    obtain ⟨x, hx, heq⟩ := Option.map_eq_some_iff.1 h
    cases heq
    exact jobMove_status hx
  | videoWorker pc =>
    obtain ⟨x, hx, heq⟩ := Option.map_eq_some_iff.1 h
    cases heq
    exact jobMove_video hx

theorem move_of_writes {st : Status} (r : Row) (h : p.writes m = some st) :
    ∃ r' p', move r p m = some (r', p') ∧ r'.status = st := by
  unfold Party.writes at h
  split at h
  · cases h
    exact ⟨_, _, rfl, rfl⟩
  · cases h
    exact ⟨_, _, rfl, rfl⟩
  · cases h
    exact ⟨_, _, rfl, rfl⟩
  · cases h
    exact ⟨_, _, rfl, rfl⟩
  · cases h

/-! ## The invariant -/

/-- The history agrees with the status, and every party is sound. -/
structure Followed (s : Conf Row Party) : Prop where
  acknowledged : s.shared.acknowledged = true ↔ s.shared.status = .cancelled
  ended : s.shared.ended = s.shared.status.isEnd
  sound : ∀ p ∈ s.calls, p.Sound s.shared

theorem Followed.kept (h : Followed s) : EndKept s := by
  refine ⟨h.acknowledged.1, ?_⟩
  intro hend hcancel
  rw [h.ended, hcancel] at hend
  cases hend

theorem followed_init (job : Job) : Followed job.init := by
  cases job with
  | image job =>
    refine ⟨by simp [Job.init], rfl, ?_⟩
    intro p hp
    obtain rfl : p = .imageWorker job (job.turn 0 0) := by simpa [Job.init] using hp
    exact sound_turn ..
  | videoPage => exact ⟨by simp [Job.init], rfl, by simp [Job.init]⟩
  | videoTool => exact ⟨by simp [Job.init], rfl, by simp [Job.init, Party.Sound]⟩

theorem Party.Sound.congr (h : p.Sound r) (hr : r.status = .cancelled → r'.status = .cancelled) :
    p.Sound r' := by
  unfold Party.Sound at h ⊢
  split at h
  · exact hr h
  · exact h
  · exact h
  · trivial

/-- A party that holds "cancelled" keeps what it holds when nothing else is written over it. -/
theorem followed_write (h : Followed s) (hack : r'.acknowledged = true ↔ r'.status = .cancelled)
    (hend : r'.ended = r'.status.isEnd)
    (hcancel : s.shared.status = .cancelled → r'.status = .cancelled) (hsound : p'.Sound r') :
    Followed ⟨r', s.calls.set i p'⟩ :=
  ⟨hack, hend, forall_set (fun q hq => (h.sound q hq).congr hcancel) hsound⟩

theorem followed_quiet (h : Followed s) (hrow : s.shared.Same r') (hsound : p'.Sound s.shared) :
    Followed ⟨r', s.calls.set i p'⟩ := by
  obtain ⟨hst, hack, hend⟩ := hrow
  have hcancel : s.shared.status = .cancelled → r'.status = .cancelled := fun hc => hst.trans hc
  refine followed_write h ?_ ?_ hcancel (hsound.congr hcancel)
  · rw [hst, hack]
    exact h.acknowledged
  · rw [hst, hend]
    exact h.ended

theorem followed_cancel (h : Followed s) (hrow : s.shared.cancel.Same r')
    (hadm : s.shared.admits .cancelled) (hsound : ∀ q, p'.Sound q) :
    Followed ⟨r', s.calls.set i p'⟩ := by
  obtain ⟨hst, hack, hend⟩ := hrow
  have hst : r'.status = .cancelled := hst
  have hnoEnd : s.shared.status.isEnd = false := hadm.2 rfl
  refine followed_write h ?_ ?_ (fun _ => hst) (hsound r')
  · refine iff_of_true ?_ hst
    rw [hack]
    simp only [Row.cancel, Bool.or_eq_true]
    cases hs : s.shared.status with
    | pending => exact Or.inr rfl
    | running => exact Or.inr rfl
    | cancelled => exact Or.inl (h.acknowledged.2 hs)
    | done =>
      rw [hs] at hnoEnd
      cases hnoEnd
    | error =>
      rw [hs] at hnoEnd
      cases hnoEnd
  · rw [hst, hend]
    exact h.ended.trans hnoEnd

/-- An end over a row that is not cancelled, or the worker's "cancelled" over the cancel
it has read. -/
theorem followed_close (h : Followed s) {st : Status} (hrow : (s.shared.close st).Same r')
    (hadm : s.shared.admits st) (hsound : ∀ q, p'.Sound q)
    (hst : st.isEnd = true ∨ (st = .cancelled ∧ s.shared.status = .cancelled)) :
    Followed ⟨r', s.calls.set i p'⟩ := by
  obtain ⟨hstatus, hack, hend⟩ := hrow
  have hstatus : r'.status = st := hstatus
  rcases hst with hst | ⟨rfl, hold⟩
  · have hne : s.shared.status ≠ .cancelled := hadm.1 hst
    refine followed_write h ?_ ?_ (fun hc => absurd hc hne) (hsound r')
    · refine iff_of_false ?_ ?_
      · rw [hack]
        exact fun ha => hne (h.acknowledged.1 ha)
      · rw [hstatus]
        rintro rfl
        cases hst
    · rw [hstatus, hend, hst]
      simp [Row.close, hst]
  · refine followed_write h ?_ ?_ (fun _ => hstatus) (hsound r')
    · refine iff_of_true ?_ hstatus
      rw [hack]
      exact h.acknowledged.2 hold
    · rw [hstatus, hend]
      simp [Row.close, h.ended, hold]

theorem followed_step (h : Followed s) {a : Act (Request video) Move Empty} (hG : admitted s a)
    (hs : (jobs video).step s a = some s') : Followed s' := by
  cases a with
  | enter q =>
    cases hs
    refine ⟨h.acknowledged, h.ended, forall_append h.sound ?_⟩
    cases q <;> trivial
  | move i m =>
    obtain ⟨p, r', p', hp, hm, rfl⟩ := Machine.step_move hs
    have hsound := h.sound p (List.mem_of_getElem? hp)
    cases jobMove_of_move hm with
    | quiet hrow _ hsound' => exact followed_quiet h hrow hsound'
    | cancelled hrow hwrites hsound' =>
      exact followed_cancel h hrow (hG p hp _ hwrites) hsound'
    | closed st hrow hwrites hsound' hst =>
      exact followed_close h hrow (hG p hp _ hwrites) hsound' (hst hsound)
  | env e => exact e.elim

/-- An end written over a cancel, or a cancel over an end, is the fault itself. -/
theorem not_endKept_of_write (h : Followed s) {a : Act (Request video) Move Empty}
    (hG : ¬ admitted s a) : ∃ s', (jobs video).step s a = some s' ∧ ¬ EndKept s' := by
  unfold admitted at hG
  split at hG
  · next i m =>
      push Not at hG
      obtain ⟨p, hp, st, hwrites, hadm⟩ := hG
      obtain ⟨r', p', hm, hst⟩ := move_of_writes s.shared hwrites
      refine ⟨⟨r', s.calls.set i p'⟩, ?_, ?_⟩
      · simp only [Machine.step, Option.mem_def.1 hp, Option.bind_some, jobs, hm, Option.map_some]
      · rintro ⟨hack, hend⟩
        have hsound := h.sound p (List.mem_of_getElem? hp)
        refine hadm ?_
        cases jobMove_of_move hm with
        | quiet _ hnone _ =>
          rw [hnone] at hwrites
          cases hwrites
        | cancelled hrow hcancel _ =>
          cases hwrites.symm.trans hcancel
          -- the row would still say that the job had ended
          refine And.intro (fun hno => by cases hno) fun _ => ?_
          by_contra hover
          have hover : s.shared.status.isEnd = true := by simpa using hover
          refine hend ?_ hrow.1
          rw [hrow.2.2]
          exact h.ended.trans hover
        | closed st' hrow hclose _ hst' =>
          cases hwrites.symm.trans hclose
          refine ⟨fun hover hcancel => ?_, fun hcancel => ?_⟩
          · -- the row would still say that the cancel was answered
            have hnow : r'.status = .cancelled := by
              refine hack ?_
              rw [hrow.2.1]
              exact h.acknowledged.2 hcancel
            rw [hst] at hnow
            rw [hnow] at hover
            cases hover
          · rcases hst' hsound with hover | ⟨-, hold⟩
            · rw [hcancel] at hover
              cases hover
            · rw [hold]
              rfl
  · exact absurd trivial hG

/-- The page polls a video while the owner cancels it: the poll has read "pending", and
ComfyUI, whose queue no longer holds the prompt, answers with an error. -/
def pollOverCancel : List (Act (Request true) Move Empty) :=
  [.enter .status, .enter (.cancel true), .move 0 (.query true),
    .move 1 (.query true), .move 1 .interrupt, .move 1 (.query true),
    .move 0 (.probe .error), .move 0 (.query true)]

/-- The last image is saved while the owner cancels: the worker has looked already. -/
def doneOverCancel : List (Act (Request false) Move Empty) :=
  [.move 0 (.query true), .move 0 (.generate true), .move 0 (.save true), .move 0 (.query true),
    .move 0 (.query true), .enter (.cancel false), .move 1 (.query true), .move 1 (.query true),
    .move 0 (.query true)]

/-- The cancel of a finished image: it has read "running" before. -/
def cancelOverDone : List (Act (Request false) Move Empty) :=
  [.move 0 (.query true), .move 0 (.generate true), .move 0 (.save true), .move 0 (.query true),
    .move 0 (.query true), .enter (.cancel false), .move 1 (.query true), .move 0 (.query true),
    .move 1 (.query true)]

end Portal.MediaJobs
