import DgxPlatform.Lib.Calls
import DgxPlatform.Lib.Text

/-! # The model download: one slot, any number of starts

`download::start` looks at the slot in one critical section and stores its job
in another. Between the two it builds the destination, so another start may pass
the same check; and a worker that ends recognises the job in the slot by its
repository, not by identity.

Starts and their workers are the calls of a `Calls.Machine` over the slot,
`clear` is its environment. A worker counts from the store of its job on:
`thread::spawn` follows it without a lock in between.

The slot is exclusive exactly in the runs in which every store finds no running
job (`exclusive_iff_storesFree`).
-/

namespace Runner.Download

open Run Calls

/-- Where the weights go. -/
inductive Target where
  | cache
  | local
deriving DecidableEq, Repr

def Target.asStr : Target → String
  | .cache => "cache"
  | .local => "local"

/-- The paths of the configuration that a download reads. -/
structure Paths where
  modelsDir : String
  hfHome : String

/-- The job in the slot. -/
structure Job where
  repo : String
  target : Target
  dest : String
  error : Option String
  running : Bool
deriving DecidableEq, Repr

/-- The characters of the two parts of a repository id. -/
def repoChar (c : Char) : Bool := c.isAlphanum || c == '.' || c == '_' || c == '-'

/-- `valid_repo`: `owner/name`, nothing that can escape a path. -/
def validRepo (repo : String) : Bool :=
  let cs := repo.toList
  let parts := cs.splitOn '/'
  if repo.utf8ByteSize < 3 || repo.utf8ByteSize > 160 || cs.head? == some '/'
      || cs.getLast? == some '/' then false
  else if Text.contains cs "..".toList || cs.contains '\\' || parts.length != 2 then false
  else parts.all fun part => !part.isEmpty && part.all repoChar

/-- `Path::join` with a relative name. -/
def joinPath (dir name : String) : String :=
  if dir.isEmpty || dir.endsWith "/" then dir ++ name else dir ++ "/" ++ name

/-- The arguments of a start. -/
structure Request where
  repo : String
  target : Target
deriving DecidableEq, Repr

/-- The answer of a start that was not refused. -/
structure Answer where
  repo : String
  target : String
  dest : String
deriving DecidableEq, Repr

/-- Where a start stands; from `spawning` on it is also its worker. -/
inductive Pc where
  /-- before the id check and the first critical section -/
  | checking
  /-- the slot held no running job -/
  | preparing
  /-- the job is built, the slot is not locked again yet -/
  | storing (job : Job)
  /-- the job is stored, `thread::spawn` follows -/
  | spawning (repo : String)
  /-- the worker runs; `start` has its answer -/
  | working (repo : String) (answer : Answer)
  | refused (message : String)
  | completed
deriving DecidableEq, Repr

structure Call where
  request : Request
  pc : Pc
deriving DecidableEq, Repr

/-- The moves of a start and its worker, with what the system answers. -/
inductive Move where
  | check
  | prepare (dir : Except String Unit)
  | store
  | spawn
  | complete (outcome : Except String Unit)

/-- `busy`: a job exists and has not finished. -/
def busy (slot : Option Job) : Bool := slot.any Job.running

/-- `clear`: forgets the finished job. -/
def clear (slot : Option Job) : Option Job :=
  if slot.any fun j => !j.running then none else slot

/-- The first section of `start`: the id, then the job that is running. -/
def check (slot : Option Job) (r : Request) : Except String Unit :=
  if validRepo r.repo = false then
    .error ("« " ++ r.repo ++ " » is not a Hugging Face repo id (owner/name expected).")
  else
    match slot.filter Job.running with
    | some j => .error ("A download is already running: " ++ j.repo ++ ".")
    | none => .ok ()

def dest (paths : Paths) : String := joinPath paths.hfHome "hub"

/-- Between the sections: the target, the directory, the job. -/
def prepare (paths : Paths) (r : Request) (dir : Except String Unit) : Except String Job :=
  if r.target = .local then
    .error ("MODELS_DIR (" ++ paths.modelsDir ++ ") belongs to root: a « local: » model cannot be "
      ++ "fetched from the console. Use the repository id (owner/name) instead — the weights go "
      ++ "to the HF cache and the launch finds them.")
  else
    match dir with
    | .error e => .error ("cannot create " ++ dest paths ++ ": " ++ e)
    | .ok () =>
        .ok { repo := r.repo, target := r.target, dest := dest paths, error := none, running := true }

/-- The worker's last section: the job in the slot is finished when it carries the
worker's repository. -/
def complete (slot : Option Job) (repo : String) (outcome : Except String Unit) : Option Job :=
  slot.map fun j =>
    if j.repo = repo then
      { j with
        running := false
        error := match outcome with
          | .error e => some e
          | .ok () => none }
    else j

/-- The next section of a start or of its worker. -/
def move (paths : Paths) (slot : Option Job) (c : Call) (m : Move) : Option (Option Job × Call) :=
  match c.pc, m with
  | .checking, .check =>
      match check slot c.request with
      | .error e => some (slot, { c with pc := .refused e })
      | .ok () => some (slot, { c with pc := .preparing })
  | .preparing, .prepare dir =>
      match prepare paths c.request dir with
      | .error e => some (slot, { c with pc := .refused e })
      | .ok job => some (slot, { c with pc := .storing job })
  -- no second look at the slot: the job that is there is overwritten
  | .storing job, .store => some (some job, { c with pc := .spawning job.repo })
  | .spawning repo, .spawn =>
      some (slot, { c with pc := .working repo ⟨repo, c.request.target.asStr, dest paths⟩ })
  | .working repo _, .complete outcome =>
      some (complete slot repo outcome, { c with pc := .completed })
  | _, _ => none

/-- The download service: starts with their workers, and `clear`. -/
def service (paths : Paths) : Machine (Option Job) Request Call Move Unit where
  first := fun r => ⟨r, .checking⟩
  move := move paths
  env := fun slot _ => some (clear slot)

/-- The repository the worker of a call fetches. -/
def Call.fetching (c : Call) : Option String :=
  match c.pc with
  | .spawning repo => some repo
  | .working repo _ => some repo
  | _ => none

/-- Whether a call has a worker. -/
def Call.worker (c : Call) : Nat := if c.fetching.isSome then 1 else 0

/-- The workers of a state. -/
def workers (s : Conf (Option Job) Call) : Nat := total Call.worker s.calls

/-- At most one worker, and the slot says "running" exactly when there is one. -/
def Exclusive (s : Conf (Option Job) Call) : Prop :=
  workers s ≤ 1 ∧ (busy s.shared = true ↔ 0 < workers s)

/-- A store finds no running job in the slot. -/
def storesFree (s : Conf (Option Job) Call) : Act Request Move Unit → Prop
  | .move i .store =>
      ∀ c ∈ s.calls[i]?, ∀ job, c.pc = .storing job → busy s.shared = false
  | _ => True

/-! ## What a move does -/

variable {paths : Paths} {slot slot' : Option Job} {c c' : Call} {m : Move}

theorem prepare_running {r : Request} {dir : Except String Unit} {job : Job}
    (h : prepare paths r dir = .ok job) : job.running = true := by
  unfold prepare at h
  split at h
  · cases h
  · split at h
    · cases h
    · cases h
      rfl

/-- A move leaves the slot and the worker of its call alone, or stores the job of a
new worker, or is the end of a worker. -/
theorem move_cases (h : move paths slot c m = some (slot', c')) :
    (slot' = slot ∧ c'.fetching = c.fetching ∧ ∀ job, c'.pc = .storing job → job.running = true) ∨
    (∃ job, m = .store ∧ c.pc = .storing job ∧ slot' = some job ∧ c'.pc = .spawning job.repo) ∨
    (∃ repo outcome, c.fetching = some repo ∧ slot' = complete slot repo outcome ∧
      c'.pc = .completed) := by
  unfold move at h
  split at h
  · next hpc =>
      split at h <;> cases h <;> exact Or.inl ⟨rfl, by simp [Call.fetching, hpc], by simp⟩
  · next hpc =>
      split at h
      · cases h
        exact Or.inl ⟨rfl, by simp [Call.fetching, hpc], by simp⟩
      · next job hjob =>
          cases h
          refine Or.inl ⟨rfl, by simp [Call.fetching, hpc], ?_⟩
          intro job' hjob'
          cases hjob'
          exact prepare_running hjob
  · next job hpc =>
      cases h
      exact Or.inr (Or.inl ⟨job, rfl, hpc, rfl, rfl⟩)
  · next repo hpc =>
      cases h
      exact Or.inl ⟨rfl, by simp [Call.fetching, hpc], by simp⟩
  · next repo answer outcome hpc =>
      cases h
      exact Or.inr (Or.inr ⟨repo, outcome, by simp [Call.fetching, hpc], rfl, rfl⟩)
  · cases h

theorem busy_clear (slot : Option Job) : busy (clear slot) = busy slot := by
  unfold clear
  split
  · next h =>
      cases slot with
      | none => rfl
      | some j => simpa [busy] using h
  · rfl

theorem clear_of_busy (h : busy slot = true) : clear slot = slot := by
  cases slot with
  | none => rfl
  | some j =>
    have hj : j.running = true := by simpa [busy] using h
    simp [clear, hj]

theorem busy_complete {j : Job} (outcome : Except String Unit) :
    busy (complete (some j) j.repo outcome) = false := by
  simp [complete, busy]

/-! ## The invariant -/

/-- The slot is exclusive, a worker's repository is the slot's, and a job that is
about to be stored is running. -/
structure Owned (s : Conf (Option Job) Call) : Prop where
  exclusive : Exclusive s
  named : ∀ c ∈ s.calls, ∀ repo ∈ c.fetching, repo ∈ s.shared.map Job.repo
  ready : ∀ c ∈ s.calls, ∀ job, c.pc = .storing job → job.running = true

variable {s s' : Conf (Option Job) Call} {i : Nat}

theorem owned_init : Owned (Conf.init none) where
  exclusive := ⟨Nat.zero_le 1, by simp [Conf.init, busy, workers]⟩
  named := by simp [Conf.init]
  ready := by simp [Conf.init]

theorem worker_of_fetching {repo : String} (h : c.fetching = some repo) : c.worker = 1 := by
  simp [Call.worker, h]

theorem worker_of_fetching_none (h : c.fetching = none) : c.worker = 0 := by
  simp [Call.worker, h]

theorem Owned.fetching_none (h : Owned s) (hfree : busy s.shared = false) :
    ∀ c ∈ s.calls, c.fetching = none := by
  intro c hc
  have hzero : workers s = 0 := by
    by_contra hne
    have hbusy := h.exclusive.2.2 (Nat.pos_of_ne_zero hne)
    rw [hfree] at hbusy
    cases hbusy
  by_contra hsome
  have hlt : total (fun _ => 0) s.calls < workers s := by
    refine total_lt_total (fun d _ => Nat.zero_le _) hc ?_
    obtain ⟨repo, hrepo⟩ := Option.ne_none_iff_exists'.1 hsome
    rw [worker_of_fetching hrepo]
    exact Nat.one_pos
  omega

theorem owned_enter (h : Owned s) (r : Request) :
    Owned { s with calls := s.calls ++ [⟨r, .checking⟩] } where
  exclusive := by
    have hw : workers { s with calls := s.calls ++ [⟨r, .checking⟩] } = workers s := by
      simp [workers, Call.worker, Call.fetching]
    unfold Exclusive
    rw [hw]
    exact h.exclusive
  named := forall_append h.named (by simp [Call.fetching])
  ready := forall_append h.ready (by simp)

theorem owned_clear (h : Owned s) : Owned { s with shared := clear s.shared } where
  exclusive := by
    unfold Exclusive
    rw [busy_clear]
    exact h.exclusive
  named := by
    intro c hc repo hrepo
    -- a call with a worker keeps the slot busy, and a busy slot is not cleared
    by_cases hbusy : busy s.shared = true
    · rw [clear_of_busy hbusy]
      exact h.named c hc repo hrepo
    · rw [h.fetching_none (by simpa using hbusy) c hc] at hrepo
      cases hrepo
  ready := h.ready

/-- A move that leaves the slot and the worker alone keeps the invariant. -/
theorem owned_quiet (h : Owned s) (hc : s.calls[i]? = some c)
    (hf : c'.fetching = c.fetching) (hready : ∀ job, c'.pc = .storing job → job.running = true) :
    Owned ⟨s.shared, s.calls.set i c'⟩ where
  exclusive := by
    have hw : workers ⟨s.shared, s.calls.set i c'⟩ = workers s :=
      total_set_of_eq Call.worker hc c' (by simp [Call.worker, hf])
    unfold Exclusive
    rw [hw]
    exact h.exclusive
  named := by
    refine forall_set h.named ?_
    intro repo hrepo
    rw [hf] at hrepo
    exact h.named c (List.mem_of_getElem? hc) repo hrepo
  ready := forall_set h.ready hready

theorem workers_store {job : Job} (hc : s.calls[i]? = some c) (hpc : c.pc = .storing job)
    (hpc' : c'.pc = .spawning job.repo) (sh : Option Job) :
    workers ⟨sh, s.calls.set i c'⟩ = workers s + 1 := by
  have hset := total_set Call.worker hc c'
  have hw : c.worker = 0 := worker_of_fetching_none (by simp [Call.fetching, hpc])
  have hf' : c'.fetching = some job.repo := by simp [Call.fetching, hpc']
  have hw' : c'.worker = 1 := worker_of_fetching hf'
  unfold workers
  rw [hw, hw'] at hset
  exact hset

theorem owned_store {job : Job} (h : Owned s) (hc : s.calls[i]? = some c)
    (hpc : c.pc = .storing job) (hpc' : c'.pc = .spawning job.repo)
    (hfree : busy s.shared = false) : Owned ⟨some job, s.calls.set i c'⟩ := by
  have hnone := h.fetching_none hfree
  have hzero : workers s = 0 := total_eq_zero Call.worker fun d hd => worker_of_fetching_none (hnone d hd)
  have hrun : job.running = true := h.ready c (List.mem_of_getElem? hc) job hpc
  have hone : workers ⟨some job, s.calls.set i c'⟩ = 1 := by
    rw [workers_store hc hpc hpc', hzero]
  constructor
  · unfold Exclusive
    rw [hone]
    exact ⟨Nat.le_refl 1, by simp [busy, hrun]⟩
  · refine forall_set ?_ (by simp [Call.fetching, hpc'])
    intro d hd repo hrepo
    rw [hnone d hd] at hrepo
    cases hrepo
  · exact forall_set h.ready (by simp [hpc'])

theorem owned_complete {repo : String} {outcome : Except String Unit} (h : Owned s)
    (hc : s.calls[i]? = some c) (hf : c.fetching = some repo) (hpc' : c'.pc = .completed) :
    Owned ⟨complete s.shared repo outcome, s.calls.set i c'⟩ := by
  have hmem := List.mem_of_getElem? hc
  have hset := total_set Call.worker hc c'
  have hw : c.worker = 1 := worker_of_fetching hf
  have hw' : c'.worker = 0 := worker_of_fetching_none (by simp [Call.fetching, hpc'])
  -- the worker that ends was the only one, so nobody fetches any more
  have hzero : workers ⟨complete s.shared repo outcome, s.calls.set i c'⟩ = 0 := by
    have hle := h.exclusive.1
    unfold workers at hle ⊢
    dsimp only
    omega
  have hfree : busy (complete s.shared repo outcome) = false := by
    obtain ⟨j, hj, rfl⟩ := Option.mem_map.1 (h.named c hmem repo hf)
    rw [Option.mem_def.1 hj]
    exact busy_complete outcome
  have hex : Exclusive ⟨complete s.shared repo outcome, s.calls.set i c'⟩ := by
    unfold Exclusive
    rw [hzero, hfree]
    simp
  constructor
  · exact hex
  · intro d hd repo' hrepo'
    exfalso
    have hlt : total (fun _ => 0) (s.calls.set i c') < total Call.worker (s.calls.set i c') := by
      refine total_lt_total (fun d _ => Nat.zero_le _) hd ?_
      rw [worker_of_fetching hrepo']
      exact Nat.one_pos
    unfold workers at hzero
    dsimp only at hzero
    omega
  · exact forall_set h.ready (by simp [hpc'])

theorem owned_step (h : Owned s) {a : Act Request Move Unit} (hG : storesFree s a)
    (hs : (service paths).step s a = some s') : Owned s' := by
  cases a with
  | enter r =>
    cases hs
    exact owned_enter h r
  | move i m =>
    obtain ⟨c, sh, c', hc, hm, rfl⟩ := Machine.step_move hs
    rcases move_cases hm with ⟨rfl, hf, hready⟩ | ⟨job, rfl, hpc, rfl, hpc'⟩ |
      ⟨repo, outcome, hf, rfl, hpc'⟩
    · exact owned_quiet h hc hf hready
    · exact owned_store h hc hpc hpc' (hG c hc job hpc)
    · exact owned_complete h hc hf hpc'
  | env e =>
    obtain ⟨sh, hsh, rfl⟩ := Machine.step_env hs
    cases hsh
    exact owned_clear h

theorem not_exclusive_of_store (h : Owned s) {a : Act Request Move Unit} (hG : ¬ storesFree s a) :
    ∃ s', (service paths).step s a = some s' ∧ ¬ Exclusive s' := by
  unfold storesFree at hG
  split at hG
  · next i =>
      push Not at hG
      obtain ⟨c, hc, job, hpc, hbusy⟩ := hG
      have hbusy : busy s.shared = true := by simpa using hbusy
      refine ⟨⟨some job, s.calls.set i { c with pc := .spawning job.repo }⟩, ?_, ?_⟩
      · simp only [Machine.step, Option.mem_def.1 hc, Option.bind_some, service, move, hpc,
          Option.map_some]
      · intro hex
        have hpos := h.exclusive.2.1 hbusy
        have hle := hex.1
        rw [workers_store hc hpc rfl] at hle
        omega
  · exact absurd trivial hG

/-- The slot is exclusive along a run exactly when every store finds no running
job: neither a second worker nor a slot that disagrees with its worker can come
from anything else. -/
theorem exclusive_iff_storesFree (paths : Paths) (acts : List (Act Request Move Unit)) :
    Always (service paths).step Exclusive (Conf.init none) acts ↔
      Meets (service paths).step storesFree (Conf.init none) acts :=
  always_iff_meets (fun _ h => h.exclusive) (fun _ _ _ h hG hs => owned_step h hG hs)
    (fun _ _ h hG => not_exclusive_of_store h hG) owned_init

/-- Two starts that both check before either stores: two downloads of one
repository run, and the end of the first marks the job of the second finished. -/
def overlapping : List (Act Request Move Unit) :=
  [.enter ⟨"owner/name", .cache⟩, .enter ⟨"owner/name", .cache⟩,
    .move 0 .check, .move 1 .check, .move 0 (.prepare (.ok ())), .move 1 (.prepare (.ok ())),
    .move 0 .store, .move 0 .spawn, .move 1 .store, .move 1 .spawn, .move 0 (.complete (.ok ()))]

theorem overlapping_not_exclusive :
    (∃ s, exec (service ⟨"/srv/models", "/srv/hf"⟩).step (Conf.init none) (overlapping.take 10)
      = some s ∧ workers s = 2) ∧
    (∃ s, exec (service ⟨"/srv/models", "/srv/hf"⟩).step (Conf.init none) overlapping = some s ∧
      busy s.shared = false ∧ workers s = 1) ∧
    ¬ Always (service ⟨"/srv/models", "/srv/hf"⟩).step Exclusive (Conf.init none) overlapping := by
  have hend : ∃ s, exec (service ⟨"/srv/models", "/srv/hf"⟩).step (Conf.init none) overlapping
      = some s ∧ busy s.shared = false ∧ workers s = 1 := ⟨_, rfl, rfl, rfl⟩
  refine ⟨⟨_, rfl, rfl⟩, hend, ?_⟩
  intro h
  obtain ⟨s, hs, hfree, hone⟩ := hend
  have hbusy : busy s.shared = true := (h _ (List.prefix_refl _) s hs).2.2 (by omega)
  rw [hfree] at hbusy
  cases hbusy

end Runner.Download
