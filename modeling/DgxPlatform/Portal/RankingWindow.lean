import DgxPlatform.Lib.CivilDate
import DgxPlatform.Lib.Grouping
import DgxPlatform.Portal.Ranking

/-! # The window of a period

`window` computes where a period begins and the buckets of its trend, each in its own way:
a week begins seven times 24 hours ago and has the last seven calendar days as buckets, a
year begins with a month and has its months. The logs from the beginning on are grouped by
the bucket of their local time, by key and by model.

* `nodup_bucketsOf`: the buckets are different.
-/

namespace Portal.Ranking

open Civil (Date Timestamp monthText)

/-- `AT TIME ZONE`, from the local time of the zone and to it. When the clock has shown a
local time for the last time, it shows no earlier one. -/
structure Zone where
  toUtc : Timestamp → Timestamp
  toLocal : Timestamp → Timestamp
  later : ∀ c u, toUtc c ≤ u → c ≤ toLocal u

/-- A row of the spend logs, its time in UTC. -/
structure SpendLog where
  startTime : Timestamp
  apiKey : Option String
  model : Option String
  prompt : Option Int
  completion : Option Int
  success : Bool

structure Window where
  curUtc : Timestamp
  prevUtc : Timestamp
  buckets : List String

/-! ## The beginning and the buckets -/

/-- `date_trunc('month', …)`, a number of months before. -/
def monthStart (d : Date) (monthsBack : Nat) : Timestamp :=
  let index := d.monthIndex - monthsBack
  .midnight (.first (index / 12) (index % 12 + 1).toNat (by omega) (by omega))

/-- `MIN("startTime")`. -/
def earliest : List SpendLog → Option Timestamp
  | [] => none
  | log :: logs =>
      some (logs.foldl (fun t log => if log.startTime < t then log.startTime else t) log.startTime)

/-- Where a period and the one before begin, at a local time; "since the beginning" begins
with the month of the first log, whose date is the one in UTC. -/
def startOf (logs : List SpendLog) (l : Timestamp) : Period → Timestamp × Timestamp
  | .week => (l.back 7, l.back 14)
  | .month => (l.back 30, l.back 60)
  | .year => (monthStart l.date 11, monthStart l.date 23)
  | .all =>
      let first := ((earliest logs).map Timestamp.date).getD l.date
      (monthStart first 0, monthStart first 0)
  | .day => (.midnight l.date, .midnight (l.date.back 1))

/-- The last `n` days, the oldest first. -/
def days (n : Nat) (today : Date) : List String :=
  (List.range n).reverse.map fun i => (today.back i).text

/-- The months from one to another. -/
def months (y : Int) (m : Nat) (y' : Int) (m' : Nat) : List (Int × Nat) :=
  if y < y' ∨ y = y' ∧ m ≤ m' then
    (y, m) :: if m + 1 > 12 then months (y + 1) 1 y' m' else months y (m + 1) y' m'
  else []
termination_by ((y' + 1 - y).toNat, 13 - m)

/-- The buckets of a period that begins at `cur`. -/
def bucketsOf (cur today : Date) : Period → List String
  | .week => days 7 today
  | .month => days 30 today
  | .year | .all => (months cur.year cur.month today.year today.month).map fun m => monthText m.1 m.2
  | .day => (List.range 24).map toString

/-- `bucket_sql`: the bucket of a local time. -/
def bucketOf (t : Timestamp) : Period → String
  | .week | .month => t.date.text
  | .year | .all => monthText t.date.year t.date.month
  | .day => toString t.hour

/-- `window`. -/
def window (z : Zone) (now : Timestamp) (logs : List SpendLog) (p : Period) : Window :=
  let l := z.toLocal now
  let start := startOf logs l p
  { curUtc := z.toUtc start.1, prevUtc := z.toUtc start.2, buckets := bucketsOf start.1.date l.date p }

/-! ## The logs of the period -/

/-- The condition of the query. -/
def logsOf (z : Zone) (now : Timestamp) (logs : List SpendLog) (q : Query) : List SpendLog :=
  logs.filter fun log =>
    decide ((window z now logs q.period).curUtc ≤ log.startTime) && q.model.all fun m => log.model == some m

/-- `SUM`: of no value it is none. -/
def sumTokens (xs : List (Option Int)) : Option Int :=
  if xs.all Option.isNone then none else some (xs.map fun x => x.getD 0).sum

/-- What the rows are grouped by. -/
def groupKey (z : Zone) (p : Period) (log : SpendLog) : String × Option String × Option String :=
  (bucketOf (z.toLocal log.startTime) p, log.apiKey, log.model)

def groupRow (g : (String × Option String × Option String) × List SpendLog) : CurrentRow where
  bucket := some g.1.1
  apiKey := g.1.2.1
  model := g.1.2.2
  prompt := sumTokens (g.2.map SpendLog.prompt)
  completion := sumTokens (g.2.map SpendLog.completion)
  requests := g.2.countP SpendLog.success

/-- The rows of the current period. -/
def currentRows (z : Zone) (now : Timestamp) (logs : List SpendLog) (q : Query) : List CurrentRow :=
  (Grouping.groups (groupKey z q.period) (logsOf z now logs q)).map groupRow

/-- What Postgres answers, in any order. -/
structure Reads (z : Zone) (now : Timestamp) (logs : List SpendLog) (sp : Spend) (q : Query) : Prop where
  buckets : sp.buckets q.period = (window z now logs q.period).buckets
  current : (sp.current q.period q.model).Perm (currentRows z now logs q)

/-! ## The buckets are different -/

theorem nodup_days (n : Nat) (today : Date) : (days n today).Nodup := by
  refine List.Nodup.map_on ?_ (List.nodup_reverse.2 List.nodup_range)
  intro i _ j _ h
  have hdate := Civil.text_injective h
  rcases Nat.lt_trichotomy i j with hlt | heq | hgt
  · have := Civil.Date.rank_back_lt today hlt
    rw [hdate] at this
    omega
  · exact heq
  · have := Civil.Date.rank_back_lt today hgt
    rw [hdate] at this
    omega

/-- The number of a month. -/
def index (m : Int × Nat) : Int := m.1 * 12 + m.2

/-- All months from one number to another, in order. -/
structure Listing (low high : Int) (l : List (Int × Nat)) : Prop where
  bounds : ∀ x ∈ l, low ≤ index x ∧ x.2 ≤ 12
  sorted : l.Pairwise fun a b => index a < index b
  complete : ∀ x : Int × Nat, 1 ≤ x.2 → x.2 ≤ 12 → low ≤ index x → index x ≤ high → x ∈ l

theorem Listing.cons {high : Int} {l : List (Int × Nat)} {m : Int × Nat} (hm : 1 ≤ m.2 ∧ m.2 ≤ 12)
    (h : Listing (index m + 1) high l) : Listing (index m) high (m :: l) where
  bounds := by
    intro x hx
    rcases List.mem_cons.1 hx with rfl | hx
    · exact ⟨Int.le_refl _, hm.2⟩
    · have := h.bounds x hx
      exact ⟨by omega, this.2⟩
  sorted := by
    refine List.Pairwise.cons (fun x hx => ?_) h.sorted
    have := (h.bounds x hx).1
    omega
  complete := by
    intro x h1 h12 hlow hhigh
    rcases Int.lt_or_eq_of_le hlow with hlt | heq
    · exact List.mem_cons_of_mem _ (h.complete x h1 h12 (by omega) hhigh)
    · have hx : x = m := by
        unfold index at heq
        refine Prod.ext ?_ ?_ <;> omega
      rw [hx]
      exact List.mem_cons_self

theorem listing_months (y : Int) (m : Nat) (y' : Int) (m' : Nat) (hm : 1 ≤ m ∧ m ≤ 12) (hm' : m' ≤ 12) :
    Listing (index (y, m)) (index (y', m')) (months y m y' m') := by
  fun_induction months y m y' m' with
  | case1 y m hle ih ih' =>
    refine Listing.cons hm ?_
    split_ifs with hwrap
    · have hnext : index (y, m) + 1 = index (y + 1, 1) := by
        unfold index
        simp only
        omega
      rw [hnext]
      exact ih ⟨Nat.le_refl 1, by omega⟩
    · have hnext : index (y, m) + 1 = index (y, m + 1) := by
        unfold index
        simp only
        omega
      rw [hnext]
      exact ih' hwrap ⟨by omega, by omega⟩
  | case2 y m hle =>
    refine ⟨fun _ h => absurd h List.not_mem_nil, List.Pairwise.nil, ?_⟩
    intro x h1 h12 hlow hhigh
    unfold index at hlow hhigh
    simp only at hlow hhigh
    omega

theorem nodup_bucketsOf (cur today : Date) (p : Period) : (bucketsOf cur today p).Nodup := by
  have hmonths := listing_months cur.year cur.month today.year today.month
    ⟨cur.month_pos, cur.month_le⟩ today.month_le
  have hnodup : ((months cur.year cur.month today.year today.month).map fun m =>
      monthText m.1 m.2).Nodup := by
    refine List.Nodup.map_on ?_ ?_
    · intro a ha b hb h
      obtain ⟨hyear, hmonth⟩ :=
        Civil.monthText_inj (hmonths.bounds a ha).2 (hmonths.bounds b hb).2 h
      exact Prod.ext hyear hmonth
    · refine hmonths.sorted.imp ?_
      rintro a b hlt rfl
      omega
  cases p with
  | week => exact nodup_days 7 today
  | month => exact nodup_days 30 today
  | year => exact hnodup
  | all => exact hnodup
  | day =>
    show ((List.range 24).map toString).Nodup
    decide +kernel

/-! ## Which logs fall into one -/

/-- What the buckets of a period cover of the local times after its beginning: all hours,
the last calendar days, the months up to the present one. -/
def Covered (today : Date) (t : Timestamp) : Period → Prop
  | .week => ∃ i < 7, t.date = today.back i
  | .month => ∃ i < 30, t.date = today.back i
  | .year | .all => t.date.monthIndex ≤ today.monthIndex
  | .day => True

theorem mem_days {n i : Nat} {today : Date} (h : i < n) : (today.back i).text ∈ days n today :=
  List.mem_map.2 ⟨i, List.mem_reverse.2 (List.mem_range.2 h), rfl⟩

/-- The bucket of a covered time of the period is one of the buckets. -/
theorem bucketOf_mem {z : Zone} {now u : Timestamp} {logs : List SpendLog} {p : Period}
    (hu : (window z now logs p).curUtc ≤ u) (h : Covered (z.toLocal now).date (z.toLocal u) p) :
    bucketOf (z.toLocal u) p ∈ (window z now logs p).buckets := by
  have hlater : (startOf logs (z.toLocal now) p).1 ≤ z.toLocal u := z.later _ _ hu
  have hmonth := Civil.Timestamp.monthIndex_le hlater
  have hlisted : (z.toLocal u).date.monthIndex ≤ (z.toLocal now).date.monthIndex →
      monthText (z.toLocal u).date.year (z.toLocal u).date.month ∈
        (months (startOf logs (z.toLocal now) p).1.date.year (startOf logs (z.toLocal now) p).1.date.month
          (z.toLocal now).date.year (z.toLocal now).date.month).map fun m => monthText m.1 m.2 := by
    intro hnow
    have hmonths := listing_months (startOf logs (z.toLocal now) p).1.date.year
      (startOf logs (z.toLocal now) p).1.date.month (z.toLocal now).date.year (z.toLocal now).date.month
      ⟨(startOf logs (z.toLocal now) p).1.date.month_pos, (startOf logs (z.toLocal now) p).1.date.month_le⟩
      (z.toLocal now).date.month_le
    refine List.mem_map.2 ⟨((z.toLocal u).date.year, (z.toLocal u).date.month), ?_, rfl⟩
    unfold Date.monthIndex at hmonth hnow
    refine hmonths.complete _ (z.toLocal u).date.month_pos (z.toLocal u).date.month_le ?_ ?_
    · unfold index
      simp only
      omega
    · unfold index
      simp only
      omega
  cases p with
  | week =>
    obtain ⟨i, hi, hdate⟩ := h
    show (z.toLocal u).date.text ∈ days 7 (z.toLocal now).date
    rw [hdate]
    exact mem_days hi
  | month =>
    obtain ⟨i, hi, hdate⟩ := h
    show (z.toLocal u).date.text ∈ days 30 (z.toLocal now).date
    rw [hdate]
    exact mem_days hi
  | year => exact hlisted h
  | all => exact hlisted h
  | day => exact List.mem_map.2 ⟨_, List.mem_range.2 (z.toLocal u).hour_lt, rfl⟩

end Portal.Ranking
