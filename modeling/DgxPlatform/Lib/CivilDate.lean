import Mathlib.Data.List.Basic
import Mathlib.Tactic.Common

/-! # Dates and times of day

Dates of the Gregorian calendar with the day before, times of day, and the texts of a date
and of a month. A date is a valid one: month and day are within their bounds.

* `rank_pred_lt`, `rank_back_lt`: the day before is earlier, and so on back.
* `text_injective`, `monthText_inj`: a text stands for one date, and for one month.
-/

namespace Civil

def leap (y : Int) : Bool := y % 4 == 0 && (y % 100 != 0 || y % 400 == 0)

def monthDays (y : Int) (m : Nat) : Nat :=
  if m = 2 then (if leap y then 29 else 28) else if m = 4 ∨ m = 6 ∨ m = 9 ∨ m = 11 then 30 else 31

theorem monthDays_bounds (y : Int) (m : Nat) : 28 ≤ monthDays y m ∧ monthDays y m ≤ 31 := by
  unfold monthDays
  split_ifs <;> omega

/-- A day of the calendar. -/
structure Date where
  year : Int
  month : Nat
  day : Nat
  month_pos : 1 ≤ month
  month_le : month ≤ 12
  day_pos : 1 ≤ day
  day_le : day ≤ monthDays year month
deriving DecidableEq

namespace Date

/-- The first day of a month. -/
def first (year : Int) (month : Nat) (h : 1 ≤ month) (h' : month ≤ 12) : Date :=
  ⟨year, month, 1, h, h', Nat.le_refl 1, by have := monthDays_bounds year month; omega⟩

/-- The last day of a month. -/
def last (year : Int) (month : Nat) (h : 1 ≤ month) (h' : month ≤ 12) : Date :=
  ⟨year, month, monthDays year month, h, h', by have := monthDays_bounds year month; omega, Nat.le_refl _⟩

/-- The day before. -/
def pred (d : Date) : Date :=
  if h : 1 < d.day then
    ⟨d.year, d.month, d.day - 1, d.month_pos, d.month_le, by omega, by have := d.day_le; omega⟩
  else if h' : 1 < d.month then last d.year (d.month - 1) (by omega) (by have := d.month_le; omega)
  else last (d.year - 1) 12 (by omega) (by omega)

/-- A number of days before. -/
def back (d : Date) : Nat → Date
  | 0 => d
  | n + 1 => (d.back n).pred

/-- The number of the month. -/
def monthIndex (d : Date) : Int := d.year * 12 + (d.month - 1)

/-- The place of a date among all. -/
def rank (d : Date) : Int := d.monthIndex * 31 + (d.day - 1)

theorem rank_pred_lt (d : Date) : d.pred.rank < d.rank := by
  have hd := d.day_pos
  have hm := d.month_pos
  unfold pred rank monthIndex
  split_ifs with h h'
  · show (d.year * 12 + ((d.month : Int) - 1)) * 31 + (((d.day - 1 : Nat) : Int) - 1) < _
    omega
  · have hdays := (monthDays_bounds d.year (d.month - 1)).2
    show (d.year * 12 + (((d.month - 1 : Nat) : Int) - 1)) * 31 +
      ((monthDays d.year (d.month - 1) : Int) - 1) < _
    omega
  · have hdays := (monthDays_bounds (d.year - 1) 12).2
    show ((d.year - 1) * 12 + (((12 : Nat) : Int) - 1)) * 31 + ((monthDays (d.year - 1) 12 : Int) - 1) < _
    omega

theorem rank_back_lt (d : Date) {i j : Nat} (h : i < j) : (d.back j).rank < (d.back i).rank := by
  induction j with
  | zero => omega
  | succ j ih =>
    have hpred := rank_pred_lt (d.back j)
    show (d.back j).pred.rank < (d.back i).rank
    rcases Nat.lt_or_ge i j with hlt | hge
    · exact Int.lt_trans hpred (ih hlt)
    · obtain rfl : i = j := by omega
      exact hpred

end Date

/-! ## Texts -/

/-- Digits with zeros before them up to a width. -/
def pad (width n : Nat) : List Char := (Nat.toDigits 10 n).leftpad width '0'

def yearText (y : Int) : List Char := if 0 ≤ y then pad 4 y.toNat else '-' :: pad 3 (-y).toNat

/-- A date as `YYYY-MM-DD`. -/
def Date.text (d : Date) : String :=
  String.ofList (yearText d.year ++ ('-' :: pad 2 d.month ++ '-' :: pad 2 d.day))

/-- The first day of a month as `YYYY-MM-01`. -/
def monthText (y : Int) (m : Nat) : String := String.ofList (yearText y ++ ('-' :: pad 2 m ++ "-01".toList))

theorem pad_inj {width a b : Nat} (h : pad width a = pad width b) : a = b := by
  have hread : ∀ n, Nat.ofDigitChars 10 (pad width n) 0 = n := by
    intro n
    rw [pad, List.leftpad, Nat.ofDigitChars_append, Nat.ofDigitChars_replicate_zero, Nat.mul_zero,
      Nat.ofDigitChars_ten_toDigits]
  rw [← hread a, h, hread b]

theorem length_pad_two {n : Nat} (h : n < 100) : (pad 2 n).length = 2 := by
  have hlen := (Nat.length_toDigits_le_iff (b := 10) (k := 2) (by decide) (by decide)).2 h
  rw [pad, List.length_leftpad]
  omega

theorem isDigit_of_mem_pad {width n : Nat} {c : Char} (h : c ∈ pad width n) : c.isDigit = true := by
  rcases List.mem_append.1 h with hzero | hdigit
  · rw [List.eq_of_mem_replicate hzero]
    rfl
  · exact Nat.isDigit_of_mem_toDigits (by decide) (by decide) hdigit

theorem hyphen_notMem_pad (width n : Nat) : '-' ∉ pad width n := by
  intro h
  exact absurd (isDigit_of_mem_pad h) (by decide)

theorem yearText_inj {y z : Int} (h : yearText y = yearText z) : y = z := by
  unfold yearText at h
  split_ifs at h with hy hz hz
  · have := pad_inj h
    omega
  · exact absurd (h ▸ List.mem_cons_self) (hyphen_notMem_pad 4 y.toNat)
  · exact absurd (h ▸ List.mem_cons_self) (hyphen_notMem_pad 4 z.toNat)
  · have := pad_inj (List.cons.inj h).2
    omega

theorem monthText_inj {y z : Int} {m n : Nat} (hm : m ≤ 12) (hn : n ≤ 12)
    (h : monthText y m = monthText z n) : y = z ∧ m = n := by
  have hlist := String.ofList_injective h
  have hlen : ('-' :: pad 2 m ++ "-01".toList).length = ('-' :: pad 2 n ++ "-01".toList).length := by
    simp [length_pad_two (show m < 100 by omega), length_pad_two (show n < 100 by omega)]
  obtain ⟨hyear, hrest⟩ := List.append_inj' hlist hlen
  have hmonth := List.append_cancel_right hrest
  exact ⟨yearText_inj hyear, pad_inj (List.cons.inj hmonth).2⟩

theorem text_injective : Function.Injective Date.text := by
  intro d e h
  have hd := Nat.le_trans d.day_le (monthDays_bounds d.year d.month).2
  have he := Nat.le_trans e.day_le (monthDays_bounds e.year e.month).2
  have hdm := d.month_le
  have hem := e.month_le
  have hlist := String.ofList_injective h
  have hlen : ('-' :: pad 2 d.month ++ '-' :: pad 2 d.day).length =
      ('-' :: pad 2 e.month ++ '-' :: pad 2 e.day).length := by
    simp [length_pad_two (show d.month < 100 by omega), length_pad_two (show e.month < 100 by omega),
      length_pad_two (show d.day < 100 by omega), length_pad_two (show e.day < 100 by omega)]
  obtain ⟨hyear, hrest⟩ := List.append_inj' hlist hlen
  have hlen' : ('-' :: pad 2 d.month).length = ('-' :: pad 2 e.month).length := by
    simp [length_pad_two (show d.month < 100 by omega), length_pad_two (show e.month < 100 by omega)]
  obtain ⟨hmonth, hday⟩ := List.append_inj hrest hlen'
  have h1 := yearText_inj hyear
  have h2 := pad_inj (List.cons.inj hmonth).2
  have h3 := pad_inj (List.cons.inj hday).2
  cases d
  cases e
  simp only at h1 h2 h3
  subst h1 h2 h3
  rfl

/-! ## Times of day -/

def dayMicros : Nat := 86400000000

/-- A date and a time of day in microseconds. -/
structure Timestamp where
  date : Date
  micros : Nat
  micros_lt : micros < dayMicros
deriving DecidableEq

namespace Timestamp

def rank (t : Timestamp) : Int := t.date.rank * dayMicros + t.micros

instance : LE Timestamp := ⟨fun t u => t.rank ≤ u.rank⟩

instance : LT Timestamp := ⟨fun t u => t.rank < u.rank⟩

instance (t u : Timestamp) : Decidable (t ≤ u) := inferInstanceAs (Decidable (t.rank ≤ u.rank))

instance (t u : Timestamp) : Decidable (t < u) := inferInstanceAs (Decidable (t.rank < u.rank))

def midnight (d : Date) : Timestamp := ⟨d, 0, by decide⟩

/-- The same time of day, a number of days before. -/
def back (t : Timestamp) (n : Nat) : Timestamp := { t with date := t.date.back n }

def hour (t : Timestamp) : Nat := t.micros / 3600000000

theorem hour_lt (t : Timestamp) : t.hour < 24 := by
  have h := t.micros_lt
  rw [dayMicros] at h
  unfold hour
  omega

theorem monthIndex_le {t u : Timestamp} (h : t ≤ u) : t.date.monthIndex ≤ u.date.monthIndex := by
  have ht : t.date.rank * dayMicros + t.micros ≤ u.date.rank * dayMicros + u.micros := h
  have htd := t.date.day_pos
  have hud := Nat.le_trans u.date.day_le (monthDays_bounds _ _).2
  have hum := u.micros_lt
  unfold Date.rank dayMicros at *
  omega

end Timestamp

end Civil
