import Mathlib.Algebra.Order.Group.Nat
import Mathlib.Order.Interval.Finset.Nat
import Mathlib.Tactic.IntervalCases

/-!
# The Gregorian calendar

Days counted one after another, and the day's number as a sum over years and months.
-/

namespace LsmKv

structure Date where
  year : ℕ
  month : ℕ
  day : ℕ
  deriving DecidableEq, Repr

namespace Date

def leap (y : ℕ) : Bool := y % 4 = 0 && (y % 100 ≠ 0 || y % 400 = 0)

def daysInMonth (y m : ℕ) : ℕ :=
  if m = 2 then if leap y then 29 else 28
  else if m = 4 ∨ m = 6 ∨ m = 9 ∨ m = 11 then 30 else 31

/-- The day after. -/
def next (d : Date) : Date :=
  if d.day < daysInMonth d.year d.month then { d with day := d.day + 1 }
  else if d.month < 12 then ⟨d.year, d.month + 1, 1⟩
  else ⟨d.year + 1, 1, 1⟩

/-- The date so many days after the first of January 1970. -/
def ofDays : ℕ → Date
  | 0 => ⟨1970, 1, 1⟩
  | n + 1 => (ofDays n).next

/-- Days of the years before. -/
def daysBeforeYear (y : ℕ) : ℕ := 365 * y + (y + 3) / 4 - (y + 99) / 100 + (y + 399) / 400

/-- Days of the months before in the same year. -/
def daysBeforeMonth (y : ℕ) : ℕ → ℕ
  | 0 | 1 => 0
  | m + 2 => daysBeforeMonth y (m + 1) + daysInMonth y (m + 1)

/-- Days since the first of January 1970. -/
def toDays (d : Date) : ℤ :=
  ↑(daysBeforeYear d.year + daysBeforeMonth d.year d.month + d.day) - 1 - ↑(daysBeforeYear 1970)

structure Valid (d : Date) : Prop where
  month_pos : 1 ≤ d.month
  month_le : d.month ≤ 12
  day_pos : 1 ≤ d.day
  day_le : d.day ≤ daysInMonth d.year d.month

theorem leap_iff {y : ℕ} : leap y = true ↔ y % 4 = 0 ∧ (y % 100 = 0 → y % 400 = 0) := by
  rw [leap, Bool.and_eq_true, Bool.or_eq_true, decide_eq_true_iff, decide_eq_true_iff,
    decide_eq_true_iff, imp_iff_not_or]

theorem daysBeforeYear_succ (y : ℕ) :
    daysBeforeYear (y + 1) = daysBeforeYear y + if leap y then 366 else 365 := by
  have h4 : (y + 1 + 3) / 4 = (y + 3) / 4 + if y % 4 = 0 then 1 else 0 := by
    split <;> omega
  have h100 : (y + 1 + 99) / 100 = (y + 99) / 100 + if y % 100 = 0 then 1 else 0 := by
    split <;> omega
  have h400 : (y + 1 + 399) / 400 = (y + 399) / 400 + if y % 400 = 0 then 1 else 0 := by
    split <;> omega
  have hle : (y + 99) / 100 ≤ 365 * y + (y + 3) / 4 := by omega
  rw [daysBeforeYear, daysBeforeYear, h4, h100, h400]
  by_cases hfour : y % 4 = 0
  · by_cases hcentury : y % 100 = 0
    · by_cases hall : y % 400 = 0
      · rw [if_pos hfour, if_pos hcentury, if_pos hall,
          if_pos (leap_iff.mpr ⟨hfour, fun _ => hall⟩)]
        omega
      · rw [if_pos hfour, if_pos hcentury, if_neg hall,
          if_neg fun hleap => hall ((leap_iff.mp hleap).2 hcentury)]
        omega
    · rw [if_pos hfour, if_neg hcentury, if_neg (by omega),
        if_pos (leap_iff.mpr ⟨hfour, fun h => absurd h hcentury⟩)]
      omega
  · rw [if_neg hfour, if_neg (by omega), if_neg (by omega),
      if_neg fun hleap => hfour (leap_iff.mp hleap).1]
    omega

theorem daysBeforeMonth_thirteen (y : ℕ) :
    daysBeforeMonth y 12 + daysInMonth y 12 = if leap y then 366 else 365 := by
  simp only [daysBeforeMonth, daysInMonth, Nat.reduceEqDiff, Nat.reduceAdd, if_false, if_true,
    or_true, or_false]
  split <;> rfl

theorem daysInMonth_pos (y m : ℕ) : 1 ≤ daysInMonth y m := by
  rw [daysInMonth]
  split
  · split <;> omega
  · split <;> omega

theorem Valid.next {d : Date} (h : d.Valid) : d.next.Valid := by
  rw [Date.next]
  split
  · rename_i hday
    exact ⟨h.month_pos, h.month_le, Nat.le_add_left _ _, hday⟩
  · split
    · rename_i hmonth
      exact ⟨Nat.le_add_left _ _, hmonth, le_rfl, daysInMonth_pos _ _⟩
    · exact ⟨le_rfl, by simp, le_rfl, daysInMonth_pos _ _⟩

theorem Valid.toDays_next {d : Date} (h : d.Valid) : d.next.toDays = d.toDays + 1 := by
  rw [Date.next]
  split
  · simp only [toDays]
    omega
  · rename_i hday
    have hlast : d.day = daysInMonth d.year d.month := le_antisymm h.day_le (not_lt.mp hday)
    split
    · obtain ⟨m, hm⟩ : ∃ m, d.month = m + 1 := ⟨d.month - 1, by have := h.month_pos; omega⟩
      simp only [toDays, hm, daysBeforeMonth] at hlast ⊢
      omega
    · rename_i hmonth
      have hdec : d.month = 12 := le_antisymm h.month_le (not_lt.mp hmonth)
      have hyear := daysBeforeYear_succ d.year
      have hmonths := daysBeforeMonth_thirteen d.year
      have hjan : daysBeforeMonth (d.year + 1) 1 = 0 := rfl
      rw [hdec] at hlast
      simp only [toDays, hdec, hjan]
      omega

theorem valid_ofDays (n : ℕ) : (ofDays n).Valid := by
  induction n with
  | zero => exact ⟨le_rfl, by decide, le_rfl, by decide⟩
  | succ n ih => exact ih.next

/-- Counting days and summing them up agree. -/
theorem toDays_ofDays (n : ℕ) : (ofDays n).toDays = n := by
  induction n with
  | zero =>
    show (↑(daysBeforeYear 1970 + 0 + 1) : ℤ) - 1 - ↑(daysBeforeYear 1970) = ↑(0 : ℕ)
    omega
  | succ n ih =>
    rw [ofDays, (valid_ofDays n).toDays_next, ih]
    rfl

theorem daysBeforeMonth_add_le {d : Date} (h : d.Valid) :
    daysBeforeMonth d.year d.month + d.day ≤ if leap d.year then 366 else 365 := by
  obtain ⟨y, m, day⟩ := d
  obtain ⟨hpos, hle, -, hday⟩ := h
  dsimp only at hpos hle hday ⊢
  rw [← daysBeforeMonth_thirteen]
  interval_cases m <;> simp only [daysBeforeMonth, daysInMonth] at hday ⊢ <;> simp at hday ⊢ <;>
    omega

theorem Valid.lt_next_year {d : Date} (h : d.Valid) :
    daysBeforeYear d.year + daysBeforeMonth d.year d.month + d.day ≤
      daysBeforeYear (d.year + 1) := by
  rw [daysBeforeYear_succ, Nat.add_assoc]
  exact Nat.add_le_add_left (daysBeforeMonth_add_le h) _

theorem daysBeforeYear_mono {y y' : ℕ} (h : y ≤ y') : daysBeforeYear y ≤ daysBeforeYear y' := by
  induction y', h using Nat.le_induction with
  | base => exact le_rfl
  | succ z _ ih =>
    rw [daysBeforeYear_succ]
    omega

/-- A year is told from its first day's number. -/
theorem Valid.year_lt_iff {d : Date} (h : d.Valid) (y : ℕ) :
    d.year < y ↔ d.toDays < daysBeforeYear y - daysBeforeYear 1970 := by
  have hnext := h.lt_next_year
  have hpos := h.day_pos
  rw [toDays]
  constructor
  · intro hlt
    have hmono := daysBeforeYear_mono (show d.year + 1 ≤ y from hlt)
    omega
  · intro hlt
    by_contra hge
    have hmono := daysBeforeYear_mono (not_lt.mp hge)
    omega

end Date
end LsmKv
