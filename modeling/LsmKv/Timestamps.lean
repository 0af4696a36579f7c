import LsmKv.Calendar
import LsmKv.Decimal
import Mathlib.Data.List.TakeWhile

/-!
# Time stamps

A table's `created_at` is the clock in seconds, written out as a date and a time of day in UTC.
The reader takes four digits for the year, so the stamps are good until the end of the year 9999;
from then on they read as the epoch.
-/

namespace LsmKv
namespace Timestamps

/-- The fields of `std::tm` that the stamps use. -/
structure Tm where
  date : Date
  hour : ℕ
  minute : ℕ
  second : ℕ
  deriving DecidableEq, Repr

/-- `gmtime_r` -/
def gmtime (t : ℕ) : Tm where
  date := .ofDays (t / 86400)
  hour := t % 86400 / 3600
  minute := t % 3600 / 60
  second := t % 60

/-- `timegm` -/
def timegm (tm : Tm) : ℤ :=
  tm.date.toDays * 86400 + (tm.hour * 3600 + tm.minute * 60 + tm.second : ℕ)

/-- `strftime` with `%Y-%m-%dT%H:%M:%SZ` -/
def strftime (tm : Tm) : Bytes :=
  decimal tm.date.year ++ 45 :: (padded 2 tm.date.month ++ 45 :: (padded 2 tm.date.day ++
    84 :: (padded 2 tm.hour ++ 58 :: (padded 2 tm.minute ++ 58 :: (padded 2 tm.second ++ [90])))))

/-- The stamp made at `now`, in seconds since the epoch. -/
def utcNowIso8601 (now : ℕ) : Bytes := strftime (gmtime now)

/-- A field of `std::get_time`: up to `width` digits, leading zeros or none. -/
def readField (width lo hi : ℕ) (s : Bytes) : Option (ℕ × Bytes) :=
  let digits := (s.take width).takeWhile isDigit
  if digits = [] ∨ numeral digits < lo ∨ hi < numeral digits then none
  else some (numeral digits, s.drop digits.length)

/-- A character of the format, whose case does not matter. -/
def readChar (c lower : UInt8) : Bytes → Option Bytes
  | [] => none
  | b :: s => if b = c ∨ b = lower then some s else none

/-- `std::get_time` with `%Y-%m-%dT%H:%M:%SZ` -/
def getTime (s : Bytes) : Option Tm := do
  let (year, s) ← readField 4 0 9999 (s.dropWhile isSpace)
  let s ← readChar 45 45 s
  let (month, s) ← readField 2 1 12 s
  let s ← readChar 45 45 s
  let (day, s) ← readField 2 1 31 s
  let s ← readChar 84 116 s
  let (hour, s) ← readField 2 0 23 s
  let s ← readChar 58 58 s
  let (minute, s) ← readField 2 0 59 s
  let s ← readChar 58 58 s
  let (second, s) ← readField 2 0 60 s
  let _ ← readChar 90 122 s
  return ⟨⟨year, month, day⟩, hour, minute, second⟩

/-- A stamp that cannot be read is as old as can be. `get_time` of the standard library also takes
stamps that end early and days padded with a space, none of which the engine writes; and a clock
that counts nanoseconds in 64 bits wraps in the year 2262. -/
def parseIso8601Utc (s : Bytes) : ℤ :=
  match getTime s with
  | none => 0
  | some tm => timegm tm

/-! ## Reading what was written -/

theorem timegm_gmtime (t : ℕ) : timegm (gmtime t) = t := by
  have hsum : t % 86400 / 3600 * 3600 + t % 3600 / 60 * 60 + t % 60 = t % 86400 := by omega
  show (Date.ofDays (t / 86400)).toDays * 86400 +
    ((t % 86400 / 3600 * 3600 + t % 3600 / 60 * 60 + t % 60 : ℕ) : ℤ) = t
  rw [Date.toDays_ofDays, hsum]
  omega

/-- A field of full width is read up to the character behind it. -/
theorem readField_digitsOf {width lo hi n : ℕ} (hwidth : width ≠ 0) (hn : n < 10 ^ width)
    (hlo : lo ≤ n) (hhi : n ≤ hi) (s : Bytes) :
    readField width lo hi (digitsOf width n ++ s) = some (n, s) := by
  have hlength := length_digitsOf width n
  have htake : ((digitsOf width n ++ s).take width).takeWhile isDigit = digitsOf width n := by
    rw [List.take_left' hlength]
    exact List.takeWhile_eq_self_iff.mpr fun c hc => isDigit_of_mem_digitsOf hc
  have hne : digitsOf width n ≠ [] := by
    rw [← List.length_pos_iff_ne_nil, hlength]
    omega
  rw [readField, htake, numeral_digitsOf, Nat.mod_eq_of_lt hn, hlength,
    if_neg (by simp only [hne, false_or, not_or]; omega), List.drop_left' hlength]

/-- Two digits, as all fields behind the year are written. -/
theorem readField_two {lo hi n : ℕ} (hlo : lo ≤ n) (hhi : n ≤ hi) (hsmall : hi < 100)
    (s : Bytes) : readField 2 lo hi (padded 2 n ++ s) = some (n, s) := by
  have hn : n < 10 ^ 2 := by omega
  rw [padded_of_lt (by omega) hn]
  exact readField_digitsOf (by omega) hn hlo hhi s

theorem readChar_self {c lower : UInt8} (s : Bytes) : readChar c lower (c :: s) = some s := by
  rw [readChar, if_pos (.inl rfl)]

theorem getTime_strftime {tm : Tm} (hdate : tm.date.Valid) (hyear : 1000 ≤ tm.date.year)
    (hyear' : tm.date.year < 10000) (hhour : tm.hour < 24) (hminute : tm.minute < 60)
    (hsecond : tm.second < 60) : getTime (strftime tm) = some tm := by
  have hfour : decimal tm.date.year = digitsOf 4 tm.date.year := by
    rw [decimal, padded, Nat.log_eq_of_pow_le_of_lt_pow (show 10 ^ 3 ≤ _ from hyear)
      (show _ < 10 ^ (3 + 1) from hyear')]
    rfl
  obtain ⟨c, digits, hc⟩ := List.exists_cons_of_ne_nil
    (show digitsOf 4 tm.date.year ≠ [] by
      rw [← List.length_pos_iff_ne_nil, length_digitsOf]
      omega)
  have hdigit : isDigit c = true :=
    isDigit_of_mem_digitsOf (w := 4) (n := tm.date.year) (hc ▸ List.mem_cons_self)
  have hday : tm.date.day ≤ 31 := by
    have hmonth := hdate.day_le
    rw [Date.daysInMonth] at hmonth
    repeat' split at hmonth
    all_goals omega
  have hspace : ∀ s, (digitsOf 4 tm.date.year ++ s).dropWhile isSpace =
      digitsOf 4 tm.date.year ++ s := fun s => by
    rw [hc]
    exact dropWhile_isSpace hdigit _
  rw [getTime, strftime, hfour, hspace]
  simp only [Option.bind_eq_bind]
  rw [readField_digitsOf (by omega) hyear' (Nat.zero_le _) (Nat.le_of_lt_succ hyear')]
  simp only [Option.bind_some, readChar_self]
  rw [readField_two hdate.month_pos hdate.month_le (by omega)]
  simp only [Option.bind_some, readChar_self]
  rw [readField_two hdate.day_pos hday (by omega)]
  simp only [Option.bind_some, readChar_self]
  rw [readField_two (Nat.zero_le _) (Nat.le_of_lt_succ hhour) (by omega)]
  simp only [Option.bind_some, readChar_self]
  rw [readField_two (Nat.zero_le _) (Nat.le_of_lt_succ hminute) (by omega)]
  simp only [Option.bind_some, readChar_self]
  rw [readField_two (Nat.zero_le _) (by omega) (by omega)]
  simp only [Option.bind_some, readChar_self]
  rfl

/-- Behind four digits of a longer year comes a digit where the format has a dash. -/
theorem getTime_of_long_year {tm : Tm} (hyear : 10000 ≤ tm.date.year) :
    getTime (strftime tm) = none := by
  have hlong : 4 < (decimal tm.date.year).length := by
    rw [decimal, ← not_le, length_padded_le (by omega) (by omega)]
    omega
  have hdigits : ∀ c ∈ decimal tm.date.year, isDigit c = true := fun c hc =>
    isDigit_of_mem_padded hc
  obtain ⟨rest, hrest⟩ : ∃ rest, strftime tm = decimal tm.date.year ++ rest := ⟨_, rfl⟩
  obtain ⟨c, digits, hc⟩ := List.exists_cons_of_ne_nil
    (List.length_pos_iff_ne_nil.mp (Nat.zero_lt_of_lt hlong))
  have hspace : (decimal tm.date.year ++ rest).dropWhile isSpace = decimal tm.date.year ++ rest := by
    rw [hc]
    exact dropWhile_isSpace (hdigits c (hc ▸ List.mem_cons_self)) _
  have htake : ((decimal tm.date.year ++ rest).take 4).takeWhile isDigit =
      (decimal tm.date.year).take 4 := by
    rw [List.take_append_of_le_length hlong.le]
    exact List.takeWhile_eq_self_iff.mpr fun c hc => hdigits c (List.mem_of_mem_take hc)
  have hlength : ((decimal tm.date.year).take 4).length = 4 := List.length_take_of_le hlong.le
  have hfield : ∃ n, readField 4 0 9999 (decimal tm.date.year ++ rest) =
      some (n, (decimal tm.date.year).drop 4 ++ rest) := by
    have hnumber := numeral_lt fun c hc => hdigits c (List.mem_of_mem_take (i := 4) hc)
    have hne : (decimal tm.date.year).take 4 ≠ [] := by
      rw [← List.length_pos_iff_ne_nil, hlength]
      omega
    rw [hlength] at hnumber
    refine ⟨numeral ((decimal tm.date.year).take 4), ?_⟩
    rw [readField, htake, hlength, if_neg (by simp only [hne, false_or, not_or]; omega),
      List.drop_append_of_le_length hlong.le]
  obtain ⟨n, hfield⟩ := hfield
  obtain ⟨b, more, hb⟩ := List.exists_cons_of_ne_nil
    (show (decimal tm.date.year).drop 4 ≠ [] by
      rw [← List.length_pos_iff_ne_nil, List.length_drop]
      omega)
  have hdash : readChar 45 45 ((decimal tm.date.year).drop 4 ++ rest) = none := by
    have hdigit := hdigits b (List.mem_of_mem_drop (hb ▸ List.mem_cons_self))
    have hne : b ≠ 45 := by
      rintro rfl
      simp [isDigit] at hdigit
    rw [hb, List.cons_append, readChar, if_neg (by simp [hne])]
  rw [getTime, hrest, hspace, hfield]
  simp only [Option.bind_eq_bind, Option.bind_some]
  rw [hdash]
  rfl

/-- Stamps are read back to the second, up to the end of the year 9999, and not at all after. -/
theorem parse_utcNow (t : ℕ) :
    parseIso8601Utc (utcNowIso8601 t) = if t < 253402300800 then (t : ℤ) else 0 := by
  have hvalid := Date.valid_ofDays (t / 86400)
  have hdays : (Date.ofDays (t / 86400)).toDays = ↑(t / 86400) := Date.toDays_ofDays _
  have hyears : ∀ y, (Date.ofDays (t / 86400)).year < y ↔
      ((t / 86400 : ℕ) : ℤ) < Date.daysBeforeYear y - Date.daysBeforeYear 1970 := fun y => by
    rw [hvalid.year_lt_iff, hdays]
  have hlast := hyears 10000
  have hfirst := hyears 1000
  have h1000 : Date.daysBeforeYear 1000 = 365243 := by decide +kernel
  have h1970 : Date.daysBeforeYear 1970 = 719528 := by decide +kernel
  have h10000 : Date.daysBeforeYear 10000 = 3652425 := by decide +kernel
  rw [h10000, h1970] at hlast
  rw [h1000, h1970] at hfirst
  rw [parseIso8601Utc, utcNowIso8601]
  by_cases ht : t < 253402300800
  · have hyear : (gmtime t).date.year < 10000 := hlast.mpr (by omega)
    have hyear' : 1000 ≤ (gmtime t).date.year := not_lt.mp fun h => by
      have := hfirst.mp h
      omega
    rw [getTime_strftime hvalid hyear' hyear (show t % 86400 / 3600 < 24 by omega)
      (show t % 3600 / 60 < 60 by omega) (show t % 60 < 60 by omega), if_pos ht]
    exact timegm_gmtime t
  · have hyear : 10000 ≤ (gmtime t).date.year := not_lt.mp fun h => by
      have := hlast.mp h
      omega
    rw [getTime_of_long_year hyear, if_neg ht]

example : utcNowIso8601 5097599 =
    "1970-02-28T23:59:59Z".toList.map (fun c => UInt8.ofNat c.toNat) := by decide +kernel

end Timestamps
end LsmKv
