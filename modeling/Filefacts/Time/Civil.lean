import Filefacts.Time
import Mathlib.Tactic.IntervalCases
import Mathlib.Tactic.Ring

set_option autoImplicit false

namespace Filefacts.Time

def Leap (year : Int) : Prop := 4 ∣ year ∧ (¬ 100 ∣ year ∨ 400 ∣ year)

instance (year : Int) : Decidable (Leap year) := inferInstanceAs (Decidable (_ ∧ _))

def monthLength (year : Int) (month : Nat) : Nat :=
  if month = 2 then (if Leap year then 29 else 28) else if month ∈ [4, 6, 9, 11] then 30 else 31

structure Valid (year : Int) (month day : Nat) : Prop where
  inYear : 1 ≤ month ∧ month ≤ 12
  inMonth : 1 ≤ day ∧ day ≤ monthLength year month

def Before (year : Int) (month day : Nat) (year' : Int) (month' day' : Nat) : Prop :=
  year < year' ∨ (year = year' ∧ (month < month' ∨ (month = month' ∧ day < day')))

def following (year : Int) (month day : Nat) : Int × Nat × Nat :=
  if day < monthLength year month then (year, month, day + 1)
  else if month < 12 then (year, month + 1, 1)
  else (year + 1, 1, 1)

-- Years that begin in March, so that the leap day is the last of its year.
def marchYear (year : Int) (month : Nat) : Int := if month ≤ 2 then year - 1 else year

def marchMonth (month : Nat) : Nat := if month > 2 then month - 3 else month + 9

def dayOfYear (month day : Nat) : Nat := (153 * marchMonth month + 2) / 5 + day - 1

def yearStart (year : Int) : Int := 365 * year + year / 4 - year / 100 + year / 400

def dayNumber (year : Int) (month day : Nat) : Int := yearStart (marchYear year month) + dayOfYear month day - 719468

theorem march_february : marchMonth 2 = 11 := rfl

variable (year : Int) (month day : Nat)

theorem is_leap_iff : isLeap year = true ↔ Leap year := by
  simp only [isLeap, Leap, Bool.and_eq_true, Bool.or_eq_true, beq_iff_eq, bne_iff_ne, Int.dvd_iff_emod_eq_zero, ne_eq]

theorem leap_iff : Leap year ↔ year % 4 = 0 ∧ (year % 100 ≠ 0 ∨ year % 400 = 0) := by
  simp only [Leap, Int.dvd_iff_emod_eq_zero, ne_eq]

theorem month_days_eq : monthDays year month = if 1 ≤ month ∧ month ≤ 12 then some (monthLength year month) else none := by
  by_cases inside : 1 ≤ month ∧ month ≤ 12
  · rw [if_pos inside]
    obtain ⟨low, high⟩ := inside
    have february : isLeap year = decide (Leap year) := by
      rw [Bool.eq_iff_iff, is_leap_iff, decide_eq_true_iff]
    interval_cases month <;> simp [monthDays, monthLength, february]
  · simp only [monthDays, List.mem_cons, List.not_mem_nil, or_false]
    rw [if_neg inside, if_neg (by omega), if_neg (by omega), if_neg (by omega)]

theorem year_start_eras :
    year / 400 * 146097 + (((year % 400).toNat * 365 + (year % 400).toNat / 4 - (year % 400).toNat / 100 : Nat) : Int) =
      yearStart year := by
  rw [yearStart]
  omega

theorem days_from_civil_some (valid : Valid year month day) :
    daysFromCivil year month day = some (dayNumber year month day) := by
  have eras := year_start_eras (marchYear year month)
  rw [daysFromCivil, month_days_eq, if_pos valid.inYear, Option.bind_some, if_pos valid.inMonth]
  refine congrArg some ?_
  rw [dayNumber, dayOfYear, ← eras, Nat.cast_add, marchYear, marchMonth]
  ring

theorem days_from_civil_none (invalid : ¬ Valid year month day) : daysFromCivil year month day = none := by
  rw [daysFromCivil, month_days_eq]
  by_cases inside : 1 ≤ month ∧ month ≤ 12
  · rw [if_pos inside, Option.bind_some, if_neg fun fits => invalid ⟨inside, fits⟩]
  · rw [if_neg inside, Option.bind_none]

theorem year_start_next : yearStart (year + 1) = yearStart year + 365 + if Leap (year + 1) then 1 else 0 := by
  simp only [yearStart, leap_iff]
  split <;> omega

theorem year_start_mono {later : Int} (before : year ≤ later) : yearStart year ≤ yearStart later := by
  rw [yearStart, yearStart]
  omega

theorem day_of_year_bound (valid : Valid year month day) :
    dayOfYear month day ≤ 365 ∧ (dayOfYear month day = 365 → Leap (marchYear year month + 1)) := by
  obtain ⟨⟨low, high⟩, first, last⟩ := valid
  rw [monthLength] at last
  by_cases february : month = 2
  · subst february
    rw [if_pos rfl] at last
    rw [dayOfYear, march_february, marchYear, if_pos (by decide), Int.sub_add_cancel]
    split at last
    · next leap => exact ⟨by omega, fun _ => leap⟩
    · exact ⟨by omega, fun full => absurd full (by omega)⟩
  · rw [if_neg february] at last
    rw [dayOfYear, marchMonth, marchYear]
    interval_cases month <;> simp at last ⊢ <;> omega

theorem march_month_le (year : Int) (month day : Nat) (valid : Valid year month day) : marchMonth month ≤ 11 := by
  obtain ⟨low, high⟩ := valid.inYear
  rw [marchMonth]
  split <;> omega

theorem day_of_year_less (year' : Int) (month' day' : Nat) (valid : Valid year month day)
    (valid' : Valid year' month' day') (later : marchMonth month < marchMonth month') :
    dayOfYear month day < dayOfYear month' day' := by
  have behind := march_month_le year' month' day' valid'
  obtain ⟨first', _⟩ := valid'.inMonth
  obtain ⟨⟨low, high⟩, first, last⟩ := valid
  have other : month ≠ 2 := by
    rintro rfl
    rw [march_february] at later
    omega
  have bound : dayOfYear month day + 1 ≤ (153 * (marchMonth month + 1) + 2) / 5 := by
    rw [monthLength, if_neg other] at last
    rw [dayOfYear, marchMonth]
    interval_cases month <;> simp at last ⊢ <;> omega
  rw [dayOfYear] at bound ⊢
  rw [dayOfYear]
  omega

theorem march_before (year' : Int) (month' day' : Nat) (valid : Valid year month day)
    (valid' : Valid year' month' day') (before : Before year month day year' month' day') :
    marchYear year month < marchYear year' month' ∨
      (marchYear year month = marchYear year' month' ∧ dayOfYear month day < dayOfYear month' day') := by
  obtain ⟨low, high⟩ := valid.inYear
  obtain ⟨low', high'⟩ := valid'.inYear
  have positive := valid.inMonth.1
  by_cases earlier : marchYear year month < marchYear year' month'
  · exact .inl earlier
  right
  have months : marchYear year month = marchYear year' month' ∧
      (marchMonth month < marchMonth month' ∨ (month = month' ∧ day < day')) := by
    rw [marchYear, marchYear] at earlier
    rw [marchYear, marchYear, marchMonth, marchMonth]
    rcases before with past | ⟨rfl, past | ⟨rfl, past⟩⟩
    · split_ifs at earlier ⊢ <;> omega
    · split_ifs at earlier ⊢ <;> omega
    · exact ⟨rfl, .inr ⟨rfl, past⟩⟩
  refine ⟨months.1, ?_⟩
  rcases months.2 with less | ⟨rfl, less⟩
  · exact day_of_year_less year month day year' month' day' valid valid' less
  · rw [dayOfYear, dayOfYear]
    omega

theorem day_number_less {year' : Int} {month' day' : Nat} (valid : Valid year month day)
    (valid' : Valid year' month' day') (before : Before year month day year' month' day') :
    dayNumber year month day < dayNumber year' month' day' := by
  obtain ⟨full, leap⟩ := day_of_year_bound year month day valid
  have next := year_start_next (marchYear year month)
  have inside : (dayOfYear month day : Int) < yearStart (marchYear year month + 1) - yearStart (marchYear year month) := by
    by_cases last : dayOfYear month day = 365
    · rw [if_pos (leap last)] at next
      omega
    · split at next <;> omega
  rw [dayNumber, dayNumber]
  rcases march_before year month day year' month' day' valid valid' before with earlier | ⟨same, days⟩
  · have reaches := year_start_mono (marchYear year month + 1) earlier
    omega
  · rw [same]
    omega

def InI32 (number : Int) : Prop := -2 ^ 31 ≤ number ∧ number < 2 ^ 31

def InI64 (number : Int) : Prop := -2 ^ 63 ≤ number ∧ number < 2 ^ 63

instance (number : Int) : Decidable (InI32 number) := inferInstanceAs (Decidable (_ ∧ _))

instance (number : Int) : Decidable (InI64 number) := inferInstanceAs (Decidable (_ ∧ _))

-- An overflow is a panic in a build that checks and wraps around in one that does not.
def i32 (checks : Bool) (number : Int) : Option Int :=
  if InI32 number then some number else if checks then none else some ((number + 2 ^ 31) % 2 ^ 32 - 2 ^ 31)

-- The days of a date as the code computes them; the rest of the arithmetic fits whatever the year.
def daysFromCivil32 (checks : Bool) (year : Int) (month day : Nat) : Option (Option Int) :=
  match monthDays year month with
  | none => some none
  | some days =>
      if 1 ≤ day ∧ day ≤ days then
        (if month ≤ 2 then i32 checks (year - 1) else some year).map fun yAdj =>
          let era := yAdj / 400
          let yoe := (yAdj % 400).toNat
          let mp := if month > 2 then month - 3 else month + 9
          let doy := (153 * mp + 2) / 5 + day - 1
          let doe := yoe * 365 + yoe / 4 - yoe / 100 + doy
          some (era * 146097 + (doe : Int) - 719468)
      else some none

def i64 (number : Int) : Option Int := if InI64 number then some number else none

def u32 (number : Int) : Option Nat := if 0 ≤ number ∧ number < 2 ^ 32 then some number.toNat else none

-- The day in its era is below 146,097, so only what the era enters can overflow.
def civilFromDays (days : Int) : Option (Int × Nat × Nat) := do
  let z ← i64 (days + 719468)
  let era := z / 146097
  let doe := z % 146097
  let yoe := (doe - doe / 1460 + doe / 36524 - doe / 146096) / 365
  let doy := doe - (365 * yoe + yoe / 4 - yoe / 100)
  let mp := (5 * doy + 2) / 153
  let day := (u32 (doy - (153 * mp + 2) / 5 + 1)).getD 1
  let month := (u32 (if mp < 10 then mp + 3 else mp - 9)).getD 1
  let start ← i64 (era * 400)
  let year ← i64 (start + yoe)
  let year ← i64 (year + if month ≤ 2 then 1 else 0)
  return (year, month, day)

-- Decimal digits with zeros in front, the sign counted in the width.
def padded (width : Nat) (number : Int) : String :=
  let digits := Nat.repr number.natAbs
  let sign := if number < 0 then "-" else ""
  sign ++ String.ofList (List.replicate (width - (sign.length + digits.length)) '0') ++ digits

def iso8601Utc (unix : Int) : Option String :=
  let days := unix / 86400
  let secs := unix % 86400
  (civilFromDays days).map fun civil =>
    padded 4 civil.1 ++ "-" ++ padded 2 civil.2.1 ++ "-" ++ padded 2 civil.2.2 ++ "T" ++ padded 2 (secs / 3600) ++ ":" ++
      padded 2 (secs % 3600 / 60) ++ ":" ++ padded 2 (secs % 60) ++ "Z"

example : iso8601Utc 951782400 = some "2000-02-29T00:00:00Z" := by decide +kernel

-- The only dates whose shifted year is out of range.
def Overflows (year : Int) (month day : Nat) : Prop := year = -2 ^ 31 ∧ month ≤ 2 ∧ Valid year month day

theorem days_from_civil_32_plain (checks : Bool) {year : Int} {month day : Nat} (word : InI32 year)
    (fits : ¬ Overflows year month day) : daysFromCivil32 checks year month day = some (daysFromCivil year month day) := by
  rw [daysFromCivil32, daysFromCivil]
  cases length : monthDays year month with
  | none => rfl
  | some days =>
      rw [Option.bind_some]
      by_cases inside : 1 ≤ day ∧ day ≤ days
      · simp only [if_pos inside]
        by_cases winter : month ≤ 2
        · have valid : Valid year month day := by
            rw [month_days_eq] at length
            split at length
            · next months => exact ⟨months, by rwa [Option.some.inj length]⟩
            · cases length
          have above : InI32 (year - 1) := by
            have other : year ≠ -2 ^ 31 := fun least => fits ⟨least, winter, valid⟩
            obtain ⟨low, high⟩ := word
            exact ⟨by omega, by omega⟩
          rw [if_pos winter, i32, if_pos above, if_pos winter]
          rfl
        · rw [if_neg winter, if_neg winter]
          rfl
      · simp only [if_neg inside]

theorem day_in_era (doe : Int) (low : 0 ≤ doe) (high : doe < 146097) : ∃ yoe doy : Int, 0 ≤ yoe ∧ yoe < 400 ∧ 0 ≤ doy ∧ doy ≤ 365 ∧
    (doy = 365 → yoe % 4 = 3 ∧ (yoe % 100 ≠ 99 ∨ yoe = 399)) ∧ doe = 365 * yoe + yoe / 4 - yoe / 100 + doy := by
  obtain ⟨c, rest, century, hc, hrest⟩ : ∃ c rest : Int, doe = 36524 * c + rest ∧ (0 ≤ c ∧ c ≤ 3) ∧
      0 ≤ rest ∧ rest ≤ 36524 ∧ (rest = 36524 → c = 3) :=
    ⟨min (doe / 36524) 3, doe - 36524 * min (doe / 36524) 3, by omega, by omega, by omega⟩
  obtain ⟨q, days, cycle, hq, hdays⟩ : ∃ q days : Int, rest = 1461 * q + days ∧ (0 ≤ q ∧ q ≤ 24) ∧ 0 ≤ days ∧ days ≤ 1460 ∧
      (days = 1460 ∧ q = 24 → rest = 36524) :=
    ⟨rest / 1461, rest % 1461, by omega, by omega, by omega⟩
  obtain ⟨r, doy, year, hr, hdoy⟩ : ∃ r doy : Int, days = 365 * r + doy ∧ (0 ≤ r ∧ r ≤ 3) ∧ 0 ≤ doy ∧ doy ≤ 365 ∧
      (doy = 365 → r = 3 ∧ days = 1460) :=
    ⟨min (days / 365) 3, days - 365 * min (days / 365) 3, by omega, by omega, by omega⟩
  have fours : (100 * c + 4 * q + r) / 4 = 25 * c + q := by omega
  exact ⟨100 * c + 4 * q + r, doy, by omega, by omega, hdoy.1, hdoy.2.1, by omega, by omega⟩

theorem year_of_era (yoe doy : Int) (low : 0 ≤ yoe) (high : yoe < 400) (first : 0 ≤ doy) (last : doy ≤ 365)
    (leap : doy = 365 → yoe % 4 = 3 ∧ (yoe % 100 ≠ 99 ∨ yoe = 399)) (doe : Int)
    (same : doe = 365 * yoe + yoe / 4 - yoe / 100 + doy) :
    (doe - doe / 1460 + doe / 36524 - doe / 146096) / 365 = yoe := by
  obtain ⟨c, q, r, years, hc, hq, hr⟩ : ∃ c q r : Int, yoe = 100 * c + 4 * q + r ∧ (0 ≤ c ∧ c ≤ 3) ∧ (0 ≤ q ∧ q ≤ 24) ∧ 0 ≤ r ∧ r ≤ 3 :=
    ⟨yoe / 100, yoe % 100 / 4, yoe % 4, by omega, by omega, by omega, by omega⟩
  have sum : doe = 36524 * c + 1461 * q + 365 * r + doy := by omega
  have fours : doe / 1460 = 25 * c + q + (24 * c + q + 365 * r + doy) / 1460 := by omega
  by_cases final : doe = 146096
  · omega
  · have centuries : doe / 36524 = c := by omega
    have cycles : doe / 146096 = 0 := by omega
    rw [fours, centuries, cycles]
    omega

theorem month_of_day (doy : Int) (first : 0 ≤ doy) (last : doy ≤ 365) (leap : doy = 365 → Leap (year + 1)) :
    ∃ month day : Nat, Valid (if month ≤ 2 then year + 1 else year) month day ∧ (dayOfYear month day : Int) = doy := by
  obtain ⟨mp, low, high, start, stop⟩ : ∃ mp : Int, 0 ≤ mp ∧ mp ≤ 11 ∧ (153 * mp + 2) / 5 ≤ doy ∧ doy < (153 * (mp + 1) + 2) / 5 :=
    ⟨(5 * doy + 2) / 153, by omega, by omega, by omega, by omega⟩
  refine ⟨(if mp < 10 then mp + 3 else mp - 9).toNat, (doy - (153 * mp + 2) / 5 + 1).toNat, ⟨?_, ?_⟩, ?_⟩
  · split <;> omega
  · by_cases february : mp = 11
    · subst february
      simp [monthLength]
      split
      · omega
      · next plain =>
          have short : doy ≠ 365 := fun full => plain (leap full)
          omega
    · interval_cases mp <;> simp [monthLength] at stop ⊢ <;> omega
  · rw [dayOfYear, marchMonth]
    interval_cases mp <;> simp at stop ⊢ <;> omega

theorem u32_small (number : Nat) (below : number < 2 ^ 32) : (u32 number).getD 1 = number := by
  rw [u32, if_pos (by omega)]
  exact Int.toNat_natCast number

theorem civil_of_day (year : Int) (month day : Nat) (valid : Valid year month day) :
    (5 * (dayOfYear month day : Int) + 2) / 153 = marchMonth month ∧
      (dayOfYear month day : Int) - (153 * (marchMonth month : Int) + 2) / 5 + 1 = day ∧
      (if (marchMonth month : Int) < 10 then (marchMonth month : Int) + 3 else (marchMonth month : Int) - 9) = month := by
  obtain ⟨⟨low, high⟩, first, last⟩ := valid
  have short : day ≤ 31 ∧ (month ∈ [4, 6, 9, 11] → day ≤ 30) ∧ (month = 2 → day ≤ 29) := by
    rw [monthLength] at last
    split_ifs at last with february leap thirty
    all_goals simp_all
    all_goals omega
  rw [dayOfYear, marchMonth]
  interval_cases month <;> simp at short ⊢ <;> omega

theorem month_length_le : monthLength year month ≤ 31 := by
  rw [monthLength]
  split_ifs <;> omega

theorem civil_from_day_number (valid : Valid year month day) (word : InI64 (dayNumber year month day + 719468)) :
    civilFromDays (dayNumber year month day) = some (year, month, day) := by
  obtain ⟨full, leap⟩ := day_of_year_bound year month day valid
  obtain ⟨mp, first, named⟩ := civil_of_day year month day valid
  have eras := year_start_eras (marchYear year month)
  have length := valid.inMonth
  have months := valid.inYear
  have shifted : marchYear year month + (if month ≤ 2 then 1 else 0) = year := by
    rw [marchYear]
    split <;> omega
  rw [dayNumber] at word ⊢
  generalize marchYear year month = march at *
  generalize dayOfYear month day = doy at *
  obtain ⟨era, yoe, years, positive, below⟩ : ∃ era yoe : Int, march = 400 * era + yoe ∧ 0 ≤ yoe ∧ yoe < 400 :=
    ⟨march / 400, march % 400, by omega, by omega, by omega⟩
  obtain ⟨doe, sum⟩ : ∃ doe : Int, doe = 365 * yoe + yoe / 4 - yoe / 100 + doy := ⟨_, rfl⟩
  have late : (doy : Int) = 365 → yoe % 4 = 3 ∧ (yoe % 100 ≠ 99 ∨ yoe = 399) := by
    intro full
    have ends := (leap_iff (march + 1)).mp (leap (by omega))
    omega
  have total : yearStart march + doy - 719468 + 719468 = 146097 * era + doe := by
    rw [← eras]
    omega
  have eras' : (146097 * era + doe) / 146097 = era := by omega
  have rest : (146097 * era + doe) % 146097 = doe := by omega
  have found := year_of_era yoe doy positive below (by omega) (by omega) late doe sum
  have days : doe - (365 * yoe + yoe / 4 - yoe / 100) = doy := by omega
  have small : ∀ number : Int, -2 ^ 62 ≤ number → number < 2 ^ 62 → i64 number = some number :=
    fun number above under => if_pos ⟨by omega, by omega⟩
  have spring : era * 400 + yoe + (if month ≤ 2 then 1 else 0) = year := by omega
  rw [total] at word
  obtain ⟨above, under⟩ := word
  rw [civilFromDays, total, i64, if_pos ⟨above, under⟩]
  simp only [Option.bind_eq_bind, Option.bind_some, eras', rest, found, days, mp, first, named,
    u32_small day (by have := month_length_le year month; omega), u32_small month (by omega), small (era * 400) (by omega) (by omega),
    small (era * 400 + yoe) (by omega) (by omega), spring]
  rw [small year (by omega) (by omega)]
  rfl

theorem day_number_onto (days : Int) : ∃ year month day, Valid year month day ∧ dayNumber year month day = days := by
  have inside : 0 ≤ (days + 719468) % 146097 ∧ (days + 719468) % 146097 < 146097 := by omega
  obtain ⟨yoe, doy, positive, below, first, last, late, sum⟩ := day_in_era _ inside.1 inside.2
  obtain ⟨march, years⟩ : ∃ march : Int, march = 400 * ((days + 719468) / 146097) + yoe := ⟨_, rfl⟩
  have leap : doy = 365 → Leap (march + 1) := by
    intro full
    rw [leap_iff]
    omega
  obtain ⟨month, day, valid, same⟩ := month_of_day march doy first last leap
  have quarters : march / 4 = 100 * ((days + 719468) / 146097) + yoe / 4 := by omega
  have centuries : march / 100 = 4 * ((days + 719468) / 146097) + yoe / 100 := by omega
  have cycles : march / 400 = (days + 719468) / 146097 := by omega
  refine ⟨_, month, day, valid, ?_⟩
  have back : marchYear (if month ≤ 2 then march + 1 else march) month = march := by
    rw [marchYear]
    split_ifs <;> omega
  rw [dayNumber, back, same, yearStart, quarters, centuries, cycles, years]
  omega

end Filefacts.Time
