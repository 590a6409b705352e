import Filefacts.Time.Civil

set_option autoImplicit false

namespace Filefacts.Time

variable (year : Int) (month day : Nat) (checks : Bool)

theorem day_number_bound (valid : Valid year month day) :
    365 * year + year / 4 - year / 100 + year / 400 - 1000 ≤ dayNumber year month day + 719468 ∧
      dayNumber year month day + 719468 ≤ 365 * year + year / 4 - year / 100 + year / 400 + 1000 := by
  have bound := (day_of_year_bound year month day valid).1
  rw [dayNumber, marchYear, yearStart]
  split <;> omega

theorem day_number_word (valid : Valid year month day) (small : -2 ^ 31 ≤ year ∧ year ≤ 2 ^ 31) :
    InI64 (dayNumber year month day + 719468) := by
  have bound := day_number_bound year month day valid
  exact ⟨by omega, by omega⟩

variable (days year' : Int) (month' day' : Nat)

theorem civil_from_days_iff (year : Int) (month day : Nat) : civilFromDays days = some (year, month, day) ↔
      InI64 (days + 719468) ∧ Valid year month day ∧ dayNumber year month day = days := by
  constructor
  · intro found
    have word : InI64 (days + 719468) := by
      by_contra outside
      rw [civilFromDays, i64, if_neg outside] at found
      cases found
    obtain ⟨year', month', day', valid, rfl⟩ := day_number_onto days
    have same := (civil_from_day_number year' month' day' valid word).symm.trans found
    obtain ⟨rfl, rest⟩ := Prod.mk.inj (Option.some.inj same)
    obtain ⟨rfl, rfl⟩ := Prod.mk.inj rest
    exact ⟨word, valid, rfl⟩
  · rintro ⟨word, valid, rfl⟩
    exact civil_from_day_number year month day valid word

theorem day_number_following (valid : Valid year month day) :
    Valid (following year month day).1 (following year month day).2.1 (following year month day).2.2 ∧
      dayNumber (following year month day).1 (following year month day).2.1 (following year month day).2.2 =
        dayNumber year month day + 1 := by
  have next := year_start_next (marchYear year month)
  obtain ⟨⟨low, high⟩, first, last⟩ := valid
  rw [following]
  by_cases inside : day < monthLength year month
  · rw [if_pos inside]
    refine ⟨⟨⟨low, high⟩, Nat.le_add_left _ _, inside⟩, ?_⟩
    dsimp only
    rw [dayNumber, dayNumber, dayOfYear, dayOfYear]
    omega
  · rw [if_neg inside]
    have ends : day = monthLength year month := by omega
    by_cases within : month < 12
    · rw [if_pos within]
      have positive : 1 ≤ monthLength year (month + 1) := by
        rw [monthLength]
        split_ifs <;> omega
      refine ⟨⟨⟨Nat.le_add_left _ _, within⟩, Nat.le_refl _, positive⟩, ?_⟩
      subst ends
      by_cases february : month = 2
      · subst february
        rw [marchYear, if_pos (by decide), Int.sub_add_cancel] at next
        have before : marchYear year 2 = year - 1 := if_pos (by decide)
        have behind : marchYear year 3 = year := if_neg (by decide)
        change dayNumber year 3 1 = _
        rw [dayNumber, dayNumber, before, behind, next, dayOfYear, dayOfYear, march_february, monthLength, if_pos rfl]
        change _ + ((0 : Nat) : Int) - 719468 = _
        split <;> omega
      · dsimp only
        rw [dayNumber, dayNumber, dayOfYear, dayOfYear, marchYear, marchYear, marchMonth, marchMonth]
        interval_cases month <;> simp [monthLength] at february ⊢ <;> omega
    · rw [if_neg within]
      have december : month = 12 := by omega
      subst december
      have length : monthLength year 12 = 31 := rfl
      have january : monthLength (year + 1) 1 = 31 := rfl
      have before : marchYear year 12 = year := if_neg (by decide)
      have behind : marchYear (year + 1) 1 = year := by
        rw [marchYear, if_pos (by decide), Int.add_sub_cancel]
      refine ⟨⟨⟨Nat.le_refl 1, (by decide : 1 ≤ 12)⟩, Nat.le_refl 1, (by rw [january]; decide : 1 ≤ monthLength (year + 1) 1)⟩, ?_⟩
      change dayNumber (year + 1) 1 1 = _
      rw [ends, length, dayNumber, dayNumber, before, behind]
      change yearStart year + ((306 : Nat) : Int) - 719468 = yearStart year + ((305 : Nat) : Int) - 719468 + 1
      omega

theorem days_from_civil_32_wraps (overflows : Overflows year month day) : daysFromCivil32 true year month day = none ∧
      daysFromCivil32 false year month day = some (some (dayNumber (2 ^ 31) month day)) ∧ Valid (2 ^ 31) month day := by
  obtain ⟨rfl, winter, valid⟩ := overflows
  have length : monthDays (-2 ^ 31) month = some (monthLength (-2 ^ 31) month) := by rw [month_days_eq, if_pos valid.inYear]
  have out : ¬ InI32 (-2 ^ 31 - 1) := by decide
  refine ⟨?_, ?_, valid.inYear, ?_⟩
  · rw [daysFromCivil32, length]
    simp only [if_pos valid.inMonth, if_pos winter, i32, if_neg out]
    rfl
  · rw [daysFromCivil32, length]
    simp only [if_pos valid.inMonth, if_pos winter, i32, if_neg out]
    have shifted : marchYear (2 ^ 31) month = 2147483647 := if_pos winter
    have wrapped : ((-2 ^ 31 - 1 + 2 ^ 31) % 2 ^ 32 - 2 ^ 31 : Int) = 2147483647 := by decide
    rw [dayNumber, shifted, dayOfYear, marchMonth, ← year_start_eras, if_neg Bool.false_ne_true, wrapped, Option.map_some,
      Nat.cast_add, Int.add_assoc]
  · obtain ⟨first, last⟩ := valid.inMonth
    refine ⟨first, Nat.le_trans last ?_⟩
    interval_cases month <;> decide

def Returns (checks : Bool) (year : Int) (month day : Nat) : Prop :=
  ∃ result, daysFromCivil32 checks year month day = some result ∧ (result ≠ none ↔ Valid year month day) ∧
    ∀ days, result = some days → civilFromDays days = some (year, month, day)

theorem days_of_valid (year : Int) (month day : Nat) (word : InI32 year) (fits : ¬ Overflows year month day)
    (valid : Valid year month day) : daysFromCivil32 checks year month day = some (some (dayNumber year month day)) := by
  rw [days_from_civil_32_plain checks word fits, days_from_civil_some year month day valid]

theorem returns_iff (year : Int) (month day : Nat) (word : InI32 year) :
    Returns checks year month day ↔ ¬ Overflows year month day := by
  constructor
  · rintro ⟨result, ran, valid, back⟩ overflows
    obtain ⟨panics, wraps, valid'⟩ := days_from_civil_32_wraps year month day overflows
    cases checks with
    | true =>
        rw [panics] at ran
        cases ran
    | false =>
        obtain rfl := Option.some.inj (wraps.symm.trans ran)
        have found := back _ rfl
        have later := civil_from_day_number (2 ^ 31) month day valid' (day_number_word _ month day valid' (by decide))
        have same := (Prod.mk.inj (Option.some.inj (found.symm.trans later))).1
        rw [overflows.1] at same
        exact absurd same (by decide)
  · intro fits
    refine ⟨_, days_from_civil_32_plain checks word fits, ?_, ?_⟩
    · by_cases valid : Valid year month day
      · rw [days_from_civil_some year month day valid]
        exact ⟨fun _ => valid, fun _ => Option.some_ne_none _⟩
      · rw [days_from_civil_none year month day valid]
        exact ⟨fun absent => absurd rfl absent, fun valid' => absurd valid' valid⟩
    · intro days found
      by_cases valid : Valid year month day
      · rw [days_from_civil_some year month day valid] at found
        obtain rfl := Option.some.inj found
        obtain ⟨low, high⟩ := word
        exact civil_from_day_number year month day valid (day_number_word year month day valid ⟨low, Int.le_of_lt high⟩)
      · rw [days_from_civil_none year month day valid] at found
        cases found

theorem days_back_iff {days year : Int} {month day : Nat} (word : InI32 year)
    (found : civilFromDays days = some (year, month, day)) :
    daysFromCivil32 checks year month day = some (some days) ↔ ¬ Overflows year month day := by
  obtain ⟨_, valid, rfl⟩ := (civil_from_days_iff days year month day).mp found
  constructor
  · intro ran overflows
    obtain ⟨panics, wraps, valid'⟩ := days_from_civil_32_wraps year month day overflows
    cases checks with
    | true =>
        rw [panics] at ran
        cases ran
    | false =>
        have same := Option.some.inj (Option.some.inj (wraps.symm.trans ran))
        have less := day_number_less year month day valid valid' (.inl (by rw [overflows.1]; decide))
        omega
  · exact fun fits => days_of_valid checks year month day word fits valid

theorem before_trichotomy : Before year month day year' month' day' ∨ (year = year' ∧ month = month' ∧ day = day') ∨
      Before year' month' day' year month day := by
  rw [Before, Before]
  omega

theorem day_number_order (valid : Valid year month day) (valid' : Valid year' month' day') :
    dayNumber year month day < dayNumber year' month' day' ↔ Before year month day year' month' day' := by
  constructor
  · intro less
    rcases before_trichotomy year month day year' month' day' with before | ⟨rfl, rfl, rfl⟩ | after
    · exact before
    · omega
    · have more := day_number_less year' month' day' valid' valid after
      omega
  · exact day_number_less year month day valid valid'

theorem iso8601_utc_written (unix : Int) (word : InI64 unix) : ∃ text, iso8601Utc unix = some text := by
  obtain ⟨low, high⟩ := word
  obtain ⟨year, month, day, valid, same⟩ := day_number_onto (unix / 86400)
  have small : InI64 (unix / 86400 + 719468) := ⟨by omega, by omega⟩
  have found := (civil_from_days_iff (unix / 86400) year month day).mpr ⟨small, valid, same⟩
  rw [iso8601Utc, found]
  exact ⟨_, rfl⟩

theorem first_valid : Valid (-2 ^ 31) 1 1 := ⟨by decide, by decide⟩

theorem last_valid : Valid (2 ^ 31 - 1) 12 31 := ⟨by decide, by decide⟩

theorem civil_in_range (low : dayNumber (-2 ^ 31) 1 1 ≤ days) (high : days ≤ dayNumber (2 ^ 31 - 1) 12 31) :
    ∃ year month day, InI32 year ∧ civilFromDays days = some (year, month, day) := by
  obtain ⟨year, month, day, valid, rfl⟩ := day_number_onto days
  have above : -2 ^ 31 ≤ year := by
    by_contra earlier
    have less := day_number_less year month day valid first_valid (.inl (Int.not_le.mp earlier))
    omega
  have below : year < 2 ^ 31 := by
    by_contra later
    have more := day_number_less (2 ^ 31 - 1) 12 31 last_valid valid (.inl (by omega))
    omega
  exact ⟨year, month, day, ⟨above, below⟩, (civil_from_days_iff _ year month day).mpr
    ⟨day_number_word year month day valid ⟨above, Int.le_of_lt below⟩, valid, rfl⟩⟩

def dosYear (date : Nat) : Int := ((date / 512 + 1980 : Nat) : Int)

def dosSeconds (time : Nat) : Nat := time / 2048 * 3600 + time / 32 % 64 * 60 + time % 32 * 2

structure DosValid (date time : Nat) : Prop where
  day : Valid (dosYear date) (date / 32 % 16) (date % 32)
  clock : time / 2048 ≤ 23 ∧ time / 32 % 64 ≤ 59 ∧ time % 32 * 2 ≤ 59

theorem dos_datetime_some (date time : Nat) (valid : DosValid date time) :
    dosDatetimeToUnix date time =
      some (dayNumber (dosYear date) (date / 32 % 16) (date % 32) * 86400 + (dosSeconds time : Int)) ∧ dosSeconds time < 86400 := by
  obtain ⟨day, hour, minute, second⟩ := valid
  constructor
  · rw [dosDatetimeToUnix]
    rw [if_neg (by omega), ← dosYear, days_from_civil_some _ _ _ day]
    rfl
  · rw [dosSeconds]
    omega

theorem dos_datetime_none (date time : Nat) (invalid : ¬ DosValid date time) : dosDatetimeToUnix date time = none := by
  rw [dosDatetimeToUnix]
  split
  · rfl
  · rw [← dosYear, days_from_civil_none _ _ _ fun day => invalid ⟨day, by omega⟩]
    rfl

theorem dos_datetime_prints (date time : UInt16) :
    (DosValid date.toNat time.toNat → (dosDatetimeToUnix date.toNat time.toNat).bind iso8601Utc =
      some (padded 4 (dosYear date.toNat) ++ "-" ++ padded 2 (date.toNat / 32 % 16 : Nat) ++ "-" ++
        padded 2 (date.toNat % 32 : Nat) ++ "T" ++ padded 2 (time.toNat / 2048 : Nat) ++ ":" ++
        padded 2 (time.toNat / 32 % 64 : Nat) ++ ":" ++ padded 2 (time.toNat % 32 * 2 : Nat) ++ "Z")) ∧
    (¬ DosValid date.toNat time.toNat → dosDatetimeToUnix date.toNat time.toNat = none) := by
  refine ⟨fun valid => ?_, dos_datetime_none _ _⟩
  obtain ⟨same, small⟩ := dos_datetime_some _ _ valid
  have year : -2 ^ 31 ≤ dosYear date.toNat ∧ dosYear date.toNat ≤ 2 ^ 31 := by
    have bound := date.toNat_lt
    rw [dosYear]
    omega
  have clock := valid.clock
  rw [same, Option.bind_some, iso8601Utc]
  have days : ∀ n : Int, (n * 86400 + (dosSeconds time.toNat : Int)) / 86400 = n := by omega
  have rest : ∀ n : Int, (n * 86400 + (dosSeconds time.toNat : Int)) % 86400 = dosSeconds time.toNat := by omega
  have hours : (dosSeconds time.toNat : Int) / 3600 = (time.toNat / 2048 : Nat) := by
    rw [dosSeconds]
    omega
  have minutes : (dosSeconds time.toNat : Int) % 3600 / 60 = (time.toNat / 32 % 64 : Nat) := by
    rw [dosSeconds]
    omega
  have seconds : (dosSeconds time.toNat : Int) % 60 = (time.toNat % 32 * 2 : Nat) := by
    rw [dosSeconds]
    omega
  simp only [days, rest, hours, minutes, seconds,
    civil_from_day_number _ _ _ valid.day (day_number_word _ _ _ valid.day year), Option.map_some]

end Filefacts.Time
