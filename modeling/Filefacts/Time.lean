import Mathlib.Algebra.Order.Ring.Nat
import Mathlib.Algebra.Order.Ring.Int

set_option autoImplicit false

namespace Filefacts.Time

def isLeap (year : Int) : Bool := year % 4 == 0 && (year % 100 != 0 || year % 400 == 0)

def monthDays (year : Int) (month : Nat) : Option Nat :=
  if month ∈ [1, 3, 5, 7, 8, 10, 12] then some 31
  else if month ∈ [4, 6, 9, 11] then some 30
  else if month = 2 then some (if isLeap year then 29 else 28)
  else none

def daysFromCivil (year : Int) (month day : Nat) : Option Int :=
  (monthDays year month).bind fun days =>
    if 1 ≤ day ∧ day ≤ days then
      let yAdj := if month ≤ 2 then year - 1 else year
      let era := yAdj / 400
      let yoe := (yAdj % 400).toNat
      let mp := if month > 2 then month - 3 else month + 9
      let doy := (153 * mp + 2) / 5 + day - 1
      let doe := yoe * 365 + yoe / 4 - yoe / 100 + doy
      some (era * 146097 + (doe : Int) - 719468)
    else none

def dosDatetimeToUnix (date time : Nat) : Option Int :=
  let year : Int := ((date / 512 + 1980 : Nat) : Int)
  let month := date / 32 % 16
  let day := date % 32
  let hour := time / 2048
  let minute := time / 32 % 64
  let second := time % 32 * 2
  if hour > 23 ∨ minute > 59 ∨ second > 59 then none
  else (daysFromCivil year month day).map fun days => days * 86400 + ((hour * 3600 + minute * 60 + second : Nat) : Int)

-- 100 ns ticks since 1601.
def filetimeToUnix (ticks : Nat) : Int := ((ticks / 10000000 : Nat) : Int) - 11644473600

end Filefacts.Time
