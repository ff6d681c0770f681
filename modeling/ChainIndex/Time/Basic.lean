/-!
This module contains points in time, as civil date and time of day in UTC, and the shift by an offset of
less than a day. Second 60 is kept, so a leap second has a name of its own.
-/

namespace ChainIndex

namespace Calendar

def minYear : Int := -262143

def maxYear : Int := 262142

def isLeap (year : Int) : Bool :=
  year % 4 == 0 && (year % 100 != 0 || year % 400 == 0)

def daysInMonth (year : Int) (month : Nat) : Nat :=
  if month = 2 then (if isLeap year then 29 else 28)
  else if month = 4 ∨ month = 6 ∨ month = 9 ∨ month = 11 then 30
  else 31

theorem daysInMonth_le (year : Int) (month : Nat) : daysInMonth year month ≤ 31 := by
  unfold daysInMonth
  split
  · split <;> decide
  · split <;> decide

end Calendar

structure Date where
  year : Int
  month : Nat
  day : Nat
deriving DecidableEq

namespace Date

open Calendar

def isValid (d : Date) : Bool :=
  minYear ≤ d.year && d.year ≤ maxYear && 1 ≤ d.month && d.month ≤ 12 &&
    1 ≤ d.day && d.day ≤ daysInMonth d.year d.month

def next (d : Date) : Date :=
  if d.day < daysInMonth d.year d.month then { d with day := d.day + 1 }
  else if d.month < 12 then { d with month := d.month + 1, day := 1 }
  else ⟨d.year + 1, 1, 1⟩

def previous (d : Date) : Date :=
  if 1 < d.day then { d with day := d.day - 1 }
  else if 1 < d.month then { d with month := d.month - 1, day := daysInMonth d.year (d.month - 1) }
  else ⟨d.year - 1, 12, 31⟩

end Date

structure Clock where
  hour : Nat
  minute : Nat
  second : Nat
  nanosecond : Nat
deriving DecidableEq

namespace Clock

def isValid (c : Clock) : Bool :=
  c.hour < 24 && c.minute < 60 && c.second ≤ 60 && c.nanosecond < 1000000000

end Clock

structure Timestamp where
  date : Date
  clock : Clock
  date_valid : date.isValid = true
  clock_valid : clock.isValid = true
deriving DecidableEq

namespace Timestamp

def ofParts? (date : Date) (clock : Clock) : Option Timestamp :=
  if h : date.isValid = true ∧ clock.isValid = true then some ⟨date, clock, h.1, h.2⟩ else none

/--
The point in time at which clocks `offset` minutes ahead of UTC show the given date and time. The offset
is less than a day either way, so the date moves by at most one day.
-/
def ofLocal? (date : Date) (clock : Clock) (offset : Int) : Option Timestamp :=
  let minutes : Int := clock.hour * 60 + clock.minute - offset
  let minuteOfDay := (minutes % 1440).toNat
  let clock' := { clock with hour := minuteOfDay / 60, minute := minuteOfDay % 60 }
  if date.isValid && clock.isValid then
    if minutes < 0 then ofParts? date.previous clock'
    else if minutes < 1440 then ofParts? date clock'
    else ofParts? date.next clock'
  else none

theorem ofParts?_self (t : Timestamp) : ofParts? t.date t.clock = some t :=
  dif_pos ⟨t.date_valid, t.clock_valid⟩

theorem ofLocal?_zero (t : Timestamp) : ofLocal? t.date t.clock 0 = some t := by
  have hclock := t.clock_valid
  simp only [Clock.isValid, Bool.and_eq_true, decide_eq_true_eq] at hclock
  have hminute : ((t.clock.hour * 60 + t.clock.minute - 0 : Int) % 1440).toNat =
      t.clock.hour * 60 + t.clock.minute := by omega
  have hdiv : (t.clock.hour * 60 + t.clock.minute) / 60 = t.clock.hour := by omega
  have hmod : (t.clock.hour * 60 + t.clock.minute) % 60 = t.clock.minute := by omega
  unfold ofLocal?
  simp only [hminute, hdiv, hmod, t.date_valid, t.clock_valid, Bool.and_self, if_true]
  rw [if_neg (by omega), if_pos (by omega)]
  exact t.ofParts?_self

end Timestamp

end ChainIndex
