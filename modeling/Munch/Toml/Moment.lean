-- SUMMARY: Dates and times in settings files and how they are written.
import Munch.Toml.Number

/-!
# Dates and times of settings files

A moment is a date, a time, or both, with an offset from world time perhaps.
Moments are only checked, as no setting is one: readers give what is left.
-/

namespace Munch.Toml

/-- A number of two digits that lies between two bounds. -/
def twoDigits? (least greatest : Nat) : Reader Nat
  | c :: d :: rest =>
    let n := valueOf 10 [c, d]
    if c.isDigit && d.isDigit && least ≤ n && n ≤ greatest then some (n, rest) else none
  | _ => none

def isLeapYear (year : Nat) : Bool := year % 4 = 0 && (year % 100 != 0 || year % 400 = 0)

def daysIn (year month : Nat) : Nat :=
  if month = 2 then if isLeapYear year then 29 else 28
  else if month ∈ [4, 6, 9, 11] then 30 else 31

/-- A day of the calendar. -/
def afterDate? (input : List Char) : Option (List Char) := do
  let (century, rest) ← twoDigits? 0 99 input
  let (year, rest) ← twoDigits? 0 99 rest
  let (month, rest) ← twoDigits? 1 12 (← after? (· = '-') rest)
  let (_, rest) ← twoDigits? 1 (daysIn (100 * century + year) month) (← after? (· = '-') rest)
  return rest

/-- Hours and minutes. -/
def afterMinutes? (input : List Char) : Option (List Char) := do
  let (_, rest) ← twoDigits? 0 23 input
  let (_, rest) ← twoDigits? 0 59 (← after? (· = ':') rest)
  return rest

/-- A time of the day, to any part of a second. A minute may have a leap second. -/
def afterTime? (input : List Char) : Option (List Char) := do
  let rest ← afterMinutes? input
  let (_, rest) ← twoDigits? 0 60 (← after? (· = ':') rest)
  match rest with
  | '.' :: c :: more => return if c.isDigit then more.dropWhile Char.isDigit else rest
  | _ => return rest

/-- What is left behind an offset from world time, which may be missing. -/
def afterOffset (input : List Char) : List Char :=
  match input with
  | 'Z' :: rest => rest
  | 'z' :: rest => rest
  | '+' :: rest => (afterMinutes? rest).getD input
  | '-' :: rest => (afterMinutes? rest).getD input
  | _ => input

def afterMoment? (input : List Char) : Option (List Char) :=
  match afterDate? input with
  | none => afterTime? input
  | some rest =>
    match after? (fun c => c = 'T' || c = 't' || c = ' ') rest >>= afterTime? with
    | none => some rest
    | some rest => some (afterOffset rest)

end Munch.Toml
