/-!
# Timestamps

A timestamp is a date, or a date with a time of day: behind a `T` with a zone, or behind spaces
without one. Month, day and the parts of the time have one or two digits, and all have to exist in
the calendar.

## Main definitions

* `Yaml.Calendar.daysIn`: the length of a month.
* `Yaml.isTimestamp`: is the text a timestamp?
-/

namespace LetPoly.Yaml

namespace Calendar

/-- Does the year have a 29th of February? -/
def isLeap (year : Nat) : Bool :=
  year % 4 = 0 && (year % 100 ≠ 0 || year % 400 = 0)

/-- The number of days in a month. -/
def daysIn (year month : Nat) : Nat :=
  if month = 2 then (if isLeap year then 29 else 28)
  else if month = 4 || month = 6 || month = 9 || month = 11 then 30
  else 31

end Calendar

/-- The value of a digit in a timestamp. -/
def timeDigit (c : Char) : Nat :=
  c.toNat - '0'.toNat

/-- A number of one or two digits, and what follows it. -/
def shortNumber? : List Char → Option (Nat × List Char)
  | a :: b :: cs =>
    if a.isDigit then
      if b.isDigit then some (10 * timeDigit a + timeDigit b, cs) else some (timeDigit a, b :: cs)
    else none
  | [a] => if a.isDigit then some (timeDigit a, []) else none
  | [] => none

/-- What follows the given character. -/
def after? (c : Char) : List Char → Option (List Char)
  | d :: cs => if d = c then some cs else none
  | [] => none

/-- What follows a date that exists. -/
def date? : List Char → Option (List Char)
  | a :: b :: c :: d :: cs => do
    if [a, b, c, d].all Char.isDigit then
      let year := [a, b, c, d].foldl (fun n x => 10 * n + timeDigit x) 0
      let (month, cs) ← shortNumber? (← after? '-' cs)
      let (day, cs) ← shortNumber? (← after? '-' cs)
      if 1 ≤ month ∧ month ≤ 12 ∧ 1 ≤ day ∧ day ≤ Calendar.daysIn year month then some cs else none
    else none
  | _ => none

/-- What follows a fraction of a second, if there is one. -/
def afterFraction : List Char → List Char
  | p :: d :: cs =>
    if (p = '.' || p = ',') && d.isDigit then cs.dropWhile Char.isDigit else p :: d :: cs
  | cs => cs

/-- What follows a time of day that exists. -/
def time? (cs : List Char) : Option (List Char) := do
  let (hour, cs) ← shortNumber? cs
  let (minute, cs) ← shortNumber? (← after? ':' cs)
  let (second, cs) ← shortNumber? (← after? ':' cs)
  if hour < 24 ∧ minute < 60 ∧ second < 60 then some (afterFraction cs) else none

/-- Is the text a zone: the letter `Z`, or a sign with hours and minutes? -/
def isZone : List Char → Bool
  | ['Z'] => true
  | [sign, a, b, ':', c, d] =>
    (sign = '+' || sign = '-') && [a, b, c, d].all Char.isDigit &&
      10 * timeDigit a + timeDigit b ≤ 24 && 10 * timeDigit c + timeDigit d ≤ 60
  | _ => false

/-- Is the text a timestamp? -/
def isTimestamp (text : String) : Bool :=
  match date? text.toList with
  | some [] => true
  | some (c :: cs) =>
    if c = 'T' || c = 't' then (time? cs).any isZone
    else c = ' ' && (time? (cs.dropWhile (· = ' '))).any List.isEmpty
  | none => false

end LetPoly.Yaml
