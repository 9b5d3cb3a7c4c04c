import FluentGrammar.Toml.Number

/-!
# Dates and times in TOML documents

The written forms of a date, a time of day, and both together with or without the distance from
universal time. As no setting is a date, only the form matters: a function takes the characters to
come and returns those it left.

* `afterMoment?`: the characters after a date or a time.
-/

namespace FluentGrammar.Toml

/-- A number of exactly `n` decimal digits that lies between two bounds. -/
def fixedNumber (n low high : Nat) (cs : List Char) : Option (Nat × List Char) := do
  let digits := cs.take n
  guard (digits.length = n && digits.all Char.isDigit)
  let number := ofDigits 10 digits
  guard (low ≤ number && number ≤ high)
  return (number, cs.drop n)

/-- The characters after a given one. -/
def afterChar? (c : Char) : List Char → Option (List Char)
  | d :: cs => if d = c then some cs else none
  | [] => none

/-- A year with a day more than others. -/
def isLeapYear (year : Nat) : Bool :=
  year % 4 = 0 && (year % 100 ≠ 0 || year % 400 = 0)

/-- The number of days of a month. -/
def daysIn (year month : Nat) : Nat :=
  if month = 2 then if isLeapYear year then 29 else 28
  else if month ∈ [4, 6, 9, 11] then 30
  else 31

/-- The characters after a date, `1979-05-27`. -/
def afterDate? (cs : List Char) : Option (List Char) := do
  let (year, cs) ← fixedNumber 4 0 9999 cs
  let (month, cs) ← fixedNumber 2 1 12 (← afterChar? '-' cs)
  let (_, cs) ← fixedNumber 2 1 (daysIn year month) (← afterChar? '-' cs)
  return cs

/-- The characters after a fraction of a second, if there is one. -/
def afterSecondFraction (cs : List Char) : List Char :=
  match cs with
  | '.' :: c :: rest => if c.isDigit then rest.dropWhile Char.isDigit else cs
  | _ => cs

/-- The characters after a time of day, `07:32:00.5`; the second may be a leap second. -/
def afterTime? (cs : List Char) : Option (List Char) := do
  let (_, cs) ← fixedNumber 2 0 23 cs
  let (_, cs) ← fixedNumber 2 0 59 (← afterChar? ':' cs)
  let (_, cs) ← fixedNumber 2 0 60 (← afterChar? ':' cs)
  return afterSecondFraction cs

/-- The characters after the distance from universal time, `Z` or `-07:00`. -/
def afterOffset? : List Char → Option (List Char)
  | c :: cs =>
    if c = 'Z' || c = 'z' then some cs
    else do
      guard (c = '+' || c = '-')
      let (_, cs) ← fixedNumber 2 0 23 cs
      let (_, cs) ← fixedNumber 2 0 59 (← afterChar? ':' cs)
      return cs
  | [] => none

/-- The characters after the time of day and the distance that may follow a date. -/
def afterTimeOfDate (cs : List Char) : List Char :=
  match cs with
  | c :: rest =>
    if c = 'T' || c = 't' || c = ' ' then
      match afterTime? rest with
      | some rest => (afterOffset? rest).getD rest
      | none => cs
    else cs
  | [] => []

/-- The characters after a date or a time. -/
def afterMoment? (cs : List Char) : Option (List Char) :=
  ((afterDate? cs).map afterTimeOfDate).or (afterTime? cs)

end FluentGrammar.Toml
