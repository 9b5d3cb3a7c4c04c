/-!
# Numbers in TOML documents

The written forms of numbers. Only their form matters, since no setting is a number: a function
takes the characters to come and returns those it left, or nothing if no number begins there or the
number is too large. Integers have 64 bits. A positive decimal fraction must not round to infinity
in the binary format with a mantissa of 53 bits and exponents up to 1023; a negative one may.

* `digitRun`: digits, which single underscores may divide into groups.
* `overflows`: the exact bound on decimal fractions.
* `afterNumber?`: the characters after a number.
-/

namespace FluentGrammar.Toml

/-- The value of a hexadecimal digit. -/
def hexDigit? (c : Char) : Option Nat :=
  if c.isDigit then some (c.toNat - '0'.toNat)
  else if 'a' ≤ c ∧ c ≤ 'f' then some (c.toNat - 'a'.toNat + 10)
  else if 'A' ≤ c ∧ c ≤ 'F' then some (c.toNat - 'A'.toNat + 10)
  else none

/-- A digit of a number system. -/
def isDigitOf (base : Nat) (c : Char) : Bool :=
  match hexDigit? c with
  | some d => d < base
  | none => false

/-- The number that a list of digits stands for. -/
def ofDigits (base : Nat) (digits : List Char) : Nat :=
  digits.foldl (fun n c => base * n + (hexDigit? c).getD 0) 0

/-- More digits of a number, each of which may follow an underscore. -/
def moreDigits (base : Nat) : List Char → List Char × List Char
  | '_' :: c :: cs =>
    if isDigitOf base c then
      let (digits, rest) := moreDigits base cs
      (c :: digits, rest)
    else ([], '_' :: c :: cs)
  | c :: cs =>
    if isDigitOf base c then
      let (digits, rest) := moreDigits base cs
      (c :: digits, rest)
    else ([], c :: cs)
  | [] => ([], [])

/-- One or more digits, between which single underscores may stand. -/
def digitRun : Nat → List Char → Option (List Char × List Char)
  | base, c :: cs =>
    if isDigitOf base c then
      let (digits, rest) := moreDigits base cs
      some (c :: digits, rest)
    else none
  | _, [] => none

/-- A sign, if there is one: whether it is a minus. -/
def sign : List Char → Bool × List Char
  | '+' :: cs => (false, cs)
  | '-' :: cs => (true, cs)
  | cs => (false, cs)

/-! ## Decimal fractions -/

/-- The least number that rounds to infinity: halfway between the greatest finite number and the
next power of two. -/
def overflowBound : Nat :=
  (Nat.pow 2 54 - 1) * Nat.pow 2 970

/-- The number of digits of `overflowBound`. -/
def overflowDigits : Nat := 309

/-- The number `mantissa * 10 ^ exponent` rounds to infinity. Numbers that have more or fewer digits
than the bound need no comparison. -/
def overflows (mantissa : Nat) (exponent : Int) : Bool :=
  let digits := ((Nat.toDigits 10 mantissa).length : Int) + exponent
  if mantissa = 0 then false
  else if digits ≠ overflowDigits then overflowDigits < digits
  else
    match exponent with
    | .ofNat e => overflowBound ≤ mantissa * Nat.pow 10 e
    | .negSucc e => overflowBound * Nat.pow 10 (e + 1) ≤ mantissa

/-- The digits before a point: a single zero, or digits of which the first is not zero. -/
def wholePart : List Char → Option (List Char × List Char)
  | '0' :: cs => some (['0'], cs)
  | cs => digitRun 10 cs

/-- The digits after a point, if there is one. -/
def fractionPart? : List Char → Option (List Char × List Char)
  | '.' :: cs => digitRun 10 cs
  | _ => none

/-- The power of ten after its mark, if there is one. -/
def exponentPart? : List Char → Option (Int × List Char)
  | c :: cs => do
    guard (c = 'e' || c = 'E')
    let (negative, cs) := sign cs
    let (digits, rest) ← digitRun 10 cs
    let n : Int := ofDigits 10 digits
    return (if negative then -n else n, rest)
  | [] => none

/-- The characters after a decimal number that follows a sign. -/
def afterDecimal? (negative : Bool) (cs : List Char) : Option (List Char) := do
  let (whole, afterWhole) ← wholePart cs
  let fraction := fractionPart? afterWhole
  let afterFraction := (fraction.map Prod.snd).getD afterWhole
  let exponent := exponentPart? afterFraction
  let digits := (fraction.map Prod.fst).getD []
  if fraction.isNone && exponent.isNone then
    guard (ofDigits 10 whole < Nat.pow 2 63 || (negative && ofDigits 10 whole = Nat.pow 2 63))
  else
    let power := (exponent.map Prod.fst).getD 0 - digits.length
    guard (negative || !overflows (ofDigits 10 (whole ++ digits)) power)
  return (exponent.map Prod.snd).getD afterFraction

/-! ## Numbers -/

/-- The characters after digits of a number system, whose number has to fit. -/
def afterRadix? (base : Nat) (cs : List Char) : Option (List Char) := do
  let (digits, rest) ← digitRun base cs
  guard (ofDigits base digits < Nat.pow 2 63)
  return rest

/-- The characters after a number. -/
def afterNumber? (cs : List Char) : Option (List Char) :=
  match cs with
  | '0' :: 'x' :: cs => afterRadix? 16 cs
  | '0' :: 'o' :: cs => afterRadix? 8 cs
  | '0' :: 'b' :: cs => afterRadix? 2 cs
  | cs =>
    let (negative, cs) := sign cs
    match cs with
    | 'i' :: 'n' :: 'f' :: cs => some cs
    | 'n' :: 'a' :: 'n' :: cs => some cs
    | cs => afterDecimal? negative cs

end FluentGrammar.Toml
