/-!
# Decimal fractions

A decimal is digits with at most one point in them, and perhaps an exponent of ten. What matters
here is whether a text is one and whether it lies in the range of doubles; its value is not needed
otherwise.

## Main definitions

* `Text.Decimal`, `Decimal.ofText?`: a decimal without its sign.
* `Decimal.inRange`: is it nearer to a finite double than to infinity?
-/

namespace LetPoly.Text

/-- The number `digits · 10 ^ exponent`. -/
structure Decimal where
  digits : Nat
  exponent : Int
  deriving DecidableEq, Repr

namespace Decimal

/-- The value of a row of decimal digits. -/
def ofDigits (cs : List Char) : Nat :=
  cs.foldl (fun n c => 10 * n + (c.toNat - '0'.toNat)) 0

/-- The exponent that a text gives, which starts with its letter. -/
def exponent? : List Char → Option Int
  | [] => some 0
  | e :: cs =>
    let (negative, digits) := match cs with
      | '-' :: ds => (true, ds)
      | '+' :: ds => (false, ds)
      | ds => (false, ds)
    if (e = 'e' || e = 'E') && !digits.isEmpty && digits.all Char.isDigit then
      some (if negative then -(ofDigits digits : Int) else ofDigits digits)
    else none

/-- The decimal that a text without a sign gives. -/
def ofText? (cs : List Char) : Option Decimal := do
  let whole := cs.takeWhile Char.isDigit
  let rest := cs.dropWhile Char.isDigit
  let (fraction, rest) := match rest with
    | '.' :: ds => (ds.takeWhile Char.isDigit, ds.dropWhile Char.isDigit)
    | ds => ([], ds)
  if whole.isEmpty && fraction.isEmpty then none
  else
    let e ← exponent? rest
    return ⟨ofDigits (whole ++ fraction), e - fraction.length⟩

/-- The first number that is too large to round to a finite double. -/
def bound : Nat := Nat.pow 2 1024 - Nat.pow 2 970

/-- Does the number round to a finite double? The number of its digits decides, unless the number
is near to the bound, which has 309 digits. -/
def inRange (d : Decimal) : Bool :=
  let size : Int := (Nat.toDigits 10 d.digits).length + d.exponent
  if d.digits = 0 || size < 309 then true
  else if 309 < size then false
  else if 0 ≤ d.exponent then d.digits * Nat.pow 10 d.exponent.toNat < bound
  else d.digits < bound * Nat.pow 10 (-d.exponent).toNat

end Decimal

end LetPoly.Text
