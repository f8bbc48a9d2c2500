/-!
# Integers as they are written

An integer literal has a sign, perhaps, and then digits. With `0x`, `0o` and `0b` before them the
digits have base 16, 8 and 2, with another leading zero base 8, else base 10; underscores may stand
between digits and behind the letter of the base. Numbers are bounded by their width in bits.

## Main definitions

* `Text.IntegerError`: not an integer, or one that is out of range.
* `Text.digitsIn`: the value of digits in a base.
* `Text.unsigned`, `Text.signed`: numbers of 64 bits in a given base.
* `Text.unsignedLiteral`, `Text.signedLiteral`: literals, which may name their base.
-/

namespace LetPoly.Text

/-- Why a text gives no integer. -/
inductive IntegerError where
  | syntaxError
  | outOfRange
  deriving DecidableEq, Repr

/-- The wording of the error. -/
def IntegerError.message : IntegerError → String
  | .syntaxError => "invalid syntax"
  | .outOfRange => "value out of range"

/-! ### Digits -/

/-- The value of a digit, up to 35. -/
def digitValue? (c : Char) : Option Nat :=
  if '0' ≤ c ∧ c ≤ '9' then some (c.toNat - '0'.toNat)
  else if 'a' ≤ c ∧ c ≤ 'z' then some (c.toNat - 'a'.toNat + 10)
  else if 'A' ≤ c ∧ c ≤ 'Z' then some (c.toNat - 'A'.toNat + 10)
  else none

/-- The largest number of 64 bits. -/
def maxUnsigned : Nat := 0xffffffffffffffff

/-- The number with more digits behind those of `n`. Reading ends at the first digit that leads out
of range. -/
def digitsIn (base : Nat) : List Char → Nat → Except IntegerError Nat
  | [], n => .ok n
  | c :: cs, n =>
    match digitValue? c with
    | some d =>
      if base ≤ d then .error .syntaxError
      else if maxUnsigned < base * n + d then .error .outOfRange
      else digitsIn base cs (base * n + d)
    | none => .error .syntaxError

/-- A number of 64 bits without a sign. -/
def unsigned (base : Nat) (cs : List Char) : Except IntegerError Nat :=
  if cs.isEmpty then .error .syntaxError else digitsIn base cs 0

/-! ### Literals -/

/-- The base that a literal names. -/
def baseOf? (c : Char) : Option Nat :=
  if c = 'x' || c = 'X' then some 16
  else if c = 'o' || c = 'O' then some 8
  else if c = 'b' || c = 'B' then some 2
  else none

/-- A literal without a sign as its base and its digits. -/
def splitBase : List Char → Nat × List Char
  | '0' :: c :: d :: cs =>
    match baseOf? c with
    | some base => (base, d :: cs)
    | none => (8, c :: d :: cs)
  | '0' :: cs => (8, cs)
  | cs => (10, cs)

/-- Does every underscore stand between two digits? The flags tell whether a digit or an underscore
came last. -/
def separatesDigits (isDigit : Char → Bool) : List Char → (afterDigit afterUnderscore : Bool) → Bool
  | [], _, afterUnderscore => !afterUnderscore
  | c :: cs, afterDigit, afterUnderscore =>
    if isDigit c then separatesDigits isDigit cs true false
    else if c = '_' then afterDigit && separatesDigits isDigit cs false true
    else !afterUnderscore && separatesDigits isDigit cs false false

/-- Are the underscores of a literal without a sign in place? The letter of a base counts as a
digit. -/
def underscoresInPlace : List Char → Bool
  | '0' :: c :: cs =>
    match baseOf? c with
    | some base =>
      let isDigit (d : Char) : Bool :=
        d.isDigit || (base = 16 && (digitValue? d).any (· < 16))
      separatesDigits isDigit cs true false
    | none => separatesDigits Char.isDigit ('0' :: c :: cs) false false
  | cs => separatesDigits Char.isDigit cs false false

/-- A literal of 64 bits without a sign. -/
def unsignedLiteral (cs : List Char) : Except IntegerError Nat :=
  if cs.isEmpty then .error .syntaxError
  else
    let (base, digits) := splitBase cs
    match digitsIn base (digits.filter (· ≠ '_')) 0 with
    | .error e => .error e
    | .ok n => if underscoresInPlace cs then .ok n else .error .syntaxError

/-! ### Signs -/

/-- The first number that is too large for 64 bits with a sign. -/
def signBound : Nat := 0x8000000000000000

/-- The number with its sign, if it fits into 64 bits with one. -/
def withSign (negative : Bool) (n : Nat) : Except IntegerError Int :=
  if negative then if n ≤ signBound then .ok (-n) else .error .outOfRange
  else if n < signBound then .ok n else .error .outOfRange

/-- Reads a sign, if there is one, and then a number. -/
def signedBy (read : List Char → Except IntegerError Nat) : List Char → Except IntegerError Int
  | '-' :: cs => read cs >>= withSign true
  | '+' :: cs => read cs >>= withSign false
  | cs => read cs >>= withSign false

/-- A number of 64 bits with a sign. -/
def signed (base : Nat) (cs : List Char) : Except IntegerError Int :=
  signedBy (unsigned base) cs

/-- A literal of 64 bits with a sign. -/
def signedLiteral (cs : List Char) : Except IntegerError Int :=
  signedBy unsignedLiteral cs

end LetPoly.Text
