import RuleLogic.Numeral

/-!
# JSON numbers

A number is an integer that fits in 64 bits, signed or unsigned, or a finite double.  The two
forms stay apart: `1` and `1.0` have the same value and different texts.

    ofNumeral? (numeral of "-0") = the double -0.0
-/

namespace RuleLogic

/-- The least integer held as an integer, `-2 ^ 63`. -/
def minInteger : Int := -9223372036854775808

/-- The greatest integer held as an integer, `2 ^ 64 - 1`. -/
def maxInteger : Int := 18446744073709551615

/-- A number of a JSON text. -/
inductive Number where
  | int (n : Int) (inRange : minInteger ≤ n ∧ n ≤ maxInteger)
  | double (x : Double)
deriving DecidableEq

namespace Number

/-- The value of a number, rounded to the nearest double. -/
def toDouble : Number → Double
  | .int n _ => .ofInt n
  | .double x => x

/-- Equality of the double values. -/
def sameValue (a b : Number) : Bool := a.toDouble.sameValue b.toDouble

/-- Equality of form and value. -/
def same : Number → Number → Bool
  | .int a _, .int b _ => a == b
  | .double x, .double y => x.sameValue y
  | _, _ => false

/-- The integer as a number, if it fits. -/
def ofInt? (n : Int) : Option Number :=
  if h : minInteger ≤ n ∧ n ≤ maxInteger then some (.int n h) else none

/-! ## Text -/

/-- Decimal digits of an integer, behind a minus sign when it is negative. -/
def integerText (n : Int) : List Char :=
  if n < 0 then '-' :: Nat.toDigits 10 n.natAbs else Nat.toDigits 10 n.natAbs

def text : Number → List Char
  | .int n _ => integerText n
  | .double x => x.text

/-- May the character stand in a number? -/
def isTextChar (c : Char) : Bool := c.isDigit || "+-.eE".toList.contains c

/-- The numerals that JSON admits: no plus sign, whole digits without a needless zero in front,
and a digit behind every point. -/
def admits (n : Numeral) : Bool :=
  n.sign != some '+' && (n.whole == ['0'] || (!n.whole.isEmpty && n.whole.head? != some '0'))
    && n.fraction != some []

/-- How many whole digits are read one by one. -/
def wholeDigitLimit : Nat := 768

/-- The numeral with a one and zeros in place of the whole digits behind the limit, so that a longer
numeral is never halfway between two doubles. -/
def cutWhole (n : Numeral) : Numeral :=
  if n.whole.length ≤ wholeDigitLimit then n
  else
    let beyond := n.whole.length - wholeDigitLimit
    { n with whole := n.whole.take wholeDigitLimit ++ '1' :: List.replicate (beyond - 1) '0' }

/-- The nearest double to a numeral, as far as its whole digits are read. -/
def doubleOf? (n : Numeral) : Option Number := (cutWhole n).toDouble?.map .double

/-- The number that an admitted numeral denotes: an integer when it has neither fraction nor
exponent and fits, else the nearest double.  A zero with a minus sign is the negative double zero,
and there is no number beyond the finite doubles. -/
def ofNumeral? (n : Numeral) : Option Number :=
  let size : Int := Numeral.ofDigits n.whole
  if n.fraction.isNone && n.exponent.isNone && !(n.negative && size == 0) then
    ofInt? (if n.negative then -size else size) <|> doubleOf? n
  else doubleOf? n

/-- The number that a text writes. -/
def read? (text : List Char) : Option Number :=
  match Numeral.scan text with
  | some n => if admits n then ofNumeral? n else none
  | none => none

/-! ## Lemmas -/

theorem cutWhole_eq_self (n : Numeral) (h : n.whole.length ≤ wholeDigitLimit) : cutWhole n = n :=
  if_pos h

end Number

end RuleLogic
