import RuleLogic.Double.Shortest

/-!
# Texts of doubles

A double is written with the digits of its shortest decimal.  Between `10 ^ (-5)` and `10 ^ 16` it
is written plainly, and a whole number ends in `.0`; beyond, with a signed exponent and no `.0`.

    0.00001    100.0    1000000000000000.0    1e+16    1.25e-6    5e-324    -0.0
-/

namespace RuleLogic.Double

/-- Exponents of the leading digit that are written without an exponent part. -/
def writtenPlainly (e : Int) : Bool := -5 ≤ e && e ≤ 15

/-- The digits of a decimal without zeros at the end. -/
def significantDigits (d : Decimal) : List Char :=
  ((Nat.toDigits 10 d.digits).reverse.dropWhile (· == '0')).reverse

/-- The exponent of the leading digit of a decimal. -/
def leadingDigitExponent (d : Decimal) : Int :=
  (Nat.toDigits 10 d.digits).length - 1 + d.exponent

/-- Digits with the leading one at `10 ^ e`, written without an exponent part; a whole number ends
in `.0`. -/
def plainText (ds : List Char) (e : Int) : List Char :=
  if e < 0 then '0' :: '.' :: (List.replicate (-e - 1).toNat '0' ++ ds)
  else
    let whole := e.toNat + 1
    if ds.length ≤ whole then ds ++ List.replicate (whole - ds.length) '0' ++ ['.', '0']
    else ds.take whole ++ '.' :: ds.drop whole

/-- Digits with the leading one at `10 ^ e`, written with a signed exponent part. -/
def scientificText (ds : List Char) (e : Int) : List Char :=
  let exponent := 'e' :: (if e < 0 then '-' else '+') :: Nat.toDigits 10 e.natAbs
  match ds with
  | [d] => d :: exponent
  | d :: rest => d :: '.' :: rest ++ exponent
  | [] => exponent

/-- The text of a decimal: plain between `10 ^ (-5)` and `10 ^ 16`, else scientific. -/
def decimalText (d : Decimal) : List Char :=
  let e := leadingDigitExponent d
  if writtenPlainly e then plainText (significantDigits d) e
  else scientificText (significantDigits d) e

/-- The text of a double: the sign, then its shortest decimal. -/
def text (x : Double) : List Char :=
  let unsigned := if x.magnitude = 0 then ['0', '.', '0'] else decimalText (shortest x.magnitude)
  if x.negative then '-' :: unsigned else unsigned

end RuleLogic.Double
