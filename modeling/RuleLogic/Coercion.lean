import RuleLogic.Json.Printer
import RuleLogic.NumericText

/-!
# Values read as conditions, texts and numbers

Operators accept any value where they need a condition, a text or a number.  `truthy` and `plain`
read every value; `toNumber?` has no reading of arrays, objects and strings that hold no number.

    plain (.arr [x, y, z]) = plain x, plain y and plain z with commas between
-/

namespace RuleLogic

/-- Whole doubles below `10 ^ 21` are written as integers, all other numbers as in JSON. -/
def Number.plain : Number → List Char
  | .int n inRange => text (.int n inRange)
  | .double x =>
    match x.toInt? with
    | some n =>
      if n.natAbs < 1000000000000000000000 then
        (if x.negative then ['-'] else []) ++ Nat.toDigits 10 n.natAbs
      else x.text
    | none => x.text

namespace Value

/-- The condition that a value stands for: `null`, `false`, zero, the empty string and the empty
array are false. -/
def truthy : Value → Bool
  | .null => false
  | .bool b => b
  | .num n => n.toDouble.units != 0
  | .str s => !s.isEmpty
  | .arr items => !items.isEmpty
  | .obj _ => true

mutual

/-- The text that a value contributes to a text. -/
def plain : Value → List Char
  | .null => []
  | .bool b => boolText b
  | .num n => n.plain
  | .str s => s.toList
  | .arr items => plainItems items
  | .obj entries => compact (.obj entries)

/-- The texts of the items with commas between them. -/
def plainItems : List Value → List Char
  | [] => []
  | [v] => plain v
  | v :: w :: rest => plain v ++ ',' :: plainItems (w :: rest)

end

/-- The number that arithmetic reads from a value. -/
def toNumber? : Value → Option Double
  | .null => some (.zero false)
  | .bool b => some (.ofInt (if b then 1 else 0))
  | .num n => some n.toDouble
  | .str s => NumericText.read? s.toList
  | .arr _ => none
  | .obj _ => none

/-! ## Lemmas -/

@[simp] theorem truthy_bool (b : Bool) : (Value.bool b).truthy = b := rfl

end Value

end RuleLogic
