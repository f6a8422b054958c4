import RuleLogic.EvalError
import RuleLogic.Equality
import RuleLogic.Eval.Arithmetic

/-!
# Searching and cutting texts

`in` searches an array for an equal item or a text for a part, `cat` joins the texts of its
operands, and `substr` cuts a piece out of a text, counted in characters from either end.

    cut s start length    never reaches beyond the ends of s, whatever the indexes
-/

namespace RuleLogic.Text

/-! ## Searching -/

/-- Does the text have the part somewhere in it? -/
def hasPart (part text : List Char) : Bool :=
  (String.ofList text).contains (String.ofList part)

/-- Is the first operand found in the second? -/
def search (op : Operator) : List Value → Except EvalError Value
  | [v, .arr items] => .ok (.bool (items.any fun item => item.strictEq v))
  | [v, .str s] => .ok (.bool (hasPart v.plain s.toList))
  | [_, v] => op.refuse (.notSearchable v.kind)
  | _ => op.refuse (.operandCount "two operands")

/-- The joined texts of the operands. -/
def join (operands : List Value) : Value := .str (String.ofList (operands.flatMap Value.plain))

/-! ## Cutting -/

/-- An index brought into the range of 64 signed bits. -/
def saturate (n : Int) : Int := max (-9223372036854775808) (min n 9223372036854775807)

/-- The index at which a piece of a text of `size` characters starts: a negative one counts from
the end. -/
def startIndex (size start : Int) : Int :=
  if start < 0 then max (saturate (size + start)) 0 else min start size

/-- The index at which the piece ends: a negative length stops that far before the end. -/
def endIndex (size start : Int) : Option Int → Int
  | none => size
  | some length =>
    if length < 0 then max (saturate (size + length)) start
    else min (saturate (start + length)) size

/-- The piece of a text from a start on, for a length or up to the end. -/
def cut (text : List Char) (start : Int) (length : Option Int) : List Char :=
  let first := startIndex text.length start
  let last := endIndex text.length first length
  (text.take last.toNat).drop first.toNat

/-- The index that an operand holds. -/
def index (op : Operator) (v : Value) : Except EvalError Int := do
  match (← Arithmetic.operand op v).toInt? with
  | some n => pure (saturate n)
  | none => op.refuse (.notAnInteger v)

/-- A piece of the first operand's text. -/
def substr (op : Operator) : List Value → Except EvalError Value
  | [v, start] => do
    let start ← index op start
    pure (.str (String.ofList (cut v.plain start none)))
  | [v, start, length] => do
    let start ← index op start
    let length ← index op length
    pure (.str (String.ofList (cut v.plain start (some length))))
  | _ => op.refuse (.operandCount "two or three operands")

/-! ## Lemmas -/

theorem hasPart_iff (part text : List Char) : hasPart part text = true ↔ part <:+: text := by
  rw [hasPart, String.contains_string_iff, String.toList_ofList, String.toList_ofList]

end RuleLogic.Text
