import RuleLogic.Json.Number

/-!
# JSON values

Rules, data and results are JSON values.  An object is the list of its entries in the order of the
text: the first entry of an object is what makes it a rule, so the order is data.

    same (.obj xs) (.obj ys)    does not depend on the order of the entries
-/

namespace RuleLogic

/-- A JSON value. -/
inductive Value where
  | null
  | bool (b : Bool)
  | num (n : Number)
  | str (s : String)
  | arr (items : List Value)
  | obj (entries : List (String × Value))

/-- The six kinds of value. -/
inductive Kind where
  | null | boolean | number | string | array | object
deriving DecidableEq

def Kind.name : Kind → String
  | null => "null"
  | boolean => "boolean"
  | number => "number"
  | string => "string"
  | array => "array"
  | object => "object"

namespace Value

def kind : Value → Kind
  | .null => .null
  | .bool _ => .boolean
  | .num _ => .number
  | .str _ => .string
  | .arr _ => .array
  | .obj _ => .object

def isNull : Value → Bool
  | .null => true
  | _ => false

/-- The value under a key: that of the first entry with the key. -/
def find? (key : String) : List (String × Value) → Option Value
  | [] => none
  | (k, v) :: rest => if k == key then some v else find? key rest

/-- Entries with a key set: a present key keeps its place, a new one goes to the end. -/
def put (key : String) (v : Value) : List (String × Value) → List (String × Value)
  | [] => [(key, v)]
  | (k, old) :: rest => if k == key then (k, v) :: rest else (k, old) :: put key v rest

/-- The integer as a value; integers that do not fit become doubles. -/
def ofInt (n : Int) : Value := .num ((Number.ofInt? n).getD (.double (.ofInt n)))

/-! ## Equality -/

mutual

/-- Structural equality: numbers agree in form and value, objects as sets of entries. -/
def same : Value → Value → Bool
  | .null, .null => true
  | .bool a, .bool b => a == b
  | .num a, .num b => a.same b
  | .str a, .str b => a == b
  | .arr xs, .arr ys => sameItems xs ys
  | .obj xs, .obj ys => xs.length == ys.length && within xs ys
  | _, _ => false

def sameItems : List Value → List Value → Bool
  | [], [] => true
  | x :: xs, y :: ys => same x y && sameItems xs ys
  | _, _ => false

/-- Does every entry have an equal value under its key in the other object? -/
def within : List (String × Value) → List (String × Value) → Bool
  | [], _ => true
  | (k, x) :: xs, ys => (find? k ys).any (same x) && within xs ys

end

mutual

/-- Identity of values, in which the order of entries counts. -/
def decideEq : (a b : Value) → Decidable (a = b)
  | .null, .null => isTrue rfl
  | .bool a, .bool b => decidable_of_iff (a = b) (by simp)
  | .num a, .num b => decidable_of_iff (a = b) (by simp)
  | .str a, .str b => decidable_of_iff (a = b) (by simp)
  | .arr a, .arr b => @decidable_of_iff _ (a = b) (by simp) (decideItemsEq a b)
  | .obj a, .obj b => @decidable_of_iff _ (a = b) (by simp) (decideEntriesEq a b)
  | .null, .bool _ | .null, .num _ | .null, .str _ | .null, .arr _ | .null, .obj _
  | .bool _, .null | .bool _, .num _ | .bool _, .str _ | .bool _, .arr _ | .bool _, .obj _
  | .num _, .null | .num _, .bool _ | .num _, .str _ | .num _, .arr _ | .num _, .obj _
  | .str _, .null | .str _, .bool _ | .str _, .num _ | .str _, .arr _ | .str _, .obj _
  | .arr _, .null | .arr _, .bool _ | .arr _, .num _ | .arr _, .str _ | .arr _, .obj _
  | .obj _, .null | .obj _, .bool _ | .obj _, .num _ | .obj _, .str _ | .obj _, .arr _ =>
    isFalse nofun

def decideItemsEq : (a b : List Value) → Decidable (a = b)
  | [], [] => isTrue rfl
  | [], _ :: _ | _ :: _, [] => isFalse nofun
  | x :: xs, y :: ys =>
    @decidable_of_iff _ (x = y ∧ xs = ys) (by simp)
      (@instDecidableAnd _ _ (decideEq x y) (decideItemsEq xs ys))

def decideEntriesEq : (a b : List (String × Value)) → Decidable (a = b)
  | [], [] => isTrue rfl
  | [], _ :: _ | _ :: _, [] => isFalse nofun
  | (k, x) :: xs, (l, y) :: ys =>
    @decidable_of_iff _ (k = l ∧ x = y ∧ xs = ys) (by simp [and_assoc])
      (@instDecidableAnd _ _ (instDecidableEqString k l)
        (@instDecidableAnd _ _ (decideEq x y) (decideEntriesEq xs ys)))

end

instance : DecidableEq Value := decideEq

end Value

end RuleLogic
