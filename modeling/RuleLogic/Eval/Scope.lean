import RuleLogic.Eval.Branch

/-!
# Scoped operators

The first argument gives a collection, and the body is evaluated with each of its items as the
data, in order.  `reduce` evaluates its body with an object that holds the value so far and the
item.

    some, none and all stop at the first item that decides
-/

namespace RuleLogic

namespace Scope

/-! ## Walks over a collection -/

/-- The value of the body on every item. -/
def mapItems (body : Meaning) : List Value → Outcome (List Value)
  | [] => pure []
  | item :: rest => do
    let v ← body item
    let vs ← mapItems body rest
    pure (v :: vs)

/-- The items on which the body is truthy. -/
def filterItems (body : Meaning) : List Value → Outcome (List Value)
  | [] => pure []
  | item :: rest => do
    let v ← body item
    let kept ← filterItems body rest
    pure (if v.truthy then item :: kept else kept)

/-- The data of a `reduce` body. -/
def reduceScope (accumulator current : Value) : Value :=
  .obj [("accumulator", accumulator), ("current", current)]

/-- The body's values carried from item to item. -/
def reduceItems (body : Meaning) (accumulator : Value) : List Value → Outcome Value
  | [] => pure accumulator
  | item :: rest => do
    let next ← body (reduceScope accumulator item)
    reduceItems body next rest

/-- Is there an item on which the body's truth is `wanted`?  Later items are not evaluated. -/
def anyItem (wanted : Bool) (body : Meaning) : List Value → Outcome Bool
  | [] => pure false
  | item :: rest => do
    if (← body item).truthy == wanted then pure true else anyItem wanted body rest

/-- Is the body truthy on all items, of which there is at least one? -/
def allItems (body : Meaning) (items : List Value) : Outcome Bool :=
  if items.isEmpty then pure false
  else do
    let failed ← anyItem false body items
    pure (!failed)

/-- The items of the collection that an argument gives. -/
def collection (op : Operator) (argument : Meaning) (data : Value) : Outcome (List Value) := do
  match ← argument data with
  | .arr items => pure items
  | v => .ofResult (op.refuse (.notAnArray v.kind))

end Scope

open Scope

/-- What a scoped operator means, from what its arguments mean. -/
def Operator.iterate (op : Operator) (arguments : List Meaning) : Meaning :=
  match op, arguments with
  | .map, [source, body] => fun data => do
    pure (.arr (← mapItems body (← collection op source data)))
  | .filter, [source, body] => fun data => do
    pure (.arr (← filterItems body (← collection op source data)))
  | .reduce, [source, body, initial] => fun data => do
    let items ← collection op source data
    reduceItems body (← initial data) items
  | .all, [source, body] => fun data => do
    pure (.bool (← allItems body (← collection op source data)))
  | .some, [source, body] => fun data => do
    pure (.bool (← anyItem true body (← collection op source data)))
  | .none, [source, body] => fun data => do
    let found ← anyItem true body (← collection op source data)
    pure (.bool (!found))
  | op, _ => fun _ =>
    if op.strategy = .scoped then
      .ofResult (op.refuse (.operandCount "a collection and a body"))
    else .ofResult (op.refuse (.wrongStrategy .scoped))

end RuleLogic
