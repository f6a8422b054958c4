import RuleLogic.Registry

/-!
# Shared registries

Evaluators that were copied from one another share one registry, and it is counted how many do.  An
evaluator that registers an operator writes into its registry if no other has it; otherwise it gives
up its share and goes on with a copy of its own.  In which order a registry lists its operators is
left open: each write may put all of them anywhere.

    h.own a = (h, a)    when the registry at a has one owner, and else the address of a new copy
-/

namespace RuleLogic

/-- Where registries put their operators.  It may depend on anything, so on the number of writes
before. -/
structure Layout where
  arrange : Nat → List CustomOperator → List CustomOperator
  perm : ∀ writes fs, (arrange writes fs).Perm fs

/-- Each operator in front of those that were there. -/
def Layout.newestFirst : Layout := ⟨fun _ fs => fs, fun _ fs => .refl fs⟩

/-- Registries at addresses, and how many own each of them. -/
structure Heap where
  registry : Nat → Registry
  owners : Nat → Nat
  /-- The first address that has never been used. -/
  next : Nat
  /-- How often operators have been written. -/
  writes : Nat

namespace Heap

def empty : Heap := ⟨fun _ => .empty, fun _ => 0, 0, 0⟩

/-- The function with another value at one address. -/
def update {α : Type} (f : Nat → α) (a : Nat) (x : α) : Nat → α := fun b => if b = a then x else f b

/-- One more owner of the registry at an address. -/
def share (h : Heap) (a : Nat) : Heap := { h with owners := update h.owners a (h.owners a + 1) }

/-- One owner less. -/
def release (h : Heap) (a : Nat) : Heap := { h with owners := update h.owners a (h.owners a - 1) }

/-- A registry with one owner at the next address. -/
def allocate (h : Heap) (r : Registry) : Heap :=
  { h with
    registry := update h.registry h.next r
    owners := update h.owners h.next 1
    next := h.next + 1 }

/-- For an owner of the registry at an address, the address of one that it shares with nobody. -/
def own (h : Heap) (a : Nat) : Heap × Nat :=
  if h.owners a = 1 then (h, a) else ((h.release a).allocate (h.registry a), h.next)

/-- Write an operator into the registry at an address. -/
def insert (h : Heap) (layout : Layout) (a : Nat) (f : CustomOperator) : Heap :=
  { h with
    registry :=
      update h.registry a ⟨layout.arrange h.writes ((h.registry a).register f).operators⟩
    writes := h.writes + 1 }

/-- Register an operator for an owner of the registry at an address; it may go on at another. -/
def register (h : Heap) (layout : Layout) (a : Nat) (f : CustomOperator) : Heap × Nat :=
  let (owned, b) := h.own a
  (owned.insert layout b f, b)

/-- A new registry for one owner, with operators registered one after the other. -/
def create (h : Heap) (layout : Layout) (fs : List CustomOperator) : Heap × Nat :=
  fs.foldl (fun (h, a) f => h.register layout a f) (h.allocate .empty, h.next)

end Heap

end RuleLogic
