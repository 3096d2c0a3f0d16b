import ArithCircuit.Circuit.Basic
import ArithCircuit.Error

set_option autoImplicit false

namespace ArithCircuit

structure Wire where
  circuit : Nat
  node : Nat
deriving DecidableEq

structure Workspace where
  circuits : Array Circuit
deriving DecidableEq

abbrev Wiring := StateT Workspace (Except Fault)

-- Wiring that can refuse its operands. Gates built before a refusal stay.
abbrev Gadget := ExceptT Error Wiring

namespace Workspace

def start : Workspace := ⟨#[.empty]⟩

def circuit? (workspace : Workspace) (index : Nat) : Option Circuit := workspace.circuits[index]?

-- A circuit, and the workspace with an empty circuit in its place, so that the circuit is not
-- held twice while it grows.
@[noinline]
def take? (workspace : Workspace) (index : Nat) : Option (Circuit × Workspace) :=
  (workspace.circuit? index).map fun circuit =>
    (circuit, ⟨workspace.circuits.setIfInBounds index .empty⟩)

def put (workspace : Workspace) (index : Nat) (circuit : Circuit) : Workspace :=
  ⟨workspace.circuits.setIfInBounds index circuit⟩

theorem put_of_take? {workspace others : Workspace} {index : Nat} {circuit : Circuit}
    (taken : workspace.take? index = some (circuit, others)) (grown : Circuit) :
    others.put index grown = workspace.put index grown := by
  obtain ⟨_, _, same⟩ := Option.map_eq_some_iff.mp taken
  cases same
  simp [put]

end Workspace

namespace Wiring

def build {α : Type} (index : Nat) (step : Build α) : Wiring α := fun workspace =>
  match workspace.take? index with
  | none => .error .noSuchNode
  | some (circuit, others) =>
    match step circuit with
    | none => .error .noSuchNode
    | some (result, grown) => .ok (result, others.put index grown)

def wire (index : Nat) (step : Build Nat) : Wiring Wire := do
  return ⟨index, ← build index step⟩

def addCircuit (circuit : Circuit) : Wiring Nat := fun workspace =>
  .ok (workspace.circuits.size, { workspace with circuits := workspace.circuits.push circuit })

def constant (index : Nat) (value : UInt64) : Wiring Wire := wire index (.constant value)

-- The circuits are compared before the nodes are looked up.
def binary (op : BinaryOp) (left right : Wire) : Wiring Wire := do
  if left.circuit = right.circuit then wire left.circuit (.binary op left.node right.node)
  else throw .differentCircuits

def add : Wire → Wire → Wiring Wire := binary .add

def mul : Wire → Wire → Wiring Wire := binary .mul

def shift (direction : Direction) (operand : Wire) (amount : UInt64) : Wiring Wire :=
  wire operand.circuit (.shift direction operand.node amount)

end Wiring

namespace Wire

def lift (wire : Wire) (value : UInt64) : Wiring Wire := Wiring.constant wire.circuit value

def zero (wire : Wire) : Wiring Wire := wire.lift 0

def one (wire : Wire) : Wiring Wire := wire.lift 1

end Wire

end ArithCircuit
