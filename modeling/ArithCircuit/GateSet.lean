import ArithCircuit.Node

set_option autoImplicit false

namespace ArithCircuit

def GateKind.index : GateKind → Nat
  | .binary .add => 0
  | .binary .mul => 1
  | .shift .left => 2
  | .shift .right => 3

def GateKind.mask (kind : GateKind) : Nat := 1 <<< kind.index

structure GateSet where
  contains : GateKind → Bool

namespace GateSet

def empty : GateSet := ⟨fun _ => false⟩

def all : GateSet := ⟨fun _ => true⟩

def single (kind : GateKind) : GateSet := ⟨fun other => decide (other = kind)⟩

def union (left right : GateSet) : GateSet :=
  ⟨fun kind => left.contains kind || right.contains kind⟩

def arithmetic : GateSet := (single (.binary .add)).union (single (.binary .mul))

def shifts : GateSet := (single (.shift .left)).union (single (.shift .right))

def ofMask (mask : Nat) : GateSet := ⟨fun kind => mask.testBit kind.index⟩

def admits (set : GateSet) (node : Node) : Bool := node.kind?.any set.contains

end GateSet

end ArithCircuit
