set_option autoImplicit false

namespace ArithCircuit

inductive BinaryOp where
  | add
  | mul
deriving DecidableEq, Hashable

inductive Direction where
  | left
  | right
deriving DecidableEq, Hashable

inductive GateKind where
  | binary (op : BinaryOp)
  | shift (direction : Direction)
deriving DecidableEq

inductive Node where
  | constant (value : UInt64)
  | input (name : String)
  | binary (op : BinaryOp) (left right : Nat)
  | shift (direction : Direction) (operand : Nat) (amount : UInt64)
deriving DecidableEq, Hashable

namespace Node

abbrev sum (left right : Nat) : Node := .binary .add left right

abbrev product (left right : Nat) : Node := .binary .mul left right

def kind? : Node → Option GateKind
  | constant _ | input _ => none
  | binary op _ _ => some (.binary op)
  | shift direction _ _ => some (.shift direction)

def isTerminal (node : Node) : Bool := node.kind?.isNone

def isConstant (value : UInt64) : Node → Bool
  | constant v => v == value
  | _ => false

def operands? (op : BinaryOp) : Node → Option (Nat × Nat)
  | binary o left right => if o = op then some (left, right) else none
  | _ => none

def children : Node → List Nat
  | constant _ | input _ => []
  | binary _ left right => [left, right]
  | shift _ operand _ => [operand]

def mapChildren? (f : Nat → Option Nat) : Node → Option Node
  | constant value => some (constant value)
  | input name => some (input name)
  | binary op left right => do return binary op (← f left) (← f right)
  | shift direction operand amount => do return shift direction (← f operand) amount

def sorted : Node → Node
  | binary op left right => binary op (min left right) (max left right)
  | node => node

def label (id : Nat) : String := s!"NodeId({id})"

end Node

end ArithCircuit
