import ArithCircuit.Circuit.Basic

set_option autoImplicit false

namespace ArithCircuit

def BinaryOp.sign : BinaryOp → String
  | add => "+"
  | mul => "*"

def Direction.sign : Direction → String
  | left => "<<"
  | right => ">>"

namespace Circuit

def renderBelow (circuit : Circuit) : (bound : Nat) → Nat → Option String
  | 0, _ => none
  | bound + 1, id => do
    match ← circuit.node? id with
    | .constant value => return toString value.toNat
    | .input name => return name
    | .binary op left right =>
      let leftText ← circuit.renderBelow bound left
      let rightText ← circuit.renderBelow bound right
      return s!"( {leftText} {op.sign} {rightText} )"
    | .shift direction operand amount =>
      let text ← circuit.renderBelow bound operand
      return s!"( {text} {direction.sign} {amount.toNat} )"

def render? (circuit : Circuit) (root : Nat) : Option String :=
  circuit.renderBelow (root + 1) root

end Circuit

end ArithCircuit
