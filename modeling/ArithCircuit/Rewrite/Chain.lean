import ArithCircuit.Rewrite.FanOut

set_option autoImplicit false

namespace ArithCircuit

namespace Circuit

-- A node for which `atomic` holds is an operand even if it could be split.
def chainBelow (circuit : Circuit) (op : BinaryOp) (atomic : Nat → Bool) :
    (bound : Nat) → (id : Nat) → (rest : List Nat) → List Nat
  | 0, id, rest => id :: rest
  | bound + 1, id, rest =>
    if atomic id then id :: rest
    else
      match (circuit.node? id).bind (·.operands? op) with
      | some (left, right) =>
        circuit.chainBelow op atomic bound left (circuit.chainBelow op atomic bound right rest)
      | none => id :: rest

-- The chain operands of `root`, which is split even if it is atomic itself.
def chain? (circuit : Circuit) (op : BinaryOp) (atomic : Nat → Bool) (root : Nat) :
    Option (List Nat) := do
  let node ← circuit.node? root
  match node.operands? op with
  | some (left, right) =>
    return circuit.chainBelow op atomic root left (circuit.chainBelow op atomic root right [])
  | none => return [root]

def factors? (circuit : Circuit) (root : Nat) : Option (List Nat) :=
  circuit.chain? .mul (fun _ => false) root

def addends? (circuit : Circuit) (root : Nat) : Option (List Nat) :=
  circuit.chain? .add (fun _ => false) root

end Circuit

def FanOut.factors? (fanOut : FanOut) (circuit : Circuit) (root : Nat) : Option (List Nat) :=
  circuit.chain? .mul fanOut.isShared root

end ArithCircuit
