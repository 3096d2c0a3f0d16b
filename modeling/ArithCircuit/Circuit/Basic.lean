import ArithCircuit.Node

set_option autoImplicit false

namespace ArithCircuit

structure Circuit where
  nodes : Array Node
  earlier : ∀ (id : Nat) (h : id < nodes.size), ∀ child ∈ nodes[id].children, child < id
deriving DecidableEq

namespace Circuit

def empty : Circuit := ⟨#[], fun _ h => absurd h (Nat.not_lt_zero _)⟩

instance : Inhabited Circuit := ⟨empty⟩

def size (circuit : Circuit) : Nat := circuit.nodes.size

def node? (circuit : Circuit) (id : Nat) : Option Node := circuit.nodes[id]?

def contains (circuit : Circuit) (id : Nat) : Bool := id < circuit.size

def children (circuit : Circuit) (id : Nat) : List Nat :=
  ((circuit.node? id).map Node.children).getD []

def push (circuit : Circuit) (node : Node) (bound : ∀ child ∈ node.children, child < circuit.size) :
    Circuit where
  nodes := circuit.nodes.push node
  earlier := by
    intro id h child member
    rw [Array.getElem_push] at member
    split at member
    · exact circuit.earlier id _ child member
    · have limit : id < circuit.nodes.size + 1 := by simpa using h
      have last : id = circuit.nodes.size := by omega
      exact last ▸ bound child member

theorem size_push (circuit : Circuit) (node : Node) (bound) :
    (circuit.push node bound).size = circuit.size + 1 := by
  simp [size, push]

theorem node?_push (circuit : Circuit) (node : Node) (bound) (id : Nat) :
    (circuit.push node bound).node? id =
      if id = circuit.size then some node else circuit.node? id := by
  exact Array.getElem?_push

theorem lt_of_mem_children (circuit : Circuit) {id child : Nat}
    (member : child ∈ circuit.children id) : child < id := by
  unfold children node? at member
  by_cases h : id < circuit.nodes.size
  · rw [Array.getElem?_eq_getElem h] at member
    exact circuit.earlier id h child member
  · rw [Array.getElem?_eq_none (Nat.le_of_not_lt h)] at member
    simp at member

end Circuit

-- A build step appends nodes and leaves the older ones as they are; it gives no result when it is
-- asked for a node that the circuit does not have.
abbrev Build := StateT Circuit Option

namespace Build

def node (id : Nat) : Build Node := do
  let circuit ← get
  circuit.node? id

def append (node : Node) : Build Nat := fun circuit =>
  if bound : ∀ child ∈ node.children, child < circuit.size then
    some (circuit.size, circuit.push node bound)
  else none

def constant (value : UInt64) : Build Nat := append (.constant value)

def input (name : String) : Build Nat := append (.input name)

def add (left right : Nat) : Build Nat := do
  if (← node left).isConstant 0 then return right
  append (.sum left right)

-- Zero on the left absorbs and one on the left is dropped; the right operand is not looked at.
def mul (left right : Nat) : Build Nat := do
  let first ← node left
  if first.isConstant 0 then return left
  if first.isConstant 1 then return right
  append (.product left right)

def binary : BinaryOp → Nat → Nat → Build Nat
  | .add => add
  | .mul => mul

def shift (direction : Direction) (operand : Nat) (amount : UInt64) : Build Nat :=
  append (.shift direction operand amount)

def inputs (name : String) (length : Nat) : Build (List Nat) :=
  (List.range length).mapM fun i => input s!"{name}{i}"

def inputRows (name : String) (rows width : Nat) : Build (List (List Nat)) :=
  (List.range rows).mapM fun i => inputs s!"{name}{i}" width

end Build

end ArithCircuit
