import ArithCircuit.Circuit.Basic
import ArithCircuit.Domain
import ArithCircuit.Error

set_option autoImplicit false

namespace ArithCircuit

inductive Formula where
  | constant (value : UInt64)
  | input (name : String)
  | binary (op : BinaryOp) (left right : Formula)
  | shift (direction : Direction) (operand : Formula) (amount : UInt64)
deriving DecidableEq

namespace Formula

-- The right operand goes first, so it decides which of two unbound inputs is reported.
def eval {T : Type} (domain : Domain T) (inputs : String → Option T) : Formula → Except Error T
  | constant value => .ok (domain.lift value)
  | input name =>
    match inputs name with
    | some value => .ok value
    | none => .error (.missingInput name)
  | binary op left right => do
    let y ← right.eval domain inputs
    let x ← left.eval domain inputs
    return domain.binary op x y
  | shift direction operand amount => do
    let x ← operand.eval domain inputs
    return domain.shift direction x amount

def depth : Formula → Nat
  | constant _ | input _ => 0
  | binary .add left right => max left.depth right.depth
  | binary .mul left right => max left.depth right.depth + 1
  | shift _ operand _ => operand.depth

end Formula

namespace Circuit

def Extends (old new : Circuit) : Prop :=
  ∀ id node, old.node? id = some node → new.node? id = some node

theorem extends_refl (circuit : Circuit) : circuit.Extends circuit := fun _ _ found => found

theorem extends_trans {first second third : Circuit} (start : first.Extends second)
    (next : second.Extends third) : first.Extends third :=
  fun id node found => next id node (start id node found)

theorem lt_size_of_node? {circuit : Circuit} {id : Nat} {node : Node}
    (found : circuit.node? id = some node) : id < circuit.size := by
  obtain ⟨bound, _⟩ := Array.getElem?_eq_some_iff.mp found
  exact bound

theorem extends_push (circuit : Circuit) (node : Node) (bound) :
    circuit.Extends (circuit.push node bound) := by
  intro id found_node found
  have older := lt_size_of_node? found
  rw [node?_push, if_neg (by omega)]
  exact found

theorem node?_of_lt_size {circuit : Circuit} {id : Nat} (bound : id < circuit.size) :
    ∃ node, circuit.node? id = some node :=
  ⟨circuit.nodes[id], Array.getElem?_eq_getElem bound⟩

theorem child_lt_of_node? {circuit : Circuit} {id child : Nat} {node : Node}
    (found : circuit.node? id = some node) (member : child ∈ node.children) : child < id := by
  apply circuit.lt_of_mem_children
  simpa [children, found] using member

def formulaBelow (circuit : Circuit) : (bound : Nat) → Nat → Option Formula
  | 0, _ => none
  | bound + 1, id =>
    match circuit.node? id with
    | none => none
    | some (.constant value) => some (.constant value)
    | some (.input name) => some (.input name)
    | some (.binary op left right) => do
      return .binary op (← circuit.formulaBelow bound left) (← circuit.formulaBelow bound right)
    | some (.shift direction operand amount) => do
      return .shift direction (← circuit.formulaBelow bound operand) amount

def formula? (circuit : Circuit) (root : Nat) : Option Formula :=
  circuit.formulaBelow (root + 1) root

theorem formulaBelow_of_extends {old new : Circuit} (extended : old.Extends new) {bound id : Nat}
    (inRange : id < old.size) : new.formulaBelow bound id = old.formulaBelow bound id := by
  induction bound generalizing id with
  | zero => rfl
  | succ bound ih =>
    obtain ⟨node, found⟩ := node?_of_lt_size inRange
    have child_in_range : ∀ child ∈ node.children, child < old.size := by
      intro child member
      have := child_lt_of_node? found member
      omega
    unfold formulaBelow
    rw [found, extended id node found]
    cases node with
    | constant value => rfl
    | input name => rfl
    | binary op left right =>
      have left_same := ih (child_in_range left (by simp [Node.children]))
      have right_same := ih (child_in_range right (by simp [Node.children]))
      simp only [left_same, right_same]
    | shift direction operand amount =>
      have same := ih (child_in_range operand (by simp [Node.children]))
      simp only [same]

theorem formula?_of_extends {old new : Circuit} (extended : old.Extends new) {id : Nat}
    (inRange : id < old.size) : new.formula? id = old.formula? id :=
  formulaBelow_of_extends extended inRange

theorem formulaBelow_eq_formula? (circuit : Circuit) {bound id : Nat} (above : id < bound) :
    circuit.formulaBelow bound id = circuit.formula? id := by
  induction id using Nat.strongRecOn generalizing bound with
  | ind id ih =>
    obtain ⟨bound, rfl⟩ : ∃ smaller, bound = smaller + 1 := ⟨bound - 1, by omega⟩
    unfold formula? formulaBelow
    cases found : circuit.node? id with
    | none => rfl
    | some node =>
      have same : ∀ child ∈ node.children,
          circuit.formulaBelow bound child = circuit.formulaBelow id child := by
        intro child member
        have earlier := child_lt_of_node? found member
        rw [ih child earlier (by omega), ih child earlier earlier]
      cases node with
      | constant value => rfl
      | input name => rfl
      | binary op left right =>
        have left_same := same left (by simp [Node.children])
        have right_same := same right (by simp [Node.children])
        simp only [left_same, right_same]
      | shift direction operand amount =>
        have operand_same := same operand (by simp [Node.children])
        simp only [operand_same]

theorem formula?_of_lt_size (circuit : Circuit) {id : Nat} (inRange : id < circuit.size) :
    ∃ formula, circuit.formula? id = some formula := by
  induction id using Nat.strongRecOn with
  | ind id ih =>
    obtain ⟨node, found⟩ := node?_of_lt_size inRange
    have known : ∀ child ∈ node.children,
        ∃ formula, circuit.formulaBelow id child = some formula := by
      intro child member
      have earlier := child_lt_of_node? found member
      rw [formulaBelow_eq_formula? circuit earlier]
      exact ih child earlier (by omega)
    unfold formula? formulaBelow
    rw [found]
    cases node with
    | constant value => exact ⟨_, rfl⟩
    | input name => exact ⟨_, rfl⟩
    | binary op left right =>
      obtain ⟨_, left_known⟩ := known left (by simp [Node.children])
      obtain ⟨_, right_known⟩ := known right (by simp [Node.children])
      simp [left_known, right_known]
    | shift direction operand amount =>
      obtain ⟨_, operand_known⟩ := known operand (by simp [Node.children])
      simp [operand_known]

end Circuit

end ArithCircuit
