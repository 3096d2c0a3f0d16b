import ArithCircuit.Circuit.Basic
import Std.Data.HashMap

set_option autoImplicit false

namespace ArithCircuit

-- Associativity is not looked through. The verdicts on unordered pairs never change while the circuit
-- grows.
structure EqualityTable where
  verdicts : Std.HashMap (Nat × Nat) Bool
  comparisons : Nat

namespace EqualityTable

def empty : EqualityTable := ⟨∅, 0⟩

def key (left right : Nat) : Nat × Nat := (min left right, max left right)

def verdict? (table : EqualityTable) (left right : Nat) : Option Bool :=
  table.verdicts[key left right]?

def enter (table : EqualityTable) (left right : Nat) (verdict : Bool) : EqualityTable :=
  ⟨table.verdicts.insert (key left right) verdict, table.comparisons + 1⟩

-- The crossed pairing is tried only if the straight one fails.
def examine (same : Nat → Nat → StateM EqualityTable Bool) :
    Node → Node → StateM EqualityTable Bool
  | .constant v, .constant w => return v == w
  | .input m, .input n => return m == n
  | .binary op a b, .binary op' a' b' => do
    if op = op' then
      if ← same a a' <&&> same b b' then return true
      same a b' <&&> same b a'
    else return false
  | .shift direction a amount, .shift direction' a' amount' => do
    if direction = direction' ∧ amount = amount' then same a a' else return false
  | _, _ => return false

def compareBelow (circuit : Circuit) : (bound : Nat) → Nat → Nat → StateM EqualityTable Bool
  | 0, _, _ => return false
  | bound + 1, left, right => do
    if left = right then return true
    if let some verdict := (← get).verdict? left right then return verdict
    match circuit.node? left, circuit.node? right with
    | some first, some second =>
      let verdict ← examine (compareBelow circuit bound) first second
      modify fun table => table.enter left right verdict
      return verdict
    | _, _ => return false

-- A node equals itself even if the circuit does not have it; two different nodes must both be
-- in range.
def equal (circuit : Circuit) (left right : Nat) : StateT EqualityTable Option Bool := fun table =>
  if left = right ∨ circuit.contains left ∧ circuit.contains right then
    some (compareBelow circuit (max left right + 1) left right table)
  else none

end EqualityTable

def Circuit.equal? (circuit : Circuit) (left right : Nat) : Option Bool :=
  (EqualityTable.equal circuit left right).run' .empty

end ArithCircuit
