import ArithCircuit.Circuit.Basic
import Std.Data.HashSet

set_option autoImplicit false

namespace ArithCircuit

namespace Circuit

-- Children stand before their parents, so the sweep meets every node after all of its parents.
def sweep (circuit : Circuit) :
    (bound : Nat) → (marked : Std.HashSet Nat) → (found : List Nat) → List Nat
  | 0, _, found => found
  | id + 1, marked, found =>
    if marked.contains id then
      circuit.sweep id (marked.insertMany (circuit.children id)) (id :: found)
    else circuit.sweep id marked found

def reachable? (circuit : Circuit) (roots : List Nat) : Option (List Nat) :=
  if roots.all circuit.contains then
    some (circuit.sweep circuit.size (Std.HashSet.ofList roots) [])
  else none

end Circuit

end ArithCircuit
