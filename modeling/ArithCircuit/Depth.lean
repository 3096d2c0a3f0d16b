import ArithCircuit.Circuit.Basic
import ArithCircuit.Schedule
import Std.Data.HashMap

set_option autoImplicit false

namespace ArithCircuit

-- Nodes never change, so the depths in a table stay right while the circuit grows.
structure DepthTable where
  depths : Std.HashMap Nat Nat

namespace DepthTable

def empty : DepthTable := ⟨∅⟩

def gateDepth (node : Node) (below : List Nat) : Nat :=
  let deepest := below.foldl max 0
  if node.kind? = some (.binary .mul) then deepest + 1 else deepest

def enter (circuit : Circuit) (table : DepthTable) (id : Nat) : Option DepthTable := do
  let node ← circuit.node? id
  let below ← node.children.mapM fun child => table.depths[child]?
  return ⟨table.depths.insert id (gateDepth node below)⟩

def depth (circuit : Circuit) (root : Nat) : StateT DepthTable Option Nat := fun table => do
  let order := schedule circuit.children table.depths.contains root
  let table ← order.foldlM (enter circuit) table
  let result ← table.depths[root]?
  return (result, table)

end DepthTable

namespace Circuit

def depth? (circuit : Circuit) (root : Nat) : Option Nat :=
  (DepthTable.depth circuit root).run' .empty

def maxDepth? (circuit : Circuit) (roots : List Nat) : Option Nat := do
  let depths ← (roots.mapM (DepthTable.depth circuit)).run' .empty
  return depths.foldl max 0

end Circuit

end ArithCircuit
