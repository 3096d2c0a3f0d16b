import ArithCircuit.Circuit.Reachable
import ArithCircuit.Log
import Std.Data.HashMap

set_option autoImplicit false

namespace ArithCircuit

-- Nodes are taken in ascending order. Over the representatives of its children, a node equals an
-- earlier representative exactly if both are the same gate, up to the order of the operands.
structure Merger where
  canonical : Std.HashMap Nat Nat
  representatives : Std.HashMap Node Nat

namespace Merger

def empty : Merger := ⟨∅, ∅⟩

def represent (id : Nat) (old rebuilt : Node) : StateT Merger Build Nat := do
  match (← get).representatives[rebuilt.sorted]? with
  | some representative => return representative
  | none =>
    let representative ← if rebuilt = old then pure id else (Build.append rebuilt : Build Nat)
    modify fun merger =>
      { merger with representatives := merger.representatives.insert rebuilt.sorted representative }
    return representative

def mergeNode (id : Nat) : StateT Merger Build Unit := do
  let canonical := (← get).canonical
  if canonical.contains id then return
  let old ← Build.node id
  let rebuilt ← old.mapChildren? fun child => canonical[child]?
  let representative ← represent id old rebuilt
  modify fun merger => { merger with canonical := merger.canonical.insert id representative }

def merge (root : Nat) : StateT Merger Build Nat := do
  let circuit ← getThe Circuit
  let ids ← circuit.reachable? [root]
  ids.forM mergeNode
  ((← get).canonical[root]? : Option Nat)

end Merger

namespace Build

def gateCount (roots : List Nat) : Build Nat := do
  let circuit ← get
  circuit.gateCount? roots .all

def mergeAll (roots : List Nat) : StateT Log Build (List Nat) := do
  let logged := (← get).admits .debug
  let before ← if logged then gateCount roots else pure 0
  let (merged, _) ← (roots.mapM Merger.merge).run .empty
  if logged then
    let after ← gateCount merged
    modify fun log => log.record (.merged roots.length before after)
  return merged

end Build

end ArithCircuit
