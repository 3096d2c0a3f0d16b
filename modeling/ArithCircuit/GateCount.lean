import ArithCircuit.Circuit.Reachable
import ArithCircuit.Depth
import ArithCircuit.GateSet

set_option autoImplicit false

namespace ArithCircuit

namespace Circuit

def gateCount? (circuit : Circuit) (roots : List Nat) (kinds : GateSet) : Option Nat := do
  let ids ← circuit.reachable? roots
  return ids.countP fun id => (circuit.node? id).any kinds.admits

end Circuit

structure Stats where
  depth : Nat
  gates : Nat
  multiplications : Nat
deriving DecidableEq

namespace Stats

def text (stats : Stats) : String :=
  s!"depth {stats.depth}, {stats.gates} gates ({stats.multiplications} mul)"

def of? (circuit : Circuit) (roots : List Nat) : Option Stats := do
  let depth ← circuit.maxDepth? roots
  let gates ← circuit.gateCount? roots .arithmetic
  let multiplications ← circuit.gateCount? roots (.single (.binary .mul))
  return { depth, gates, multiplications }

end Stats

end ArithCircuit
