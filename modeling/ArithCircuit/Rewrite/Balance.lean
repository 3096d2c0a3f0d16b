import ArithCircuit.Log
import ArithCircuit.Rewrite.Chain
import ArithCircuit.Pairing
import ArithCircuit.Rewrite.Rewriter

set_option autoImplicit false

namespace ArithCircuit

def balancedDepth (depths : List Nat) : Nat :=
  let layers : Id (Option Nat) := joinBalanced (fun x y => max x y + 1) (depths.mergeSort (· ≤ ·))
  layers.run.getD 0

def Build.depth (id : Nat) : StateT DepthTable Build Nat := fun table => do
  let circuit ← get
  DepthTable.depth circuit id table

-- Factors of equal depth stay in the order given.
def Build.balancedProduct (factors : List Nat) : StateT DepthTable Build Nat := do
  let keyed ← factors.mapM fun id => return (← depth id, id)
  let sorted := (keyed.mergeSort fun x y => x.1 ≤ y.1).map (·.2)
  match ← (joinBalanced (fun left right => append (.product left right)) sorted : Build _) with
  | some product => return product
  | none => constant 1

structure BalancerMemory where
  depths : DepthTable
  fanOut : FanOut
  log : Log

abbrev Balancer := Rewriter BalancerMemory

namespace Balancer

def fresh (log : Log) : Balancer := Rewriter.fresh ⟨.empty, .empty, log⟩

def withDepths {α : Type} (step : StateT DepthTable Build α) : StateT BalancerMemory Build α :=
  fun memory => do
    let (result, depths) ← step memory.depths
    return (result, { memory with depths })

def record (event : Event) : StateT BalancerMemory Build Unit :=
  modify fun memory => { memory with log := memory.log.record event }

-- A product depends on its factors, not on the products inside its chain.
def dependencies (circuit : Circuit) (fanOut : FanOut) (id : Nat) : List Nat :=
  match (circuit.node? id).bind (·.operands? .mul) with
  | some _ => (fanOut.factors? circuit id).getD []
  | none => circuit.children id

def rebalance (forms : Forms) (id : Nat) : StateT BalancerMemory Build Nat := do
  let fanOut := (← get).fanOut
  let circuit ← getThe Circuit
  let factors ← fanOut.factors? circuit id
  let operands ← factors.mapM fun factor => (forms[factor]? : Option Nat)
  let old ← withDepths (Build.depth id)
  let new := balancedDepth (← withDepths (operands.mapM Build.depth))
  if new < old then
    record (.rebalanced id operands.length old new)
    withDepths (Build.balancedProduct operands)
  else
    record (.kept id operands.length old)
    return id

def rebuild (forms : Forms) (id : Nat) : StateT BalancerMemory Build Nat := do
  let node ← Build.node id
  let form ←
    if (node.operands? .mul).isSome then rebalance forms id
    else Build.relinked forms id
  modify fun memory => { memory with fanOut := memory.fanOut.inherit id form }
  return form

def countUses (root : Nat) : StateT BalancerMemory Build Unit := fun memory => do
  let circuit ← get
  let fanOut ← memory.fanOut.count? circuit root
  return ((), { memory with fanOut })

def reduce (root : Nat) : StateT Balancer Build Nat := do
  Rewriter.inMemory (countUses root)
  let circuit ← getThe Circuit
  let form ← Rewriter.run (dependencies circuit (← get).memory.fanOut) rebuild root
  Rewriter.inMemory do
    let oldDepth ← withDepths (Build.depth root)
    let newDepth ← withDepths (Build.depth form)
    record (.reduced root oldDepth form newDepth)
  return form

def product (factors : List Nat) : StateT Balancer Build Nat :=
  Rewriter.inMemory (withDepths (Build.balancedProduct factors))

end Balancer

end ArithCircuit
