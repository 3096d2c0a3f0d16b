import ArithCircuit.Equality
import ArithCircuit.Rewrite.Balance

set_option autoImplicit false

namespace ArithCircuit

structure FactorMatch where
  common : List Nat
  leftRest : List Nat
  rightRest : List Nat
deriving DecidableEq

section Matching

variable {m : Type → Type} [Monad m]

def removeEqual? (equal : Nat → Nat → m Bool) (factor : Nat) : List Nat → m (Option (List Nat))
  | [] => return none
  | candidate :: others => do
    if ← equal factor candidate then return some others
    return (← removeEqual? equal factor others).map (candidate :: ·)

def matchFactors (equal : Nat → Nat → m Bool) : (left right : List Nat) → m FactorMatch
  | [], right => return ⟨[], [], right⟩
  | factor :: left, right => do
    match ← removeEqual? equal factor right with
    | some remaining =>
      let rest ← matchFactors equal left remaining
      return { rest with common := factor :: rest.common }
    | none =>
      let rest ← matchFactors equal left right
      return { rest with leftRest := factor :: rest.leftRest }

end Matching

structure FactorizerMemory where
  equality : EqualityTable
  depths : DepthTable
  fanOut : FanOut
  log : Log

abbrev Factorizer := Rewriter FactorizerMemory

namespace Factorizer

def fresh (log : Log) : Factorizer := Rewriter.fresh ⟨.empty, .empty, .empty, log⟩

def balancedProduct (factors : List Nat) : StateT FactorizerMemory Build Nat := fun memory => do
  let (product, depths) ← Build.balancedProduct factors memory.depths
  return (product, { memory with depths })

def record (event : Event) : StateT FactorizerMemory Build Unit :=
  modify fun memory => { memory with log := memory.log.record event }

def matchProducts (left right : Nat) : StateT FactorizerMemory Build FactorMatch := fun memory => do
  let circuit ← get
  let leftFactors ← memory.fanOut.factors? circuit left
  let rightFactors ← memory.fanOut.factors? circuit right
  let (found, equality) ←
    matchFactors (EqualityTable.equal circuit) leftFactors rightFactors memory.equality
  return (found, { memory with equality })

def factored? (left right : Nat) : StateT FactorizerMemory Build (Option Nat) := do
  let found ← matchProducts left right
  if found.common.isEmpty then return none
  record (.factored found.common.length left right)
  let leftRest ← balancedProduct found.leftRest
  let rightRest ← balancedProduct found.rightRest
  let common ← balancedProduct found.common
  let sum ← Build.add leftRest rightRest
  return some (← Build.mul sum common)

def factoredSum? (forms : Forms) (id : Nat) : StateT FactorizerMemory Build (Option Nat) := do
  match (← Build.node id).operands? .add with
  | none => return none
  | some (left, right) =>
    let left ← (forms[left]? : Option Nat)
    let right ← (forms[right]? : Option Nat)
    let first ← Build.node left
    let second ← Build.node right
    if (first.operands? .mul).isSome && (second.operands? .mul).isSome then factored? left right
    else return none

def rebuild (forms : Forms) (id : Nat) : StateT FactorizerMemory Build Nat := do
  let form ←
    match ← factoredSum? forms id with
    | some form => pure form
    | none => Build.relinked forms id
  modify fun memory => { memory with fanOut := memory.fanOut.inherit id form }
  return form

def countUses (root : Nat) : StateT FactorizerMemory Build Unit := fun memory => do
  let circuit ← get
  let fanOut ← memory.fanOut.count? circuit root
  return ((), { memory with fanOut })

def simplify (root : Nat) : StateT Factorizer Build Nat := do
  Rewriter.inMemory (countUses root)
  let circuit ← getThe Circuit
  let form ← Rewriter.run circuit.children rebuild root
  Rewriter.inMemory (record (.simplified root form))
  return form

end Factorizer

end ArithCircuit
