import ArithCircuit.Log
import ArithCircuit.Rewrite.Chain
import ArithCircuit.Rewrite.Rewriter

set_option autoImplicit false

namespace ArithCircuit

namespace Build

def sum : List Nat → Build Nat
  | [] => constant 0
  | first :: rest => rest.foldlM add first

def distributed? (root : Nat) : Build (Option Nat) := do
  match (← node root).operands? .mul with
  | none => return none
  | some (left, right) =>
    match (← node left).operands? .add with
    | some (x, y) =>
      let first ← mul x right
      let second ← mul y right
      return some (← add first second)
    | none =>
      match (← node right).operands? .add with
      | some (x, y) =>
        let first ← mul left x
        let second ← mul left y
        return some (← add first second)
      | none => return none

def scaled (factor term : Nat) : Build Nat := do
  let circuit ← get
  let addends ← circuit.addends? term
  sum (← addends.mapM (mul factor))

def crossProduct (left right : Nat) : Build Nat := do
  let circuit ← get
  let addends ← circuit.addends? left
  sum (← addends.mapM fun addend => scaled addend right)

end Build

abbrev Distributor := Rewriter Log

namespace Distributor

def fresh (log : Log) : Distributor := Rewriter.fresh log

def rebuild (forms : Forms) (id : Nat) : StateT Log Build Nat := do
  match (← Build.node id).operands? .mul with
  | none => Build.relinked forms id
  | some (left, right) =>
    let left ← (forms[left]? : Option Nat)
    let right ← (forms[right]? : Option Nat)
    let first ← Build.node left
    let second ← Build.node right
    if (first.operands? .add).isSome || (second.operands? .add).isSome then
      modify fun log => log.record (.distributing id)
      Build.crossProduct left right
    else Build.relinked forms id

def expand (root : Nat) : StateT Distributor Build Nat := do
  let circuit ← getThe Circuit
  let form ← Rewriter.run circuit.children rebuild root
  Rewriter.inMemory (modify fun log => log.record (.expanded root form))
  return form

end Distributor

end ArithCircuit
