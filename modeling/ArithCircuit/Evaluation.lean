import ArithCircuit.Circuit.Basic
import ArithCircuit.Domain
import ArithCircuit.Error
import ArithCircuit.Schedule
import Std.Data.HashMap

set_option autoImplicit false

namespace ArithCircuit

-- The values stay also when an unbound input ends a call.
structure Evaluator (T : Type) where
  values : Std.HashMap Nat T
  lifted : List Nat

namespace Evaluator

variable {T : Type}

def empty : Evaluator T := ⟨∅, []⟩

def lifts (evaluator : Evaluator T) : Nat := evaluator.lifted.length

def enter (evaluator : Evaluator T) (id : Nat) (value : T) : Evaluator T :=
  { evaluator with values := evaluator.values.insert id value }

-- An evaluation ends with a value, with an error, or with no result when the circuit lacks a
-- node; the values found on the way are kept in the first two cases.
abbrev Run (T : Type) := ExceptT Error (StateT (Evaluator T) Option)

def compute (domain : Domain T) (inputs : String → Option T) (circuit : Circuit) (id : Nat) :
    Run T Unit := do
  let values := (← get).values
  match ← (circuit.node? id : Option Node) with
  | .constant value =>
    modify fun evaluator =>
      { evaluator.enter id (domain.lift value) with lifted := id :: evaluator.lifted }
  | .input name =>
    match inputs name with
    | some value => modify (·.enter id value)
    | none => throw (.missingInput name)
  | .binary op left right =>
    let x ← (values[left]? : Option T)
    let y ← (values[right]? : Option T)
    modify (·.enter id (domain.binary op x y))
  | .shift direction operand amount =>
    let x ← (values[operand]? : Option T)
    modify (·.enter id (domain.shift direction x amount))

def eval (domain : Domain T) (inputs : String → Option T) (circuit : Circuit) (root : Nat) :
    Run T T := do
  let known := (← get).values
  (schedule circuit.children known.contains root).forM (compute domain inputs circuit)
  ((← get).values[root]? : Option T)

def evalAll (domain : Domain T) (inputs : String → Option T) (circuit : Circuit)
    (roots : List Nat) : Run T (List T) :=
  roots.mapM (eval domain inputs circuit)

end Evaluator

def Circuit.eval? {T : Type} (circuit : Circuit) (domain : Domain T) (inputs : String → Option T)
    (root : Nat) : Option (Except Error T) :=
  (Evaluator.eval domain inputs circuit root).run.run' .empty

end ArithCircuit
