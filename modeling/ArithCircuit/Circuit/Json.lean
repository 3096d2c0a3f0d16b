import ArithCircuit.Circuit.Validation
import ArithCircuit.Json.Reader
import ArithCircuit.Json.Writer

set_option autoImplicit false

namespace ArithCircuit

def Json.word? : Json → Option Nat
  | .natural value => if value < UInt64.size then some value else none
  | _ => none

namespace Node

def toJson : Node → Json
  | constant value => .object [("Constant", .natural value.toNat)]
  | input name => .object [("Input", .string name)]
  | binary .add left right => .object [("Add", .array [.natural left, .natural right])]
  | binary .mul left right => .object [("Mul", .array [.natural left, .natural right])]
  | shift .left operand amount =>
    .object [("ShiftLeft", .array [.natural operand, .natural amount.toNat])]
  | shift .right operand amount =>
    .object [("ShiftRight", .array [.natural operand, .natural amount.toNat])]

def wordPair? : Json → Option (Nat × Nat)
  | .array [first, second] => do return (← first.word?, ← second.word?)
  | _ => none

def ofJson? : Json → Option Node
  | .object [(kind, argument)] =>
    match kind with
    | "Constant" => do return constant (.ofNat (← argument.word?))
    | "Input" =>
      match argument with
      | .string name => some (input name)
      | _ => none
    | "Add" => do
      let (left, right) ← wordPair? argument
      return .sum left right
    | "Mul" => do
      let (left, right) ← wordPair? argument
      return .product left right
    | "ShiftLeft" => do
      let (operand, amount) ← wordPair? argument
      return .shift .left operand (.ofNat amount)
    | "ShiftRight" => do
      let (operand, amount) ← wordPair? argument
      return .shift .right operand (.ofNat amount)
    | _ => none
  | _ => none

-- All nodes are read before any reference is checked.
def listOfJson? : Json → Option (List Node)
  | .array items => items.mapM ofJson?
  | _ => none

end Node

namespace Circuit

def toJson (circuit : Circuit) : Json := .array (circuit.toNodes.map Node.toJson)

def jsonText (circuit : Circuit) : String := circuit.toJson.text

inductive LoadError where
  | malformed
  | refused (cause : Error)
deriving DecidableEq

def ofJson (json : Json) : Except LoadError Circuit :=
  match Node.listOfJson? json with
  | none => .error .malformed
  | some nodes => (ofNodes nodes).mapError .refused

end Circuit

end ArithCircuit
