import ArithCircuit.Node

set_option autoImplicit false

namespace ArithCircuit

inductive Error where
  | missingInput (name : String)
  | lengthMismatch (left right : Nat)
  | emptyOperand
  | notPowerOfTwo (length : Nat)
  | indexOutOfRange (index length : Nat)
  | forwardReference (node child : Nat)
deriving DecidableEq

def Error.message : Error → String
  | missingInput name => s!"input `{name}` not found in input map"
  | lengthMismatch left right => s!"operand lengths differ: {left} != {right}"
  | emptyOperand => "operand has length zero"
  | notPowerOfTwo length => s!"length {length} is not a power of two"
  | indexOutOfRange index length => s!"index {index} out of range for {length} elements"
  | forwardReference node child =>
    s!"node {Node.label node} refers to {Node.label child}, which is not an earlier node"

-- Misuse, after which the caller cannot go on.
inductive Fault where
  | noSuchNode
  | differentCircuits
  | logOfZero
deriving DecidableEq

def Fault.message? : Fault → Option String
  | noSuchNode => none
  | differentCircuits => some "operands belong to different circuits"
  | logOfZero => some "log2 of zero"

end ArithCircuit
