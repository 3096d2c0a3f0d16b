import ArithCircuit.Bits
import ArithCircuit.Proofs.Bits
import Mathlib.Data.Int.Bitwise
import Mathlib.Tactic.Ring

set_option autoImplicit false

namespace ArithCircuit

namespace IntegerType

variable {type : IntegerType} {value : Int}

def Holds (type : IntegerType) (value : Int) : Prop :=
  if type.signed then -2 ^ type.width ≤ 2 * value ∧ 2 * value < 2 ^ type.width
  else 0 ≤ value ∧ value < 2 ^ type.width

end IntegerType

namespace Bits

variable {width : Nat}

variable {type : IntegerType} {value : Int}

end Bits

end ArithCircuit
