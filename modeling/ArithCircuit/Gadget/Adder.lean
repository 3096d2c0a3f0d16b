import ArithCircuit.Gadget.Logic

set_option autoImplicit false

namespace ArithCircuit

namespace Wiring

def halfAdd (x y : Wire) : Wiring (Wire × Wire) := do
  let sum ← add x y
  let carry ← mul x y
  return (sum, carry)

-- The carry adds up the products of two bits each; the two products of all three bits cancel each
-- other.
def fullAdd (x y carry : Wire) : Wiring (Wire × Wire) := do
  let sum ← add (← add x y) carry
  let withX ← mul carry x
  let withY ← mul carry y
  let first ← mul withX y
  let second ← mul withY x
  let both ← mul x y
  let out ← [withX, withY, first, second].foldlM add both
  return (sum, out)

def addPairs : List (Wire × Wire) → (carry : Wire) → Wiring (List Wire)
  | [], carry => return [carry]
  | pair :: pairs, carry => do
    let (sum, carry) ← fullAdd pair.1 pair.2 carry
    return sum :: (← addPairs pairs carry)

end Wiring

namespace Gadget

def sum (xs ys : List Wire) : Gadget (List Wire) := do
  checkLengths xs ys
  match xs.zip ys with
  | [] => throw .emptyOperand
  | pair :: pairs =>
    let (low, carry) ← Wiring.halfAdd pair.1 pair.2
    return low :: (← Wiring.addPairs pairs carry)

end Gadget

end ArithCircuit
