import ArithCircuit.Gadget.Adder
import ArithCircuit.Pairing

set_option autoImplicit false

namespace ArithCircuit

def triples {α : Type} : List α → List (α × α × α) × List α
  | x :: y :: z :: rest =>
    let (groups, leftOver) := triples rest
    ((x, y, z) :: groups, leftOver)
  | short => ([], short)

namespace Wiring

def parity : Wire × Wire × Wire → Wiring Wire
  | (x, y, z) => do add (← add x y) z

def majority : Wire × Wire × Wire → Wiring Wire
  | (x, y, z) => do
    let first ← mul x y
    let second ← mul x z
    let both ← add first second
    add both (← mul y z)

def suffixProducts (zero : Wiring Wire) : List Wire → Wiring (List Wire)
  | [] => return []
  | parity :: later => do
    let carry ← accumulate (← zero) later (mul parity)
    return carry :: (← suffixProducts zero later)

def parityOfRest (zero : Wiring Wire) (leftOver : List Wire) : Wiring (List Wire) :=
  if leftOver.isEmpty then return [] else return [← total zero leftOver]

def carryOfRest : List Wire → Wiring (List Wire)
  | [x, y] => return [← mul y x]
  | _ => return []

-- The parity is the next bit of the weight; the list that is left has half as many bits set, rounded down.
def halve (zero : Wiring Wire) (bits : List Wire) : Wiring (Wire × List Wire) := do
  let (groups, leftOver) := triples bits
  let groupParities ← groups.mapM parity
  let parities := groupParities ++ (← parityOfRest zero leftOver)
  let bit ← total zero parities
  let majorities ← groups.mapM majority
  let pairCarry ← carryOfRest leftOver
  let suffixes ← suffixProducts zero parities
  return (bit, majorities ++ pairCarry ++ suffixes)

def weightBits (zero : Wiring Wire) : (rounds : Nat) → List Wire → Wiring (List Wire)
  | 0, _ => return []
  | rounds + 1, bits => do
    let (bit, halved) ← halve zero bits
    return bit :: (← weightBits zero rounds halved)

end Wiring

namespace Gadget

def weight (bits : List Wire) : Gadget (List Wire) := do
  match bits with
  | [] => throw .emptyOperand
  | first :: _ =>
    let log ← (log2Floor bits.length : Except Fault Nat)
    Wiring.weightBits first.zero (log + 1) bits

def isPowerOfTwo (n : Nat) : Bool := n == 1 <<< Nat.log2 n

def weightByAdding (bits : List Wire) : Gadget (List Wire) := do
  if bits.isEmpty then throw .emptyOperand
  if !isPowerOfTwo bits.length then throw (.notPowerOfTwo bits.length)
  match ← joinBalanced sum (bits.map fun bit => [bit]) with
  | some weight => return weight
  | none => throw .emptyOperand

end Gadget

end ArithCircuit
