import ArithCircuit.Gadget.Weight

set_option autoImplicit false

namespace ArithCircuit

namespace Gadget

def commonWidth (elements : List (List Wire)) : Except Error Nat :=
  match elements with
  | [] => .error .emptyOperand
  | first :: _ =>
    if first.isEmpty then .error .emptyOperand
    else
      match elements.find? fun element => element.length ≠ first.length with
      | some other => .error (.lengthMismatch first.length other.length)
      | none => .ok first.length

def compareExchange (elements : Array (List Wire)) (comparator : Nat × Nat) :
    Gadget (Array (List Wire)) := do
  let (low, high) := comparator
  match elements[low]?, elements[high]? with
  | some x, some y =>
    let isLess ← less x y
    let smaller ← select isLess y x
    let larger ← select isLess x y
    return (elements.setIfInBounds low smaller).setIfInBounds high larger
  | none, _ => throw (.indexOutOfRange low elements.size)
  | _, none => throw (.indexOutOfRange high elements.size)

def sortByNetwork (network : List (Nat × Nat)) (elements : List (List Wire)) :
    Gadget (List (List Wire)) := do
  match (network.flatMap fun (low, high) => [low, high]).find? (elements.length ≤ ·) with
  | some index => throw (.indexOutOfRange index elements.length)
  | none => return (← network.foldlM compareExchange elements.toArray).toList

-- Of two equal elements the later goes first.
def compareWithLater (x : List Wire) (later : List (List Wire)) : Gadget (List (Wire × Wire)) :=
  later.mapM fun y => do
    let isLess ← less x y
    let isNotLess ← Wiring.add isLess (← isLess.one)
    return (isNotLess, isLess)

def precedence (zero : Wire) : List (List Wire) → Gadget (List (List Wire))
  | [] => return []
  | x :: later => do
    let comparisons ← compareWithLater x later
    let rows ← precedence zero later
    return (zero :: comparisons.map (·.1)) ::
      (comparisons.zip rows).map fun (comparison, row) => comparison.2 :: row

def addMasked (mask : Wire) : (sums bits : List Wire) → Wiring (List Wire)
  | sum :: sums, bit :: bits => do
    let sum ← Wiring.add sum (← Wiring.mul mask bit)
    return sum :: (← addMasked mask sums bits)
  | sums, _ => return sums

def elementOfRank (zero : Wire) (width rankWidth : Nat) (ranked : List (List Wire × List Wire))
    (place : Nat) : Gadget (List Wire) := do
  let target ← Wiring.constantBits zero.circuit (.ofNat place) rankWidth
  ranked.foldlM
    (fun sums (element, rank) => do
      let isHere ← equal target rank
      addMasked isHere sums element)
    (List.replicate width zero)

def sortByRank (elements : List (List Wire)) : Gadget (List (List Wire)) := do
  let width ← commonWidth elements
  match elements with
  | (bit :: _) :: _ :: _ =>
    let zero ← bit.zero
    let rankWidth := log2Ceil elements.length
    let rows ← precedence zero elements
    let ranks ← rows.mapM fun row => return (← weight row).take rankWidth
    (List.range elements.length).mapM
      (elementOfRank zero width rankWidth (elements.zip ranks))
  | _ => return elements

-- One wire with a slot for each of the given ones. Each is added to the first slot, the last wire
-- first, and moves on by one slot for every wire before it.
def packSlots (wires : List Wire) (slots : Nat) : Gadget Wire := do
  if wires.length ≠ slots then throw (.lengthMismatch wires.length slots)
  match wires with
  | [] => throw .emptyOperand
  | first :: _ =>
    wires.reverse.foldlM
      (fun packed wire => do Wiring.add (← Wiring.shift .right packed 1) wire)
      (← first.zero)

end Gadget

def Wiring.fillSlots (wire : Wire) (slots : Nat) : Wiring Wire := do
  let zero ← wire.zero
  (List.range slots).foldlM (fun filled _ => do add (← shift .left filled 1) wire) zero

namespace Gadget

def columns {α : Type} (rows : List (List α)) (width : Nat) : List (List α) :=
  (List.range width).map fun k => rows.filterMap fun row => row[k]?

-- The slot of the selector that belongs to an element comes to the first place when it is that
-- element's turn.
def addRotating (zero : Wire) (width : Nat) (selector : Wire) (elements : List (List Wire)) :
    Wiring (List Wire) := do
  let (_, sums) ← elements.foldlM
    (fun (selector, sums) element => do
      let sums ← addMasked selector sums element
      return (← Wiring.shift .left selector 1, sums))
    (selector, List.replicate width zero)
  return sums

def sortPacked (elements : List (List Wire)) : Gadget (List (List Wire)) := do
  let width ← commonWidth elements
  match elements with
  | (bit :: _) :: _ :: _ =>
    let zero ← bit.zero
    let count := elements.length
    let rankWidth := log2Ceil count
    let packed ← (columns elements width).mapM fun column => packSlots column count
    let precedes ← elements.mapM fun element => do
      let everywhere ← (element.mapM fun bit => Wiring.fillSlots bit count : Wiring (List Wire))
      less everywhere packed
    let ranks := (← weight precedes).take rankWidth
    (List.range count).mapM fun place => do
      let target ← Wiring.constantBits zero.circuit (.ofNat place) rankWidth
      addRotating zero width (← equal target ranks) elements
  | _ => return elements

end Gadget

end ArithCircuit
