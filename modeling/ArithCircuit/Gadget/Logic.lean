import ArithCircuit.Bits
import ArithCircuit.Workspace

set_option autoImplicit false

namespace ArithCircuit

namespace Wiring

def accumulate {α : Type} (start : Wire) (terms : List α) (term : α → Wiring Wire) : Wiring Wire :=
  terms.foldlM (fun total x => do add total (← term x)) start

-- The zero folds away unless there are no terms.
def total (zero : Wiring Wire) (terms : List Wire) : Wiring Wire := do
  accumulate (← zero) terms pure

def not (x : Wire) : Wiring Wire := do
  add x (← x.one)

def or (x y : Wire) : Wiring Wire := do
  let both ← mul x y
  let some ← add both x
  add some y

def equalBit (x y : Wire) : Wiring Wire := do
  let differ ← add x y
  add differ (← x.one)

def lessBit (x y : Wire) : Wiring Wire := do
  mul (← not x) y

def selectBit (selector whenZero whenOne : Wire) : Wiring Wire := do
  let first ← mul (← not selector) whenZero
  let second ← mul selector whenOne
  add first second

def constantBits (index : Nat) (value : UInt64) (length : Nat) : Wiring (List Wire) :=
  (Bits.ofPattern value.toBitVec length).mapM fun bit => constant index (if bit then 1 else 0)

end Wiring

namespace Gadget

def checkLengths (xs ys : List Wire) : Except Error Unit :=
  if xs.length ≠ ys.length then .error (.lengthMismatch xs.length ys.length)
  else if xs.isEmpty then .error .emptyOperand
  else .ok ()

def equal (xs ys : List Wire) : Gadget Wire := do
  checkLengths xs ys
  match xs with
  | [] => throw .emptyOperand
  | x :: _ =>
    let start ← x.one
    (xs.zip ys).foldlM
      (fun soFar pair => do
        let here ← Wiring.equalBit pair.1 pair.2
        Wiring.mul soFar here)
      start

-- From the bits below the top one, highest first: `higher` is the pair above, `equal` says that
-- all pairs above `higher` are equal, and `less` that the number down to `higher` is less.
def lessFrom : (below : List (Wire × Wire)) → (higher : Wire × Wire) → (equal less : Wire) →
    Wiring Wire
  | [], _, _, less => return less
  | pair :: below, higher, equal, less => do
    let equal ← Wiring.mul equal (← Wiring.equalBit higher.1 higher.2)
    let here ← Wiring.mul equal (← Wiring.lessBit pair.1 pair.2)
    lessFrom below pair equal (← Wiring.add less here)

def less (xs ys : List Wire) : Gadget Wire := do
  checkLengths xs ys
  match xs, (xs.zip ys).reverse with
  | x :: _, top :: below =>
    let less ← Wiring.lessBit top.1 top.2
    let equal ← x.one
    lessFrom below top equal less
  | _, _ => throw .emptyOperand

def select (selector : Wire) (whenZero whenOne : List Wire) : Gadget (List Wire) := do
  checkLengths whenZero whenOne
  (whenZero.zip whenOne).mapM fun pair => Wiring.selectBit selector pair.1 pair.2

end Gadget

end ArithCircuit
