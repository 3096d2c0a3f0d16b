import ArithCircuit.Circuit.Basic
import ArithCircuit.Schedule
import Std.Data.HashMap
import Std.Data.HashSet

set_option autoImplicit false

namespace ArithCircuit

-- A product with several parents is a factor of each of them and is not split; otherwise repeated
-- squaring would have exponentially many factors.
structure FanOut where
  uses : Std.HashMap Nat Nat
  counted : Std.HashSet Nat

namespace FanOut

def empty : FanOut := ⟨∅, ∅⟩

def usesOf (fanOut : FanOut) (id : Nat) : Nat := fanOut.uses.getD id 0

def isShared (fanOut : FanOut) (id : Nat) : Bool := 1 < fanOut.usesOf id

def addUse (fanOut : FanOut) (child : Nat) : FanOut :=
  { fanOut with uses := fanOut.uses.insert child (fanOut.usesOf child + 1) }

def countNode (circuit : Circuit) (fanOut : FanOut) (id : Nat) : FanOut :=
  let fanOut := { fanOut with counted := fanOut.counted.insert id }
  (circuit.children id).foldl addUse fanOut

-- Counts the uses below `root` that no earlier root has counted.
def count? (fanOut : FanOut) (circuit : Circuit) (root : Nat) : Option FanOut :=
  if circuit.contains root then
    some ((schedule circuit.children fanOut.counted.contains root).foldl (countNode circuit) fanOut)
  else none

-- The new form of a shared node is shared as well.
def inherit (fanOut : FanOut) (old new : Nat) : FanOut :=
  if old ≠ new ∧ fanOut.isShared old then
    { fanOut with uses := fanOut.uses.insert new (max (fanOut.usesOf new) 2) }
  else fanOut

end FanOut

end ArithCircuit
