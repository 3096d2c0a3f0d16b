import ArithCircuit.Node
import Std.Data.HashSet

set_option autoImplicit false

namespace ArithCircuit

structure Schedule where
  planned : Std.HashSet Nat
  latestFirst : List Nat

namespace Schedule

def empty : Schedule := ⟨∅, []⟩

def add (schedule : Schedule) (id : Nat) : Schedule :=
  ⟨schedule.planned.insert id, id :: schedule.latestFirst⟩

-- Of several open dependencies the last one is worked off first.
def visit (dependencies : Nat → List Nat) (done : Nat → Bool) :
    (bound : Nat) → Nat → Schedule → Schedule
  | 0, _, schedule => schedule
  | bound + 1, id, schedule =>
    if done id || schedule.planned.contains id then schedule
    else ((dependencies id).foldr (visit dependencies done bound) schedule).add id

end Schedule

def schedule (dependencies : Nat → List Nat) (done : Nat → Bool) (root : Nat) :
    List Nat :=
  (Schedule.visit dependencies done (root + 1) root .empty).latestFirst.reverse

end ArithCircuit
