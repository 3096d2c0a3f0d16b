import ArithCircuit.Node

set_option autoImplicit false

namespace ArithCircuit

structure Domain (T : Type) where
  add : T → T → T
  mul : T → T → T
  shiftLeft : T → UInt64 → T
  shiftRight : T → UInt64 → T
  lift : UInt64 → T

namespace Domain

def binary {T : Type} (domain : Domain T) : BinaryOp → T → T → T
  | .add => domain.add
  | .mul => domain.mul

def shift {T : Type} (domain : Domain T) : Direction → T → UInt64 → T
  | .left => domain.shiftLeft
  | .right => domain.shiftRight

def words : Domain UInt64 where
  add x y := x + y
  mul x y := x * y
  shiftLeft x k := x <<< (k % 64)
  shiftRight x k := x >>> (k % 64)
  lift value := value

def bits : Domain Bool where
  add := xor
  mul := and
  shiftLeft x _ := x
  shiftRight x _ := x
  lift value := value % 2 == 1

def rotate {n : Nat} (k : Nat) (slots : Vector Bool n) : Vector Bool n :=
  Vector.ofFn fun i => slots.get ⟨(i.val + k) % n, Nat.mod_lt _ i.pos⟩

def slots (n : Nat) : Domain (Vector Bool n) where
  add := Vector.zipWith xor
  mul := Vector.zipWith and
  shiftLeft x k := rotate k.toNat x
  shiftRight x k := rotate (n - k.toNat % n) x
  lift value := Vector.replicate n (value % 2 == 1)

def texts : Domain String where
  add x y := s!"({x}+{y})"
  mul x y := s!"({x}*{y})"
  shiftLeft x k := s!"({x}<<{k.toNat})"
  shiftRight x k := s!"({x}>>{k.toNat})"
  lift value := s!"#{value.toNat}"

end Domain

end ArithCircuit
