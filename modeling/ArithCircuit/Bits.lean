import ArithCircuit.Error

set_option autoImplicit false

namespace ArithCircuit

structure IntegerType where
  width : Nat
  signed : Bool
deriving DecidableEq

namespace IntegerType

def pattern (type : IntegerType) (value : Int) : BitVec type.width := BitVec.ofInt type.width value

def value (type : IntegerType) (pattern : BitVec type.width) : Int :=
  if type.signed then pattern.toInt else pattern.toNat

end IntegerType

namespace Bits

def ofPattern {width : Nat} (pattern : BitVec width) : (length : Nat) → List Bool
  | 0 => []
  | length + 1 => pattern.getLsbD 0 :: ofPattern (pattern >>> 1) length

def toPattern (width : Nat) (bits : List Bool) : BitVec width :=
  bits.foldr (fun bit pattern => (pattern <<< 1) ||| (BitVec.ofBool bit).setWidth width) 0

def ofInt (type : IntegerType) (value : Int) (length : Nat) : List Bool :=
  ofPattern (type.pattern value) length

def toInt (type : IntegerType) (bits : List Bool) : Int :=
  type.value (toPattern type.width bits)

end Bits

def log2Ceil (n : Nat) : Nat := if n ≤ 1 then 0 else Nat.log2 (n - 1) + 1

def log2Floor (n : Nat) : Except Fault Nat :=
  if n = 0 then .error .logOfZero else .ok (Nat.log2 n)

end ArithCircuit
