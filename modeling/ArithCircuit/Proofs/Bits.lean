import ArithCircuit.Bits
import Mathlib.Data.Nat.Digits.Defs
import Mathlib.Data.Nat.Digits.Lemmas

set_option autoImplicit false

namespace ArithCircuit

namespace Bits

def number (bits : List Bool) : Nat := Nat.ofDigits 2 (bits.map Bool.toNat)

@[simp] theorem number_nil : number [] = 0 := rfl

@[simp] theorem number_cons (bit : Bool) (bits : List Bool) :
    number (bit :: bits) = bit.toNat + 2 * number bits := by
  simp [number, Nat.ofDigits_cons]

theorem number_append (low high : List Bool) :
    number (low ++ high) = number low + 2 ^ low.length * number high := by
  simp [number, Nat.ofDigits_append]

theorem digit_lt {bits : List Bool} : ∀ digit ∈ bits.map Bool.toNat, digit < 2 := by
  intro digit member
  obtain ⟨bit, _, rfl⟩ := List.mem_map.mp member
  exact bit.toNat_lt

theorem number_lt (bits : List Bool) : number bits < 2 ^ bits.length := by
  simpa [number] using Nat.ofDigits_lt_base_pow_length Nat.one_lt_two (@digit_lt bits)

theorem number_take (bits : List Bool) (length : Nat) :
    number (bits.take length) = number bits % 2 ^ length := by
  rw [number, number, Nat.ofDigits_mod_pow_eq_ofDigits_take length Nat.two_pos _ digit_lt,
    List.map_take]

theorem number_inj {first second : List Bool} (sameLength : first.length = second.length) :
    number first = number second ↔ first = second := by
  constructor
  · intro same
    have digits := Nat.ofDigits_inj_of_len_eq Nat.one_lt_two (by simpa using sameLength) digit_lt
      digit_lt same
    exact List.map_injective_iff.mpr (Function.LeftInverse.injective Bool.ofNat_toNat) digits
  · rintro rfl
    rfl

theorem number_lt_number_append {first second : List Bool} (sameLength : first.length = second.length)
    (a b : Bool) :
    decide (number (first ++ [a]) < number (second ++ [b])) =
      xor (!a && b) (a == b && decide (number first < number second)) := by
  have firstBound := number_lt first
  have secondBound := number_lt second
  rw [sameLength] at firstBound
  cases a <;> cases b <;> simp [number_append, sameLength] <;> omega

theorem number_ofPattern {width : Nat} (pattern : BitVec width) (length : Nat) :
    number (ofPattern pattern length) = pattern.toNat % 2 ^ length := by
  induction length generalizing pattern with
  | zero => simp [ofPattern, Nat.mod_one]
  | succ length ih =>
    rw [ofPattern, number_cons, ih, pow_succ', Nat.mod_mul]
    have low : (pattern.getLsbD 0).toNat = pattern.toNat % 2 := by
      rw [BitVec.getLsbD, Nat.toNat_testBit, pow_zero, Nat.div_one]
    simp [low, Nat.shiftRight_eq_div_pow]

theorem length_ofPattern {width : Nat} (pattern : BitVec width) (length : Nat) :
    (ofPattern pattern length).length = length := by
  induction length generalizing pattern with
  | zero => rfl
  | succ length ih => rw [ofPattern, List.length_cons, ih]

end Bits

theorem le_two_pow_log2Ceil (n : Nat) : n ≤ 2 ^ log2Ceil n := by
  by_cases few : n ≤ 1
  · rw [log2Ceil, if_pos few]
    exact few
  · rw [log2Ceil, if_neg few]
    have bound := @Nat.lt_log2_self (n - 1)
    omega

theorem log2Ceil_le (n : Nat) : log2Ceil n ≤ Nat.log2 n + 1 := by
  by_cases few : n ≤ 1
  · rw [log2Ceil, if_pos few]
    exact Nat.zero_le _
  · rw [log2Ceil, if_neg few, Nat.log2_eq_log_two, Nat.log2_eq_log_two]
    exact Nat.succ_le_succ (Nat.log_mono_right (Nat.sub_le n 1))

theorem log2Ceil_le_iff {n levels : Nat} : log2Ceil n ≤ levels ↔ n ≤ 2 ^ levels := by
  by_cases few : n ≤ 1
  · have atLeastOne := Nat.one_le_two_pow (n := levels)
    simp only [log2Ceil, if_pos few, Nat.zero_le, true_iff]
    omega
  · have several : n - 1 ≠ 0 := by omega
    rw [log2Ceil, if_neg few, Nat.succ_le_iff, Nat.log2_lt several]
    omega

end ArithCircuit
