import Mathlib.Tactic.IntervalCases

set_option autoImplicit false

namespace ArithCircuit

theorem digits_inj {m n : Nat} (same : Nat.toDigits 10 m = Nat.toDigits 10 n) : m = n := by
  have read := congrArg (fun digits => Nat.ofDigitChars 10 digits 0) same
  simpa using read

theorem digits_of_positive {n : Nat} (positive : 0 < n) (rest : List Char) :
    Nat.toDigits 10 n ≠ '0' :: rest := by
  induction n using Nat.strongRecOn generalizing rest with
  | ind n ih =>
    by_cases single : n < 10
    · rw [Nat.toDigits_of_lt_base single]
      intro same
      have isZero : n.digitChar = '0' := (List.cons.inj same).1
      interval_cases n <;> contradiction
    · have fewer : 0 < n / 10 := by omega
      rw [Nat.toDigits_of_base_le (by decide) (by omega)]
      intro same
      cases leading : Nat.toDigits 10 (n / 10) with
      | nil => exact Nat.toDigits_ne_nil leading
      | cons first others =>
        rw [leading] at same
        obtain rfl := (List.cons.inj same).1
        exact ih (n / 10) (by omega) fewer others leading

theorem length_digits_of_lt_ten {n : Nat} (single : n < 10) : (Nat.toDigits 10 n).length = 1 := by
  rw [Nat.toDigits_of_lt_base single]
  rfl

theorem digits_append_inj {i j i' j' : Nat}
    (same : Nat.toDigits 10 i ++ Nat.toDigits 10 j = Nat.toDigits 10 i' ++ Nat.toDigits 10 j')
    (aligned : (Nat.toDigits 10 i).length = (Nat.toDigits 10 i').length ∨
      (Nat.toDigits 10 j).length = (Nat.toDigits 10 j').length) : i = i' ∧ j = j' := by
  have split : Nat.toDigits 10 i = Nat.toDigits 10 i' ∧ Nat.toDigits 10 j = Nat.toDigits 10 j' := by
    cases aligned with
    | inl front => exact List.append_inj same front
    | inr back => exact List.append_inj' same back
  exact ⟨digits_inj split.1, digits_inj split.2⟩

-- The number ten and one digit can be taken for each other only before a number that starts with a
-- zero, and zero itself is too short.
theorem ten_append_digits {i j j' : Nat} (single : i < 10) :
    Nat.toDigits 10 10 ++ Nat.toDigits 10 j ≠ Nat.toDigits 10 i ++ Nat.toDigits 10 j' := by
  intro same
  have ten : Nat.toDigits 10 10 = ['1', '0'] := by decide
  rw [ten, Nat.toDigits_of_lt_base single] at same
  have rest : '0' :: Nat.toDigits 10 j = Nat.toDigits 10 j' := (List.cons.inj same).2
  by_cases positive : 0 < j'
  · exact digits_of_positive positive _ rest.symm
  · obtain rfl : j' = 0 := by omega
    exact Nat.toDigits_ne_nil (List.cons.inj rest).2

theorem digits_append_of_le_ten {i j i' j' : Nat} (small : i ≤ 10) (small' : i' ≤ 10)
    (same : Nat.toDigits 10 i ++ Nat.toDigits 10 j = Nat.toDigits 10 i' ++ Nat.toDigits 10 j') :
    i = i' ∧ j = j' := by
  by_cases single : i < 10
  · by_cases single' : i' < 10
    · exact digits_append_inj same
        (.inl ((length_digits_of_lt_ten single).trans (length_digits_of_lt_ten single').symm))
    · obtain rfl : i' = 10 := by omega
      exact absurd same.symm (ten_append_digits single)
  · obtain rfl : i = 10 := by omega
    by_cases single' : i' < 10
    · exact absurd same (ten_append_digits single')
    · obtain rfl : i' = 10 := by omega
      exact digits_append_inj same (.inl rfl)

end ArithCircuit
