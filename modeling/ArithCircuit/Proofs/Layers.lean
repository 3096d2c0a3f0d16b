import ArithCircuit.Proofs.Bits
import ArithCircuit.Proofs.Products

set_option autoImplicit false

namespace ArithCircuit

theorem two_pow_add_le (x y : Nat) : 2 ^ x + 2 ^ y ≤ 2 ^ (max x y + 1) := by
  have left := Nat.pow_le_pow_right Nat.two_pos (Nat.le_max_left x y)
  have right := Nat.pow_le_pow_right Nat.two_pos (Nat.le_max_right x y)
  rw [Nat.pow_succ]
  omega

theorem Formula.Chain.sum_two_pow_le {operands : List Formula} {formula : Formula}
    (chain : Chain .mul operands formula) :
    (operands.map fun operand => 2 ^ operand.depth).sum ≤ 2 ^ formula.depth := by
  induction chain with
  | single formula => simp
  | @join _ _ first second _ _ leftLess rightLess =>
    have whole := two_pow_add_le first.depth second.depth
    rw [List.map_append, List.sum_append, Formula.depth]
    omega

theorem Circuit.Chain.sum_two_pow_le {circuit : Circuit} {operands depths : List Nat} {root depth : Nat}
    (chain : circuit.Chain .mul operands root)
    (haveDepths : List.Forall₂ circuit.HasDepth operands depths)
    (hasDepth : circuit.HasDepth root depth) : (depths.map (2 ^ ·)).sum ≤ 2 ^ depth := by
  obtain ⟨formula, denotes, rfl⟩ := hasDepth
  obtain ⟨formulas, denote, formulaChain⟩ := chain.denotes denotes
  obtain rfl := forall_hasDepth_unique haveDepths (forall_hasDepth denote)
  have bound := formulaChain.sum_two_pow_le
  rwa [List.map_map]

theorem joinNeighbours_le {bound : Nat} : ∀ {depths : List Nat}, (∀ depth ∈ depths, depth ≤ bound) →
    ∀ depth ∈ (joinNeighbours joinDepths depths).run, depth ≤ bound + 1
  | [], _, depth, member => absurd member List.not_mem_nil
  | [last], within, depth, member =>
    Nat.le_succ_of_le (within depth member)
  | first :: second :: rest, within, depth, member => by
    have firstLess := within first (by simp)
    have secondLess := within second (by simp)
    cases List.mem_cons.mp member with
    | inl here => exact here ▸ Nat.succ_le_succ (Nat.max_le.mpr ⟨firstLess, secondLess⟩)
    | inr there =>
      exact joinNeighbours_le (fun other later => within other (by simp [later])) depth there

theorem joinLayers_le (rounds : Nat) {depths : List Nat} {bound levels : Nat}
    (within : ∀ depth ∈ depths, depth ≤ bound) (few : depths.length ≤ 2 ^ levels) :
    (joinLayers joinDepths rounds depths).run.getD 0 ≤ bound + levels := by
  induction rounds generalizing depths bound levels with
  | zero =>
    match depths with
    | [] => exact Nat.zero_le _
    | [last] => exact Nat.le_add_right_of_le (within last List.mem_cons_self)
    | _ :: _ :: _ => exact Nat.zero_le _
  | succ rounds ih =>
    match depths with
    | [] => exact Nat.zero_le _
    | [last] => exact Nat.le_add_right_of_le (within last List.mem_cons_self)
    | first :: second :: rest =>
      have length := joinNeighbours_length joinDepths (first :: second :: rest)
      obtain ⟨levels, rfl⟩ : ∃ fewer, levels = fewer + 1 := by
        cases levels with
        | zero => simp at few
        | succ fewer => exact ⟨fewer, rfl⟩
      have half : (joinNeighbours joinDepths (first :: second :: rest)).run.length ≤ 2 ^ levels := by
        rw [Nat.pow_succ] at few
        omega
      have joined := ih (joinNeighbours_le within) half
      rwa [Nat.add_right_comm] at joined

theorem balancedDepth_le {depths : List Nat} {bound levels : Nat}
    (within : ∀ depth ∈ depths, depth ≤ bound) (few : depths.length ≤ 2 ^ levels) :
    balancedDepth depths ≤ bound + levels :=
  joinLayers_le _ (fun depth member => within depth (List.mem_mergeSort.mp member))
    (by rwa [List.length_mergeSort])

end ArithCircuit
