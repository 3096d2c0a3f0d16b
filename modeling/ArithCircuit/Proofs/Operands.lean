import ArithCircuit.Proofs.Adder

set_option autoImplicit false

namespace ArithCircuit

variable {workspace : Workspace} {index : Nat} {xs ys : List Wire}

namespace Workspace

structure Operands (workspace : Workspace) (index : Nat) (xs ys : List Wire) : Prop where
  filled : xs ≠ []
  sameLength : xs.length = ys.length
  left : ∀ x ∈ xs, workspace.Owns index x
  right : ∀ y ∈ ys, workspace.Owns index y

theorem Operands.read (operands : workspace.Operands index xs ys) {inputs : String → Option Bool}
    (binds : workspace.BindsAll inputs (xs ++ ys)) :
    ∃ first second, workspace.ReadsAll (.ofBits inputs) index xs first ∧
      workspace.ReadsAll (.ofBits inputs) index ys second ∧
      first.length = second.length ∧ first ≠ [] := by
  obtain ⟨bindsLeft, bindsRight⟩ := List.forall_mem_append.mp binds
  obtain ⟨first, leftReads⟩ := exists_readsAll_of_binds operands.left bindsLeft
  obtain ⟨second, rightReads⟩ := exists_readsAll_of_binds operands.right bindsRight
  refine ⟨first, second, leftReads, rightReads, ?_, ?_⟩
  · rw [← leftReads.length_eq, operands.sameLength, rightReads.length_eq]
  · rintro rfl
    cases leftReads
    exact operands.filled rfl

end Workspace

def Gadget.Computes {α : Type} (step : Gadget α) (workspace : Workspace) (wires : List Wire)
    (answer : (String → Option Bool) → α → Workspace → Prop) : Prop :=
  ∃ result later, step.run workspace = .ok (.ok result, later) ∧ workspace.Extends later ∧
    ∀ inputs, workspace.BindsAll inputs wires → answer inputs result later

theorem Builds.computes {α : Type} {step : Gadget α} {wires : List Wire}
    {answer : (String → Option Bool) → α → Workspace → Prop}
    (builds : ∀ inputs, workspace.BindsAll inputs wires → Builds step workspace (answer inputs)) :
    step.Computes workspace wires answer := by
  let Bound := {inputs : String → Option Bool // workspace.BindsAll inputs wires}
  have : Nonempty Bound := ⟨⟨_, fun wire _ => Workspace.binds_constant false workspace wire⟩⟩
  obtain ⟨result, later, runs, extended, answers⟩ :=
    Builds.answers fun bound : Bound => builds bound.val bound.property
  exact ⟨result, later, runs, extended, fun inputs binds => answers ⟨inputs, binds⟩⟩

namespace Gadget

theorem sum_adds (operands : workspace.Operands index xs ys) :
    (sum xs ys).Computes workspace (xs ++ ys) fun inputs outputs later =>
      (∀ output ∈ outputs, later.Owns index output) ∧ outputs.length = xs.length + 1 ∧
        ∃ first second results, workspace.EvaluateTo inputs xs first ∧
          workspace.EvaluateTo inputs ys second ∧ later.EvaluateTo inputs outputs results ∧
          Bits.number results = Bits.number first + Bits.number second := by
  apply Builds.computes
  intro inputs binds
  obtain ⟨first, second, leftReads, rightReads, sameLength, filled⟩ := operands.read binds
  have left : workspace.ReadsValue (.ofBits inputs) index first.length xs (Bits.number first) :=
    ⟨first, ⟨leftReads, rfl⟩, rfl⟩
  have right : workspace.ReadsValue (.ofBits inputs) index first.length ys (Bits.number second) :=
    ⟨second, ⟨rightReads, sameLength.symm⟩, rfl⟩
  refine (sum_builds (List.length_pos_iff.mpr filled) left right).mono ?_
  rintro outputs later _ ⟨results, ⟨readsResults, length⟩, total⟩
  refine ⟨readsResults.own, ?_, first, second, results, leftReads.evaluate, rightReads.evaluate,
    readsResults.evaluate, total⟩
  rw [readsResults.length_eq, length, leftReads.length_eq]

theorem shared_operands : twoInputs.Operands 0 [⟨0, 0⟩, ⟨0, 2⟩] [⟨0, 1⟩, ⟨0, 0⟩] where
  filled := List.cons_ne_nil _ _
  sameLength := rfl
  left := by
    have small : ∀ x ∈ ([⟨0, 0⟩, ⟨0, 2⟩] : List Wire), x.circuit = 0 ∧ x.node < 3 := by decide
    exact fun x member => twoInputs_owns (small x member).1 (small x member).2
  right := by
    have small : ∀ y ∈ ([⟨0, 1⟩, ⟨0, 0⟩] : List Wire), y.circuit = 0 ∧ y.node < 3 := by decide
    exact fun y member => twoInputs_owns (small y member).1 (small y member).2

theorem shared_operands_evaluate (a b : Bool) :
    twoInputs.EvaluateTo (List.lookup · [("a", a), ("b", b)]) [⟨0, 0⟩, ⟨0, 2⟩] [a, a && b] ∧
      twoInputs.EvaluateTo (List.lookup · [("a", a), ("b", b)]) [⟨0, 1⟩, ⟨0, 0⟩] [b, a] := by
  have first := twoInputs_evaluates a b (show (⟨0, 0⟩ : Wire).circuit = 0 from rfl) rfl rfl
  have second := twoInputs_evaluates a b (show (⟨0, 1⟩ : Wire).circuit = 0 from rfl) rfl rfl
  have both := twoInputs_evaluates a b (show (⟨0, 2⟩ : Wire).circuit = 0 from rfl) rfl rfl
  exact ⟨.cons first (.cons both .nil), .cons second (.cons first .nil)⟩

theorem sum_of_shared_wires :
    ∃ outputs later results,
      (sum [⟨0, 0⟩, ⟨0, 2⟩] [⟨0, 1⟩, ⟨0, 0⟩]).run twoInputs = .ok (.ok outputs, later) ∧
        outputs.length = 3 ∧
        later.EvaluateTo (List.lookup · [("a", true), ("b", true)]) outputs results ∧
        Bits.number results = 6 := by
  obtain ⟨left, right⟩ := shared_operands_evaluate true true
  obtain ⟨outputs, later, runs, _, adds⟩ := sum_adds shared_operands
  obtain ⟨_, length, first, second, results, xsEvaluate, ysEvaluate, evaluate, number⟩ :=
    adds _ (List.forall_mem_append.mpr
      ⟨left.binds shared_operands.left, right.binds shared_operands.right⟩)
  cases xsEvaluate.unique left
  cases ysEvaluate.unique right
  exact ⟨outputs, later, results, runs, length, evaluate, number⟩

theorem compares {step : Gadget Wire} {verdict : List Bool → List Bool → Bool}
    (operands : workspace.Operands index xs ys)
    (builds : ∀ inputs first second, workspace.ReadsAll (.ofBits inputs) index xs first →
      workspace.ReadsAll (.ofBits inputs) index ys second → first.length = second.length →
      first ≠ [] → Builds step workspace fun output later =>
        later.Reads (.ofBits inputs) index output (verdict first second)) :
    step.Computes workspace (xs ++ ys) fun inputs output later =>
      later.Owns index output ∧ ∃ first second, workspace.EvaluateTo inputs xs first ∧
        workspace.EvaluateTo inputs ys second ∧
        later.eval? .bits inputs output = some (.ok (verdict first second)) := by
  apply Builds.computes
  intro inputs binds
  obtain ⟨first, second, left, right, sameLength, filled⟩ := operands.read binds
  refine (builds inputs first second left right sameLength filled).mono ?_
  intro output later _ reads
  exact ⟨reads.owns, first, second, left.evaluate, right.evaluate, reads.evaluate⟩

theorem selects (operands : workspace.Operands index xs ys) {selector : Wire}
    (own : workspace.Owns index selector) :
    (select selector xs ys).Computes workspace (selector :: (xs ++ ys)) fun inputs outputs later =>
      (∀ output ∈ outputs, later.Owns index output) ∧ ∃ isOn first second,
        workspace.eval? .bits inputs selector = some (.ok isOn) ∧
        workspace.EvaluateTo inputs xs first ∧ workspace.EvaluateTo inputs ys second ∧
        later.EvaluateTo inputs outputs (if isOn then second else first) := by
  apply Builds.computes
  intro inputs binds
  obtain ⟨bindsSelector, bindsOperands⟩ := List.forall_mem_cons.mp binds
  obtain ⟨first, second, left, right, sameLength, filled⟩ := operands.read bindsOperands
  obtain ⟨isOn, selectorReads⟩ : ∃ isOn, workspace.Reads (.ofBits inputs) index selector isOn :=
    own.reads_of_binds bindsSelector
  refine (select_builds selectorReads left right sameLength filled).mono ?_
  intro outputs later _ reads
  exact ⟨reads.own, isOn, first, second, selectorReads.evaluate, left.evaluate, right.evaluate,
    reads.evaluate⟩

theorem comparison_and_selection (operands : workspace.Operands index xs ys) {selector : Wire}
    (own : workspace.Owns index selector) :
    ((less xs ys).Computes workspace (xs ++ ys) fun inputs output later =>
      later.Owns index output ∧ ∃ first second, workspace.EvaluateTo inputs xs first ∧
        workspace.EvaluateTo inputs ys second ∧ later.eval? .bits inputs output =
          some (.ok (decide (Bits.number first < Bits.number second)))) ∧
    ((equal xs ys).Computes workspace (xs ++ ys) fun inputs output later =>
      later.Owns index output ∧ ∃ first second, workspace.EvaluateTo inputs xs first ∧
        workspace.EvaluateTo inputs ys second ∧ later.eval? .bits inputs output =
          some (.ok (decide (Bits.number first = Bits.number second)))) ∧
    (select selector xs ys).Computes workspace (selector :: (xs ++ ys)) fun inputs outputs later =>
      (∀ output ∈ outputs, later.Owns index output) ∧ ∃ isOn first second,
        workspace.eval? .bits inputs selector = some (.ok isOn) ∧
        workspace.EvaluateTo inputs xs first ∧ workspace.EvaluateTo inputs ys second ∧
        later.EvaluateTo inputs outputs (if isOn then second else first) := by
  refine ⟨compares operands ?_, compares operands ?_, selects operands own⟩
  · intro inputs first second left right sameLength filled
    exact less_builds left right sameLength filled
  · intro inputs first second left right sameLength filled
    have same : decide (Bits.number first = Bits.number second) = (first == second) := by
      rw [beq_eq_decide, decide_eq_decide]
      exact Bits.number_inj sameLength
    rw [same]
    exact equal_builds left right sameLength filled

theorem comparison_of_shared_wires :
    (∃ output later, (less [⟨0, 0⟩, ⟨0, 2⟩] [⟨0, 1⟩, ⟨0, 0⟩]).run twoInputs =
        .ok (.ok output, later) ∧
      later.eval? .bits (List.lookup · [("a", true), ("b", false)]) output = some (.ok true)) ∧
    (∃ output later, (equal [⟨0, 0⟩, ⟨0, 2⟩] [⟨0, 1⟩, ⟨0, 0⟩]).run twoInputs =
        .ok (.ok output, later) ∧
      later.eval? .bits (List.lookup · [("a", true), ("b", false)]) output = some (.ok false)) ∧
    ∃ outputs later, (select ⟨0, 1⟩ [⟨0, 0⟩, ⟨0, 2⟩] [⟨0, 1⟩, ⟨0, 0⟩]).run twoInputs =
        .ok (.ok outputs, later) ∧
      later.EvaluateTo (List.lookup · [("a", true), ("b", false)]) outputs [true, false] := by
  obtain ⟨left, right⟩ := shared_operands_evaluate true false
  have binds := List.forall_mem_append.mpr
    ⟨left.binds shared_operands.left, right.binds shared_operands.right⟩
  have own := shared_operands.right ⟨0, 1⟩ List.mem_cons_self
  have selector := twoInputs_evaluates true false (show (⟨0, 1⟩ : Wire).circuit = 0 from rfl) rfl rfl
  have bindsSelector := (own.binds_iff .bits _).mpr ⟨_, selector⟩
  obtain ⟨⟨isLess, s₁, lessRuns, _, lesser⟩, ⟨isEqual, s₂, equalRuns, _, equals⟩, chosen, s₃,
    selectRuns, _, chooses⟩ := comparison_and_selection shared_operands own
  refine ⟨⟨isLess, s₁, lessRuns, ?_⟩, ⟨isEqual, s₂, equalRuns, ?_⟩, chosen, s₃, selectRuns, ?_⟩
  · obtain ⟨_, first, second, xsEvaluate, ysEvaluate, evaluates⟩ := lesser _ binds
    cases xsEvaluate.unique left
    cases ysEvaluate.unique right
    exact evaluates
  · obtain ⟨_, first, second, xsEvaluate, ysEvaluate, evaluates⟩ := equals _ binds
    cases xsEvaluate.unique left
    cases ysEvaluate.unique right
    exact evaluates
  · obtain ⟨_, isOn, first, second, isOff, xsEvaluate, ysEvaluate, evaluate⟩ :=
      chooses _ (List.forall_mem_cons.mpr ⟨bindsSelector, binds⟩)
    cases isOff.symm.trans selector
    cases xsEvaluate.unique left
    exact evaluate

end Gadget

end ArithCircuit
