import ArithCircuit.Circuit.Render
import ArithCircuit.Circuit.Validation
import ArithCircuit.Proofs.Depth
import ArithCircuit.Proofs.Evaluation
import ArithCircuit.Proofs.Reachable

set_option autoImplicit false

namespace ArithCircuit

namespace Formula

def text : Formula → String
  | constant value => toString value.toNat
  | input name => name
  | binary op left right => s!"( {left.text} {op.sign} {right.text} )"
  | shift direction operand amount => s!"( {operand.text} {direction.sign} {amount.toNat} )"

end Formula

namespace Circuit

theorem renderBelow_eq (circuit : Circuit) (bound id : Nat) :
    circuit.renderBelow bound id = (circuit.formulaBelow bound id).map Formula.text := by
  induction bound generalizing id with
  | zero => rfl
  | succ bound ih =>
    rw [renderBelow, formulaBelow]
    cases circuit.node? id with
    | none => rfl
    | some node =>
      cases node with
      | constant value => rfl
      | input name => rfl
      | binary op left right =>
        simp only [Option.bind_eq_bind, Option.bind_some, ih]
        cases circuit.formulaBelow bound left with
        | none => rfl
        | some first => cases circuit.formulaBelow bound right <;> rfl
      | shift direction operand amount =>
        simp only [Option.bind_eq_bind, Option.bind_some, ih]
        cases circuit.formulaBelow bound operand <;> rfl

theorem render?_eq (circuit : Circuit) (root : Nat) :
    circuit.render? root = (circuit.formula? root).map Formula.text :=
  circuit.renderBelow_eq (root + 1) root

section Extends

variable {old new : Circuit} (extended : old.Extends new)

include extended

theorem toNodes_prefix : old.toNodes <+: new.toNodes := by
  have listed : ∀ (circuit : Circuit) (id : Nat), circuit.toNodes[id]? = circuit.node? id :=
    fun _ _ => Array.getElem?_toList
  rw [List.prefix_iff_getElem?]
  intro id bound
  rw [listed]
  apply extended
  rw [← listed]
  exact List.getElem?_eq_getElem bound

theorem Reaches.of_extends {root id : Nat} (reaches : old.Reaches root id)
    (inRange : root < old.size) : new.Reaches root id := by
  induction reaches with
  | refl => exact .refl _
  | step member _ ih =>
    refine .step ?_ (ih (Nat.lt_trans (old.lt_of_mem_children member) inRange))
    rwa [children_of_extends extended inRange]

theorem Reaches.of_grown {root id : Nat} (reaches : new.Reaches root id)
    (inRange : root < old.size) : old.Reaches root id := by
  induction reaches with
  | refl => exact .refl _
  | step member _ ih =>
    rw [children_of_extends extended inRange] at member
    exact .step member (ih (Nat.lt_trans (old.lt_of_mem_children member) inRange))

theorem exists_reaches_iff_of_extends {roots : List Nat} (inRange : ∀ root ∈ roots, root < old.size)
    {id : Nat} : (∃ root ∈ roots, new.Reaches root id) ↔ ∃ root ∈ roots, old.Reaches root id := by
  constructor
  · rintro ⟨root, member, reaches⟩
    exact ⟨root, member, reaches.of_grown extended (inRange root member)⟩
  · rintro ⟨root, member, reaches⟩
    exact ⟨root, member, reaches.of_extends extended (inRange root member)⟩

theorem reachable?_of_extends {roots : List Nat} (inRange : ∀ root ∈ roots, root < old.size) :
    new.reachable? roots = old.reachable? roots := by
  obtain ⟨before, foundBefore, ascending, listed⟩ := reachable?_eq inRange
  have inRangeLater : ∀ root ∈ roots, root < new.size := fun root member =>
    Nat.lt_of_lt_of_le (inRange root member) (size_le_of_extends extended)
  obtain ⟨after, foundAfter, ascendingLater, listedLater⟩ := reachable?_eq inRangeLater
  have same : ∀ id, id ∈ after ↔ id ∈ before := fun id => by
    rw [listed, listedLater, exists_reaches_iff_of_extends extended inRange]
  rw [foundAfter, foundBefore, eq_of_ascending ascendingLater ascending same]

end Extends

structure SameAnswers (old new : Circuit) (id : Nat) : Prop where
  value : ∀ {T : Type} (domain : Domain T) (inputs : String → Option T),
    new.eval? domain inputs id = old.eval? domain inputs id
  depth : new.depth? id = old.depth? id
  rendering : new.render? id = old.render? id
  reachable : new.reachable? [id] = old.reachable? [id]

theorem sameAnswers_of_extends {old new : Circuit} (extended : old.Extends new) {id : Nat}
    (inRange : id < old.size) : old.SameAnswers new id where
  value domain inputs := eval?_of_extends domain inputs extended inRange
  depth := by
    obtain ⟨formula, denotes⟩ := old.formula?_of_lt_size inRange
    have hasDepth : old.HasDepth id formula.depth := ⟨formula, denotes, rfl⟩
    rw [hasDepth.depth?_eq, (hasDepth.of_extends extended).depth?_eq]
  rendering := by rw [render?_eq, render?_eq, formula?_of_extends extended inRange]
  reachable := reachable?_of_extends extended (List.forall_mem_singleton.mpr inRange)

end Circuit

end ArithCircuit
