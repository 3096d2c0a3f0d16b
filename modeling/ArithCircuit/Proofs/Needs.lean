import ArithCircuit.Proofs.Reachable
import ArithCircuit.Proofs.Refinement

set_option autoImplicit false

namespace ArithCircuit

namespace Formula

def Needs : Formula → String → Prop
  | .constant _, _ => False
  | .input other, name => other = name
  | .binary _ left right, name => left.Needs name ∨ right.Needs name
  | .shift _ operand _, name => operand.Needs name

section Values

variable {T : Type} {domain : Domain T} {inputs : String → Option T}

theorem bound_of_evaluates {formula : Formula} {value : T}
    (evaluates : formula.Evaluates domain inputs value) {name : String}
    (needed : formula.Needs name) : ∃ x, inputs name = some x := by
  induction formula generalizing value with
  | constant => exact needed.elim
  | input other =>
    subst needed
    cases found : inputs other with
    | some x => exact ⟨x, rfl⟩
    | none => simp [Evaluates, eval, found] at evaluates
  | binary op left right leftBound rightBound =>
    obtain ⟨x, y, leftEvaluates, rightEvaluates, _⟩ := evaluates_binary.mp evaluates
    cases needed with
    | inl inLeft => exact leftBound leftEvaluates inLeft
    | inr inRight => exact rightBound rightEvaluates inRight
  | shift direction operand amount operandBound =>
    obtain ⟨x, operandEvaluates, _⟩ := evaluates_shift.mp evaluates
    exact operandBound operandEvaluates needed

theorem evaluates_or_misses (domain : Domain T) (inputs : String → Option T) (formula : Formula) :
    (∃ value, formula.Evaluates domain inputs value) ∨
      ∃ name, formula.eval domain inputs = .error (.missingInput name) ∧ formula.Needs name ∧
        inputs name = none := by
  induction formula with
  | constant value => exact .inl ⟨domain.lift value, rfl⟩
  | input name =>
    cases found : inputs name with
    | some x => exact .inl ⟨x, by simp [Evaluates, eval, found]⟩
    | none => exact .inr ⟨name, by simp [eval, found], rfl, found⟩
  | binary op left right leftCases rightCases =>
    cases rightCases with
    | inr rightMisses =>
      obtain ⟨name, fails, needed, unbound⟩ := rightMisses
      exact .inr ⟨name, by simp [eval, fails, bind, Except.bind], .inr needed, unbound⟩
    | inl rightHasValue =>
      obtain ⟨y, rightEvaluates⟩ := rightHasValue
      cases leftCases with
      | inr leftMisses =>
        obtain ⟨name, fails, needed, unbound⟩ := leftMisses
        have rightGives : right.eval domain inputs = .ok y := rightEvaluates
        exact .inr ⟨name, by simp [eval, rightGives, fails, bind, Except.bind], .inl needed, unbound⟩
      | inl leftHasValue =>
        obtain ⟨x, leftEvaluates⟩ := leftHasValue
        exact .inl ⟨_, evaluates_binary.mpr ⟨x, y, leftEvaluates, rightEvaluates, rfl⟩⟩
  | shift direction operand amount operandCases =>
    cases operandCases with
    | inl hasValue =>
      obtain ⟨x, operandEvaluates⟩ := hasValue
      exact .inl ⟨_, evaluates_shift.mpr ⟨x, operandEvaluates, rfl⟩⟩
    | inr misses =>
      obtain ⟨name, fails, needed, unbound⟩ := misses
      exact .inr ⟨name, by simp [eval, fails, bind, Except.bind], needed, unbound⟩

theorem evaluates_of_bound_needs {formula : Formula}
    (bound : ∀ name, formula.Needs name → ∃ x, inputs name = some x) :
    ∃ value, formula.Evaluates domain inputs value := by
  cases evaluates_or_misses domain inputs formula with
  | inl hasValue => exact hasValue
  | inr misses =>
    obtain ⟨name, _, needed, unbound⟩ := misses
    obtain ⟨x, found⟩ := bound name needed
    rw [unbound] at found
    contradiction

theorem misses_iff {formula : Formula} :
    (∃ name, formula.eval domain inputs = .error (.missingInput name)) ↔
      ∃ name, formula.Needs name ∧ inputs name = none := by
  constructor
  · intro fails
    cases evaluates_or_misses domain inputs formula with
    | inl hasValue =>
      obtain ⟨_, error⟩ := fails
      obtain ⟨value, evaluates⟩ := hasValue
      cases error.symm.trans evaluates
    | inr misses =>
      obtain ⟨name, _, needed, unbound⟩ := misses
      exact ⟨name, needed, unbound⟩
  · intro lacks
    obtain ⟨name, needed, unbound⟩ := lacks
    cases evaluates_or_misses domain inputs formula with
    | inl hasValue =>
      obtain ⟨value, evaluates⟩ := hasValue
      obtain ⟨x, found⟩ := bound_of_evaluates evaluates needed
      rw [unbound] at found
      contradiction
    | inr misses =>
      obtain ⟨first, fails, _⟩ := misses
      exact ⟨first, fails⟩

end Values

-- With everything else bound, a formula that does not need an input has a value without it.
theorem Refines.needs {laws : ∀ {T : Type}, Domain T → Prop} {formula form : Formula}
    (refines : Refines laws formula form) (lawful : laws Domain.words) {name : String}
    (needed : form.Needs name) : formula.Needs name := by
  by_cases also : formula.Needs name
  · exact also
  · let inputs := fun other : String => if other = name then none else some (0 : UInt64)
    have bound : ∀ other, formula.Needs other → ∃ x, inputs other = some x := by
      intro other otherNeeded
      by_cases same : other = name
      · exact absurd (same ▸ otherNeeded) also
      · exact ⟨0, if_neg same⟩
    obtain ⟨value, evaluates⟩ : ∃ value, formula.Evaluates .words inputs value :=
      evaluates_of_bound_needs bound
    obtain ⟨x, found⟩ :=
      bound_of_evaluates (refines UInt64 .words lawful inputs value evaluates) needed
    simp [inputs] at found

def Retains (formula form : Formula) : Prop := ∀ name, formula.Needs name → form.Needs name

theorem Retains.trans {first second third : Formula} (start : Retains first second)
    (next : Retains second third) : Retains first third :=
  fun name needed => next name (start name needed)

theorem retains_congruence : Congruence Retains := by
  intro formula form layer name needed
  cases layer with
  | constant => exact needed
  | input => exact needed
  | binary op left right => exact needed.imp (left name) (right name)
  | shift direction amount operand => exact operand name needed

theorem Similar.retains {first second : Formula} (similar : first.Similar second) :
    Retains first second :=
  fun _ => similar.symm.refines.needs ⟨_, Domain.words_over_semiring⟩

theorem Similar.needs_iff {first second : Formula} (similar : first.Similar second)
    (name : String) : second.Needs name ↔ first.Needs name :=
  ⟨similar.symm.retains name, similar.retains name⟩

theorem Chain.needs_iff {op : BinaryOp} {operands : List Formula} {formula : Formula}
    (chain : Chain op operands formula) {name : String} :
    formula.Needs name ↔ ∃ operand ∈ operands, operand.Needs name := by
  induction chain with
  | single formula => simp
  | join _ _ first second =>
    simp only [Needs, first, second, List.mem_append, or_and_right, exists_or]

theorem Chain.retains_of_perm {op : BinaryOp} {operands forms leaves : List Formula}
    {formula form : Formula} (chain : Chain op operands formula)
    (retained : List.Forall₂ Retains operands forms) (reordered : leaves.Perm forms)
    (rebuilt : Chain op leaves form) : Retains formula form := by
  intro name needed
  obtain ⟨operand, member, operandNeeds⟩ := chain.needs_iff.mp needed
  obtain ⟨result, isForm, retains⟩ := exists_of_mem_forall₂ retained.flip member
  exact rebuilt.needs_iff.mpr ⟨result, reordered.mem_iff.mpr isForm, retains name operandNeeds⟩

theorem needs_plus {first second : Formula} {name : String} :
    (first.plus second).Needs name ↔ first.Needs name ∨ second.Needs name := by
  unfold plus
  by_cases zero : first = .constant 0
  · simp [zero, Needs]
  · simp [if_neg zero, Needs]

-- The zero absorbs what it is multiplied by, so nothing may be lost with it.
theorem needs_times {first second : Formula} (other : first ≠ .constant 0) {name : String} :
    (first.times second).Needs name ↔ first.Needs name ∨ second.Needs name := by
  unfold times
  by_cases one : first = .constant 1
  · simp [one, Needs]
  · simp [if_neg other, if_neg one, Needs]

end Formula

namespace Circuit

variable {circuit : Circuit} {root : Nat}

def Needs (circuit : Circuit) (root : Nat) (name : String) : Prop :=
  ∃ id, circuit.Reaches root id ∧ circuit.node? id = some (.input name)

def Misses {T : Type} (circuit : Circuit) (domain : Domain T) (inputs : String → Option T)
    (root : Nat) : Prop :=
  ∃ name, circuit.eval? domain inputs root = some (.error (.missingInput name))

theorem needs_of_node? {id : Nat} {node : Node} (found : circuit.node? id = some node)
    {name : String} : circuit.Needs id name ↔
      node = .input name ∨ ∃ child ∈ node.children, circuit.Needs child name := by
  constructor
  · intro needed
    obtain ⟨target, reaches, isInput⟩ := needed
    cases reaches with
    | refl => exact .inl (Option.some.inj (found.symm.trans isInput))
    | step member rest =>
      rw [children_of_node? found] at member
      exact .inr ⟨_, member, target, rest, isInput⟩
  · intro either
    cases either with
    | inl isInput => exact ⟨id, .refl id, isInput ▸ found⟩
    | inr below =>
      obtain ⟨child, member, target, reaches, isInput⟩ := below
      rw [← children_of_node? found] at member
      exact ⟨target, .step member reaches, isInput⟩

theorem needs_iff {formula : Formula} (denotes : circuit.Denotes root formula) {name : String} :
    circuit.Needs root name ↔ formula.Needs name := by
  induction denotes using denotes_induction with
  | constant _ found | input _ found =>
    simp [needs_of_node? found, Node.children, Formula.Needs]
  | binary _ found _ _ firstNeeds secondNeeds =>
    simp [needs_of_node? found, Node.children, Formula.Needs, firstNeeds, secondNeeds]
  | shift _ found _ innerNeeds =>
    simp [needs_of_node? found, Node.children, Formula.Needs, innerNeeds]

theorem misses_iff {T : Type} {domain : Domain T} {inputs : String → Option T} {formula : Formula}
    (denotes : circuit.Denotes root formula) :
    circuit.Misses domain inputs root ↔ ∃ name, circuit.Needs root name ∧ inputs name = none := by
  simp only [Misses, eval?_of_denotes domain inputs denotes, Option.some.injEq,
    Formula.misses_iff, needs_iff denotes]

end Circuit

end ArithCircuit
