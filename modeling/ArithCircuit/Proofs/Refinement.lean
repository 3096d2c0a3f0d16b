import ArithCircuit.Proofs.Chain
import ArithCircuit.Proofs.Equality
import ArithCircuit.Proofs.Evaluation
import Mathlib.Algebra.BigOperators.Group.List.Basic
import Mathlib.Algebra.Group.WithOne.Defs
import Mathlib.Algebra.Ring.Defs
import Mathlib.Data.UInt

set_option autoImplicit false

namespace ArithCircuit

variable {T : Type}

namespace Domain

structure Commutative (op : BinaryOp) (domain : Domain T) : Prop where
  assoc : ∀ x y z,
    domain.binary op (domain.binary op x y) z = domain.binary op x (domain.binary op y z)
  comm : ∀ x y, domain.binary op x y = domain.binary op y x

-- Nothing is asked of shifts, nor of the constants other than zero and one.
structure OverSemiring [CommSemiring T] (domain : Domain T) : Prop where
  add_eq : ∀ x y, domain.add x y = x + y
  mul_eq : ∀ x y, domain.mul x y = x * y
  lift_zero : domain.lift 0 = 0
  lift_one : domain.lift 1 = 1

def IsSemiring (domain : Domain T) : Prop := ∃ _ : CommSemiring T, domain.OverSemiring

theorem words_over_semiring : @OverSemiring UInt64 UInt64.instCommRing.toCommSemiring words :=
  let _ := UInt64.instCommRing.toCommSemiring
  ⟨fun _ _ => rfl, fun _ _ => rfl, rfl, rfl⟩

theorem OverSemiring.commutative [CommSemiring T] {domain : Domain T}
    (semiring : domain.OverSemiring) (op : BinaryOp) : domain.Commutative op := by
  cases op with
  | add =>
    refine ⟨fun x y z => ?_, fun x y => ?_⟩
    · simp only [binary, semiring.add_eq, add_assoc]
    · simp only [binary, semiring.add_eq, add_comm]
  | mul =>
    refine ⟨fun x y z => ?_, fun x y => ?_⟩
    · simp only [binary, semiring.mul_eq, mul_assoc]
    · simp only [binary, semiring.mul_eq, mul_comm]

theorem IsSemiring.commutative {domain : Domain T} (semiring : domain.IsSemiring) (op : BinaryOp) :
    domain.Commutative op := by
  obtain ⟨_, laws⟩ := semiring
  exact laws.commutative op

end Domain

namespace Formula

section Values

variable {domain : Domain T} {inputs : String → Option T}

abbrev Evaluates (domain : Domain T) (inputs : String → Option T) (formula : Formula) (value : T) :
    Prop :=
  formula.eval domain inputs = .ok value

theorem evaluates_binary {op : BinaryOp} {left right : Formula} {value : T} :
    (Formula.binary op left right).Evaluates domain inputs value ↔
      ∃ x y, left.Evaluates domain inputs x ∧ right.Evaluates domain inputs y ∧
        domain.binary op x y = value := by
  simp only [Evaluates, eval]
  cases right.eval domain inputs with
  | error => simp [bind, Except.bind]
  | ok y =>
    cases left.eval domain inputs with
    | error => simp [bind, Except.bind]
    | ok x => simp [bind, Except.bind, pure, Except.pure]

theorem evaluates_shift {direction : Direction} {operand : Formula} {amount : UInt64} {value : T} :
    (Formula.shift direction operand amount).Evaluates domain inputs value ↔
      ∃ x, operand.Evaluates domain inputs x ∧ domain.shift direction x amount = value := by
  simp only [Evaluates, eval]
  cases operand.eval domain inputs with
  | error => simp [bind, Except.bind]
  | ok x => simp [bind, Except.bind, pure, Except.pure]

-- The value of a chain is computed in a monoid that need not be the domain itself: an operation
-- without a neutral element is given one there.
section Folding

variable {M : Type} [Monoid M] {op : BinaryOp} {φ : T → M}

theorem Chain.value_of_evaluates (hom : ∀ x y, φ (domain.binary op x y) = φ x * φ y)
    {operands : List Formula} {formula : Formula} (chain : Chain op operands formula) {value : T}
    (evaluates : formula.Evaluates domain inputs value) :
    ∃ values, List.Forall₂ (Evaluates domain inputs) operands values ∧
      φ value = (values.map φ).prod := by
  induction chain generalizing value with
  | single formula => exact ⟨[value], .cons evaluates .nil, by simp⟩
  | join _ _ first second =>
    obtain ⟨x, y, leftEvaluates, rightEvaluates, rfl⟩ := evaluates_binary.mp evaluates
    obtain ⟨lefts, leftsEvaluate, leftValue⟩ := first leftEvaluates
    obtain ⟨rights, rightsEvaluate, rightValue⟩ := second rightEvaluates
    refine ⟨lefts ++ rights, List.rel_append leftsEvaluate rightsEvaluate, ?_⟩
    rw [hom, leftValue, rightValue, List.map_append, List.prod_append]

theorem Chain.evaluates_of_values (hom : ∀ x y, φ (domain.binary op x y) = φ x * φ y)
    {operands : List Formula} {formula : Formula} (chain : Chain op operands formula)
    {values : List T} (evaluate : List.Forall₂ (Evaluates domain inputs) operands values) :
    ∃ value, formula.Evaluates domain inputs value ∧ φ value = (values.map φ).prod := by
  induction chain generalizing values with
  | single formula =>
    obtain _ | ⟨evaluates, ⟨⟩⟩ := evaluate
    exact ⟨_, evaluates, by simp⟩
  | join _ _ first second =>
    obtain ⟨lefts, rights, rfl, leftsEvaluate, rightsEvaluate⟩ := forall₂_split evaluate
    obtain ⟨x, leftEvaluates, leftValue⟩ := first leftsEvaluate
    obtain ⟨y, rightEvaluates, rightValue⟩ := second rightsEvaluate
    refine ⟨_, evaluates_binary.mpr ⟨x, y, leftEvaluates, rightEvaluates, rfl⟩, ?_⟩
    rw [hom, leftValue, rightValue, ← List.prod_append, ← List.map_append]

end Folding

theorem Chain.evaluates_of_perm {op : BinaryOp} (commutative : domain.Commutative op)
    {operands forms leaves : List Formula} {formula form : Formula}
    (chain : Chain op operands formula) (replaced : List.Forall₂ (fun operand form => ∀ value,
      operand.Evaluates domain inputs value → form.Evaluates domain inputs value) operands forms)
    (reordered : leaves.Perm forms) (rebuilt : Chain op leaves form) {value : T}
    (evaluates : formula.Evaluates domain inputs value) : form.Evaluates domain inputs value := by
  let _ : CommSemigroup T :=
    { mul := domain.binary op, mul_assoc := commutative.assoc, mul_comm := commutative.comm }
  have hom : ∀ x y, (domain.binary op x y : WithOne T) = (x : WithOne T) * (y : WithOne T) :=
    fun x y => WithOne.coe_mul x y
  obtain ⟨values, operandsEvaluate, valueEq⟩ := chain.value_of_evaluates hom evaluates
  have formsEvaluate := forall₂_trans
    (fun form operand x implies operandEvaluates => implies x operandEvaluates)
    replaced.flip operandsEvaluate
  obtain ⟨moved, leavesEvaluate, movedPerm⟩ := List.perm_comp_forall₂ reordered formsEvaluate
  obtain ⟨other, formEvaluates, otherEq⟩ := rebuilt.evaluates_of_values hom leavesEvaluate
  have same : (other : WithOne T) = value := by
    rw [otherEq, valueEq]
    exact (movedPerm.map _).prod_eq
  obtain rfl := WithOne.coe_inj.mp same
  exact formEvaluates

theorem Product.evaluates_iff [CommMonoid T] (mulEq : ∀ x y, domain.mul x y = x * y)
    (liftOne : domain.lift 1 = 1) {factors : List Formula} {product : Formula}
    (holds : Product factors product) {value : T} :
    product.Evaluates domain inputs value ↔
      ∃ values, List.Forall₂ (Evaluates domain inputs) factors values ∧ values.prod = value := by
  have hom : ∀ x y, id (domain.binary .mul x y) = id x * id y := mulEq
  cases holds with
  | inl none =>
    obtain ⟨rfl, rfl⟩ := none
    rw [Evaluates, eval, liftOne, Except.ok.injEq]
    simp
  | inr some =>
    obtain ⟨leaves, reordered, chain⟩ := some
    constructor
    · intro evaluates
      obtain ⟨moved, leavesEvaluate, valueEq⟩ := chain.value_of_evaluates hom evaluates
      obtain ⟨values, evaluate, valuesPerm⟩ :=
        List.perm_comp_forall₂ reordered.symm leavesEvaluate
      refine ⟨values, evaluate, ?_⟩
      rw [valuesPerm.prod_eq, ← List.map_id moved]
      exact valueEq.symm
    · rintro ⟨values, evaluate, rfl⟩
      obtain ⟨moved, leavesEvaluate, movedPerm⟩ := List.perm_comp_forall₂ reordered evaluate
      obtain ⟨value, evaluates, valueEq⟩ := chain.evaluates_of_values hom leavesEvaluate
      rw [List.map_id, movedPerm.prod_eq] at valueEq
      exact valueEq ▸ evaluates

theorem Similar.evaluates (comm : ∀ op x y, domain.binary op x y = domain.binary op y x)
    {first second : Formula} (similar : first.Similar second) {value : T}
    (evaluates : first.Evaluates domain inputs value) : second.Evaluates domain inputs value := by
  induction first generalizing second value with
  | constant v =>
    cases second with
    | constant w =>
      cases similar
      exact evaluates
    | input | binary | shift => exact similar.elim
  | input m =>
    cases second with
    | input n =>
      cases similar
      exact evaluates
    | constant | binary | shift => exact similar.elim
  | binary op a b ihA ihB =>
    cases second with
    | binary op' a' b' =>
      obtain ⟨x, y, aEvaluates, bEvaluates, rfl⟩ := evaluates_binary.mp evaluates
      obtain ⟨rfl, ⟨straightA, straightB⟩ | ⟨crossedA, crossedB⟩⟩ := similar
      · exact evaluates_binary.mpr
          ⟨x, y, ihA straightA aEvaluates, ihB straightB bEvaluates, rfl⟩
      · exact evaluates_binary.mpr
          ⟨y, x, ihB crossedB bEvaluates, ihA crossedA aEvaluates, comm op y x⟩
    | constant | input | shift => exact similar.elim
  | shift direction a amount ih =>
    cases second with
    | shift direction' a' amount' =>
      obtain ⟨x, aEvaluates, rfl⟩ := evaluates_shift.mp evaluates
      obtain ⟨⟨rfl, rfl⟩, inner⟩ := similar
      exact evaluates_shift.mpr ⟨x, ih inner aEvaluates, rfl⟩
    | constant | input | binary => exact similar.elim

section Semiring

variable [CommSemiring T] {first second : Formula} {x y : T}

theorem evaluates_plus (semiring : domain.OverSemiring)
    (left : first.Evaluates domain inputs x) (right : second.Evaluates domain inputs y) :
    (first.plus second).Evaluates domain inputs (x + y) := by
  unfold plus
  by_cases zero : first = .constant 0
  · rw [if_pos zero]
    subst zero
    have known : x = 0 := by
      rw [← semiring.lift_zero]
      exact (Except.ok.inj left).symm
    rw [known, zero_add]
    exact right
  · rw [if_neg zero]
    exact evaluates_binary.mpr ⟨x, y, left, right, semiring.add_eq x y⟩

theorem evaluates_times (semiring : domain.OverSemiring)
    (left : first.Evaluates domain inputs x) (right : second.Evaluates domain inputs y) :
    (first.times second).Evaluates domain inputs (x * y) := by
  unfold times
  by_cases zero : first = .constant 0
  · rw [if_pos zero]
    subst zero
    have known : x = 0 := by
      rw [← semiring.lift_zero]
      exact (Except.ok.inj left).symm
    rw [known, zero_mul, ← known]
    exact left
  · rw [if_neg zero]
    by_cases one : first = .constant 1
    · rw [if_pos one]
      subst one
      have known : x = 1 := by
        rw [← semiring.lift_one]
        exact (Except.ok.inj left).symm
      rw [known, one_mul]
      exact right
    · rw [if_neg one]
      exact evaluates_binary.mpr ⟨x, y, left, right, semiring.mul_eq x y⟩

end Semiring

end Values

inductive Layer (R : Formula → Formula → Prop) : Formula → Formula → Prop where
  | constant (value : UInt64) : Layer R (.constant value) (.constant value)
  | input (name : String) : Layer R (.input name) (.input name)
  | binary (op : BinaryOp) {a b a' b' : Formula} (left : R a a') (right : R b b') :
      Layer R (.binary op a b) (.binary op a' b')
  | shift (direction : Direction) (amount : UInt64) {a a' : Formula} (operand : R a a') :
      Layer R (.shift direction a amount) (.shift direction a' amount)

theorem Layer.mono {R Q : Formula → Formula → Prop} {formula result : Formula}
    (layer : Layer R formula result) (implies : ∀ a b, R a b → Q a b) : Layer Q formula result := by
  cases layer with
  | constant value => exact .constant value
  | input name => exact .input name
  | binary op left right => exact .binary op (implies _ _ left) (implies _ _ right)
  | shift direction amount operand => exact .shift direction amount (implies _ _ operand)

def Congruence (R : Formula → Formula → Prop) : Prop :=
  ∀ {formula result : Formula}, Layer R formula result → R formula result

theorem Congruence.refl {R : Formula → Formula → Prop} (congruence : Congruence R)
    (formula : Formula) : R formula formula := by
  induction formula with
  | constant value => exact congruence (.constant value)
  | input name => exact congruence (.input name)
  | binary op left right leftRefl rightRefl => exact congruence (.binary op leftRefl rightRefl)
  | shift direction operand amount operandRefl =>
    exact congruence (.shift direction amount operandRefl)

theorem similar_congruence : Congruence Similar := by
  intro formula result layer
  cases layer with
  | constant value => exact .refl (.constant value)
  | input name => exact .refl (.input name)
  | binary op left right => exact ⟨rfl, .inl ⟨left, right⟩⟩
  | shift direction amount operand => exact ⟨⟨rfl, rfl⟩, operand⟩

-- A form may have more values, since an absorbed or factored operand is no longer looked at.
def Refines (laws : ∀ {T : Type}, Domain T → Prop) (formula form : Formula) : Prop :=
  ∀ (T : Type) (domain : Domain T), laws domain → ∀ inputs value,
    formula.Evaluates domain inputs value → form.Evaluates domain inputs value

variable {laws stricter : ∀ {T : Type}, Domain T → Prop}

theorem Refines.trans {first second third : Formula} (start : Refines laws first second)
    (next : Refines laws second third) : Refines laws first third :=
  fun T domain holds inputs value evaluates =>
    next T domain holds inputs value (start T domain holds inputs value evaluates)

theorem Refines.mono (implies : ∀ {T : Type} (domain : Domain T), stricter domain → laws domain)
    {first second : Formula} (refines : Refines laws first second) :
    Refines stricter first second :=
  fun T domain holds => refines T domain (implies domain holds)

theorem refines_congruence : Congruence (Refines laws) := by
  intro formula result layer T domain holds inputs value evaluates
  cases layer with
  | constant => exact evaluates
  | input => exact evaluates
  | binary op left right =>
    obtain ⟨x, y, aEvaluates, bEvaluates, same⟩ := evaluates_binary.mp evaluates
    exact evaluates_binary.mpr ⟨x, y, left T domain holds inputs x aEvaluates,
      right T domain holds inputs y bEvaluates, same⟩
  | shift direction amount operand =>
    obtain ⟨x, aEvaluates, same⟩ := evaluates_shift.mp evaluates
    exact evaluates_shift.mpr ⟨x, operand T domain holds inputs x aEvaluates, same⟩

theorem Similar.refines {first second : Formula} (similar : first.Similar second) :
    Refines Domain.IsSemiring first second :=
  fun _ _ semiring _ _ evaluates =>
    similar.evaluates (fun op => (semiring.commutative op).comm) evaluates

end Formula

end ArithCircuit
