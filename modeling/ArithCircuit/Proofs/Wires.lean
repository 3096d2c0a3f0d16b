import ArithCircuit.Proofs.Needs
import ArithCircuit.Workspace

set_option autoImplicit false

namespace ArithCircuit

structure Reading (T : Type) where
  domain : Domain T
  inputs : String → Option T
  bit : T → Bool
  bit_add : ∀ x y, bit (domain.add x y) = xor (bit x) (bit y)
  bit_mul : ∀ x y, bit (domain.mul x y) = (bit x && bit y)
  bit_zero : bit (domain.lift 0) = false
  bit_one : bit (domain.lift 1) = true

namespace Reading

variable {T : Type}

def ofBits (inputs : String → Option Bool) : Reading Bool where
  domain := .bits
  inputs := inputs
  bit value := value
  bit_add _ _ := rfl
  bit_mul _ _ := rfl
  bit_zero := rfl
  bit_one := rfl

def Reads (reading : Reading T) (formula : Formula) (bit : Bool) : Prop :=
  ∃ value, formula.Evaluates reading.domain reading.inputs value ∧ reading.bit value = bit

variable {reading : Reading T} {first second : Formula} {a b : Bool}

theorem reads_zero (reading : Reading T) : reading.Reads (.constant 0) false :=
  ⟨_, rfl, reading.bit_zero⟩

theorem reads_one (reading : Reading T) : reading.Reads (.constant 1) true :=
  ⟨_, rfl, reading.bit_one⟩

theorem Reads.unique (left : reading.Reads first a) (right : reading.Reads first b) : a = b := by
  obtain ⟨x, leftEvaluates, rfl⟩ := left
  obtain ⟨y, rightEvaluates, rfl⟩ := right
  cases leftEvaluates.symm.trans rightEvaluates
  rfl

theorem reads_plus (left : reading.Reads first a) (right : reading.Reads second b) :
    reading.Reads (first.plus second) (xor a b) := by
  unfold Formula.plus
  by_cases zero : first = .constant 0
  · rw [if_pos zero]
    subst zero
    cases left.unique reading.reads_zero
    simpa using right
  · rw [if_neg zero]
    obtain ⟨x, leftEvaluates, rfl⟩ := left
    obtain ⟨y, rightEvaluates, rfl⟩ := right
    exact ⟨_, Formula.evaluates_binary.mpr ⟨x, y, leftEvaluates, rightEvaluates, rfl⟩,
      reading.bit_add x y⟩

theorem reads_times (left : reading.Reads first a) (right : reading.Reads second b) :
    reading.Reads (first.times second) (a && b) := by
  unfold Formula.times
  by_cases zero : first = .constant 0
  · rw [if_pos zero]
    subst zero
    cases left.unique reading.reads_zero
    exact left
  · rw [if_neg zero]
    by_cases one : first = .constant 1
    · rw [if_pos one]
      subst one
      cases left.unique reading.reads_one
      exact right
    · rw [if_neg one]
      obtain ⟨x, leftEvaluates, rfl⟩ := left
      obtain ⟨y, rightEvaluates, rfl⟩ := right
      exact ⟨_, Formula.evaluates_binary.mpr ⟨x, y, leftEvaluates, rightEvaluates, rfl⟩,
        reading.bit_mul x y⟩

end Reading

namespace Workspace

variable {T : Type}

def Extends (old new : Workspace) : Prop :=
  ∀ index circuit, old.circuit? index = some circuit →
    ∃ grown, new.circuit? index = some grown ∧ circuit.Extends grown

theorem extends_refl (workspace : Workspace) : workspace.Extends workspace :=
  fun _ circuit held => ⟨circuit, held, circuit.extends_refl⟩

theorem Extends.trans {first second third : Workspace} (start : first.Extends second)
    (next : second.Extends third) : first.Extends third := by
  intro index circuit held
  obtain ⟨grown, heldLater, extended⟩ := start index circuit held
  obtain ⟨last, heldLast, further⟩ := next index grown heldLater
  exact ⟨last, heldLast, Circuit.extends_trans extended further⟩

def Holds (workspace : Workspace) (index : Nat) : Prop :=
  ∃ circuit, workspace.circuit? index = some circuit

theorem Holds.of_extends {old new : Workspace} (extended : old.Extends new) {index : Nat}
    (holds : old.Holds index) : new.Holds index := by
  obtain ⟨circuit, held⟩ := holds
  obtain ⟨grown, heldLater, _⟩ := extended index circuit held
  exact ⟨grown, heldLater⟩

def Reads (workspace : Workspace) (reading : Reading T) (index : Nat) (wire : Wire) (bit : Bool) :
    Prop :=
  wire.circuit = index ∧ ∃ circuit formula, workspace.circuit? index = some circuit ∧
    circuit.Denotes wire.node formula ∧ reading.Reads formula bit

theorem Reads.of_extends {old new : Workspace} (extended : old.Extends new) {reading : Reading T}
    {index : Nat} {wire : Wire} {bit : Bool} (reads : old.Reads reading index wire bit) :
    new.Reads reading index wire bit := by
  obtain ⟨own, circuit, formula, held, denotes, formulaReads⟩ := reads
  obtain ⟨grown, heldLater, further⟩ := extended index circuit held
  exact ⟨own, grown, formula, heldLater, Circuit.denotes_of_extends further denotes, formulaReads⟩

abbrev ReadsAll (workspace : Workspace) (reading : Reading T) (index : Nat) :
    List Wire → List Bool → Prop :=
  List.Forall₂ (workspace.Reads reading index)

theorem ReadsAll.of_extends {old new : Workspace} (extended : old.Extends new) {reading : Reading T}
    {index : Nat} {wires : List Wire} {bits : List Bool}
    (reads : old.ReadsAll reading index wires bits) : new.ReadsAll reading index wires bits :=
  reads.imp fun _ _ => Reads.of_extends extended

theorem Reads.holds {workspace : Workspace} {reading : Reading T} {index : Nat} {wire : Wire}
    {bit : Bool} (reads : workspace.Reads reading index wire bit) : workspace.Holds index := by
  obtain ⟨_, circuit, _, held, _⟩ := reads
  exact ⟨circuit, held⟩

def eval? (workspace : Workspace) (domain : Domain T) (inputs : String → Option T) (wire : Wire) :
    Option (Except Error T) :=
  (workspace.circuit? wire.circuit).bind fun circuit => circuit.eval? domain inputs wire.node

def Owns (workspace : Workspace) (index : Nat) (wire : Wire) : Prop :=
  wire.circuit = index ∧ ∃ circuit, workspace.circuit? index = some circuit ∧ wire.node < circuit.size

theorem Reads.owns {workspace : Workspace} {reading : Reading T} {index : Nat} {wire : Wire}
    {bit : Bool} (reads : workspace.Reads reading index wire bit) : workspace.Owns index wire := by
  obtain ⟨own, circuit, _, held, denotes, _⟩ := reads
  exact ⟨own, circuit, held, Circuit.lt_size_of_denotes denotes⟩

theorem Reads.evaluates {workspace : Workspace} {reading : Reading T} {index : Nat} {wire : Wire}
    {bit : Bool} (reads : workspace.Reads reading index wire bit) :
    ∃ value, workspace.eval? reading.domain reading.inputs wire = some (.ok value) ∧
      reading.bit value = bit := by
  obtain ⟨rfl, circuit, formula, held, denotes, value, evaluates, rfl⟩ := reads
  refine ⟨value, ?_, rfl⟩
  rw [eval?, held, Option.bind_some, Circuit.eval?_of_denotes _ _ denotes, evaluates]

theorem Owns.reads {workspace : Workspace} {index : Nat} {wire : Wire}
    (owns : workspace.Owns index wire) (reading : Reading T) {value : T}
    (evaluates : workspace.eval? reading.domain reading.inputs wire = some (.ok value)) :
    workspace.Reads reading index wire (reading.bit value) := by
  obtain ⟨rfl, circuit, held, inRange⟩ := owns
  obtain ⟨formula, denotes⟩ := circuit.formula?_of_lt_size inRange
  rw [eval?, held, Option.bind_some, Circuit.eval?_of_denotes _ _ denotes] at evaluates
  exact ⟨rfl, circuit, formula, held, denotes, value, Option.some.inj evaluates, rfl⟩

def Binds (workspace : Workspace) (inputs : String → Option T) (wire : Wire) : Prop :=
  ∀ circuit, workspace.circuit? wire.circuit = some circuit →
    ∀ name, circuit.Needs wire.node name → ∃ value, inputs name = some value

theorem binds_of_bound {inputs : String → Option T} (bound : ∀ name, ∃ value, inputs name = some value)
    (workspace : Workspace) (wire : Wire) : workspace.Binds inputs wire :=
  fun _ _ name _ => bound name

theorem binds_constant (value : T) (workspace : Workspace) (wire : Wire) :
    workspace.Binds (fun _ => some value) wire :=
  binds_of_bound (fun _ => ⟨value, rfl⟩) workspace wire

theorem Owns.binds_iff {workspace : Workspace} {index : Nat} {wire : Wire}
    (owns : workspace.Owns index wire) (domain : Domain T) (inputs : String → Option T) :
    workspace.Binds inputs wire ↔
      ∃ value, workspace.eval? domain inputs wire = some (.ok value) := by
  obtain ⟨rfl, circuit, held, inRange⟩ := owns
  obtain ⟨formula, denotes⟩ := circuit.formula?_of_lt_size inRange
  rw [eval?, held, Option.bind_some, Circuit.eval?_of_denotes domain inputs denotes]
  constructor
  · intro binds
    obtain ⟨value, evaluates⟩ : ∃ value, formula.Evaluates domain inputs value :=
      Formula.evaluates_of_bound_needs fun name needed =>
        binds circuit held name ((Circuit.needs_iff denotes).mpr needed)
    exact ⟨value, congrArg some evaluates⟩
  · rintro ⟨value, evaluates⟩ other also name needed
    cases held.symm.trans also
    exact Formula.bound_of_evaluates (Option.some.inj evaluates)
      ((Circuit.needs_iff denotes).mp needed)

theorem Owns.reads_of_binds {workspace : Workspace} {index : Nat} {wire : Wire}
    (owns : workspace.Owns index wire) {reading : Reading T}
    (binds : workspace.Binds reading.inputs wire) :
    ∃ bit, workspace.Reads reading index wire bit := by
  obtain ⟨value, evaluates⟩ := (owns.binds_iff reading.domain reading.inputs).mp binds
  exact ⟨reading.bit value, owns.reads reading evaluates⟩

theorem Owns.reads_of_bound {workspace : Workspace} {index : Nat} {wire : Wire}
    (owns : workspace.Owns index wire) {reading : Reading T}
    (bound : ∀ name, ∃ value, reading.inputs name = some value) :
    ∃ bit, workspace.Reads reading index wire bit :=
  owns.reads_of_binds (binds_of_bound bound workspace wire)

theorem ReadsAll.own {workspace : Workspace} {reading : Reading T} {index : Nat} {wires : List Wire}
    {bits : List Bool} (reads : workspace.ReadsAll reading index wires bits) :
    ∀ wire ∈ wires, workspace.Owns index wire := by
  intro wire member
  obtain ⟨_, _, here⟩ := exists_of_mem_forall₂ reads.flip member
  exact Reads.owns here

abbrev EvaluateTo (workspace : Workspace) (inputs : String → Option Bool) :
    List Wire → List Bool → Prop :=
  List.Forall₂ fun wire bit => workspace.eval? .bits inputs wire = some (.ok bit)

theorem Reads.evaluate {workspace : Workspace} {inputs : String → Option Bool} {index : Nat}
    {wire : Wire} {bit : Bool} (reads : workspace.Reads (.ofBits inputs) index wire bit) :
    workspace.eval? .bits inputs wire = some (.ok bit) := by
  obtain ⟨value, evaluates, rfl⟩ := reads.evaluates
  exact evaluates

theorem ReadsAll.evaluate {workspace : Workspace} {inputs : String → Option Bool} {index : Nat}
    {wires : List Wire} {bits : List Bool}
    (reads : workspace.ReadsAll (.ofBits inputs) index wires bits) :
    workspace.EvaluateTo inputs wires bits :=
  reads.imp fun _ _ => Reads.evaluate

theorem EvaluateTo.reads {workspace : Workspace} {inputs : String → Option Bool} {index : Nat}
    {wires : List Wire} {bits : List Bool} (evaluate : workspace.EvaluateTo inputs wires bits)
    (own : ∀ wire ∈ wires, workspace.Owns index wire) :
    workspace.ReadsAll (.ofBits inputs) index wires bits :=
  ((List.forall₂_and_left _ _).mpr ⟨own, evaluate⟩).imp fun _ _ here =>
    here.1.reads (.ofBits inputs) here.2

abbrev BindsAll (workspace : Workspace) (inputs : String → Option Bool) (wires : List Wire) : Prop :=
  ∀ wire ∈ wires, workspace.Binds inputs wire

theorem EvaluateTo.unique {workspace : Workspace} {inputs : String → Option Bool}
    {wires : List Wire} {first second : List Bool} (left : workspace.EvaluateTo inputs wires first)
    (right : workspace.EvaluateTo inputs wires second) : first = second := by
  have functional : Relator.RightUnique fun wire bit =>
      workspace.eval? .bits inputs wire = some (.ok bit) := by
    intro wire bit other evaluates also
    cases evaluates.symm.trans also
    rfl
  exact List.right_unique_forall₂' functional left right

theorem EvaluateTo.binds {workspace : Workspace} {inputs : String → Option Bool} {index : Nat}
    {wires : List Wire} {bits : List Bool}
    (evaluate : workspace.EvaluateTo inputs wires bits)
    (own : ∀ wire ∈ wires, workspace.Owns index wire) : workspace.BindsAll inputs wires := by
  intro wire member
  obtain ⟨bit, _, evaluates⟩ := exists_of_mem_forall₂ evaluate.flip member
  exact ((own wire member).binds_iff .bits inputs).mpr ⟨bit, evaluates⟩

theorem exists_readsAll_of_binds {workspace : Workspace} {index : Nat} {wires : List Wire}
    {inputs : String → Option Bool} (own : ∀ wire ∈ wires, workspace.Owns index wire)
    (binds : ∀ wire ∈ wires, workspace.Binds inputs wire) :
    ∃ bits, workspace.ReadsAll (.ofBits inputs) index wires bits :=
  exists_forall₂ fun wire member =>
    (own wire member).reads_of_binds (binds wire member)

theorem exists_readsAll {workspace : Workspace} {index : Nat} {wires : List Wire}
    (own : ∀ wire ∈ wires, workspace.Owns index wire) :
    ∃ bits, workspace.ReadsAll (.ofBits fun _ => some false) index wires bits :=
  exists_readsAll_of_binds own fun wire _ => binds_constant false workspace wire

theorem circuit?_put {workspace : Workspace} {index : Nat} {circuit : Circuit}
    (held : workspace.circuit? index = some circuit) (grown : Circuit) (other : Nat) :
    (workspace.put index grown).circuit? other =
      if index = other then some grown else workspace.circuit? other := by
  obtain ⟨inRange, _⟩ := Array.getElem?_eq_some_iff.mp held
  unfold put circuit?
  rw [Array.getElem?_setIfInBounds]
  simp only [inRange, if_true]

theorem extends_put {workspace : Workspace} {index : Nat} {circuit grown : Circuit}
    (held : workspace.circuit? index = some circuit) (extended : circuit.Extends grown) :
    workspace.Extends (workspace.put index grown) := by
  intro other before heldBefore
  rw [circuit?_put held]
  by_cases same : index = other
  · subst same
    cases held.symm.trans heldBefore
    exact ⟨grown, if_pos rfl, extended⟩
  · exact ⟨before, by rw [if_neg same]; exact heldBefore, before.extends_refl⟩

end Workspace

end ArithCircuit
