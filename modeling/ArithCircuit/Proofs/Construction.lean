import ArithCircuit.Proofs.Building
import ArithCircuit.Proofs.Needs

set_option autoImplicit false

namespace ArithCircuit

namespace Formula

variable {T : Type} {domain : Domain T} {inputs : String → Option T}

def folded : BinaryOp → Formula → Formula → Formula
  | .add => plus
  | .mul => times

theorem evaluates_folded [CommSemiring T] (laws : domain.OverSemiring) (op : BinaryOp)
    {first second : Formula} {x y : T} (left : first.Evaluates domain inputs x)
    (right : second.Evaluates domain inputs y) :
    (folded op first second).Evaluates domain inputs (domain.binary op x y) := by
  cases op with
  | add =>
    have sum : domain.binary .add x y = x + y := laws.add_eq x y
    rw [sum]
    exact evaluates_plus laws left right
  | mul =>
    have product : domain.binary .mul x y = x * y := laws.mul_eq x y
    rw [product]
    exact evaluates_times laws left right

theorem refines_folded (op : BinaryOp) {left right first second : Formula}
    (leftRefines : Refines Domain.IsSemiring left first)
    (rightRefines : Refines Domain.IsSemiring right second) :
    Refines Domain.IsSemiring (.binary op left right) (folded op first second) := by
  intro T domain semiring inputs value evaluates
  obtain ⟨x, y, leftEvaluates, rightEvaluates, rfl⟩ := evaluates_binary.mp evaluates
  obtain ⟨_, laws⟩ := id semiring
  exact evaluates_folded laws op (leftRefines T domain semiring inputs x leftEvaluates)
    (rightRefines T domain semiring inputs y rightEvaluates)

end Formula

namespace Build

theorem binary_yields {circuit : Circuit} (op : BinaryOp) {left right : Nat} {first second : Formula}
    (leftDenotes : circuit.Denotes left first) (rightDenotes : circuit.Denotes right second) :
    Yields (binary op left right) circuit fun id grown =>
      circuit.Gains grown id (.folded op first second) := by
  cases op with
  | add => exact add_yields leftDenotes rightDenotes
  | mul => exact mul_yields leftDenotes rightDenotes

def formula : Formula → Build Nat
  | .constant value => constant value
  | .input name => input name
  | .binary op left right => do
    let first ← formula left
    let second ← formula right
    binary op first second
  | .shift direction operand amount => do
    let inner ← formula operand
    shift direction inner amount

end Build

namespace Circuit

-- A node that has been built for an expression: over nodes built for its operands, which may be
-- shared and may have been there before, in a circuit that has grown in any way since.
inductive Made : Circuit → Formula → Nat → Prop where
  | old {circuit : Circuit} {expression : Formula} {id : Nat}
      (denotes : circuit.Denotes id expression) : Made circuit expression id
  | constant {circuit grown : Circuit} {value : UInt64} {id : Nat}
      (gives : Build.constant value circuit = some (id, grown)) : Made grown (.constant value) id
  | input {circuit grown : Circuit} {name : String} {id : Nat}
      (gives : Build.input name circuit = some (id, grown)) : Made grown (.input name) id
  | binary {circuit grown : Circuit} {op : BinaryOp} {left right : Formula} {first second id : Nat}
      (leftMade : Made circuit left first) (rightMade : Made circuit right second)
      (gives : Build.binary op first second circuit = some (id, grown)) :
      Made grown (.binary op left right) id
  | shift {circuit grown : Circuit} {direction : Direction} {operand : Formula} {amount : UInt64}
      {inner id : Nat} (operandMade : Made circuit operand inner)
      (gives : Build.shift direction inner amount circuit = some (id, grown)) :
      Made grown (.shift direction operand amount) id
  | later {circuit grown : Circuit} {expression : Formula} {id : Nat}
      (made : Made circuit expression id) (extended : circuit.Extends grown) :
      Made grown expression id

variable {circuit : Circuit} {expression : Formula} {id : Nat}

theorem Made.denotes (made : circuit.Made expression id) :
    ∃ result, circuit.Denotes id result ∧ Formula.Refines Domain.IsSemiring expression result := by
  induction made with
  | old denotes => exact ⟨_, denotes, Formula.refines_congruence.refl _⟩
  | @constant circuit _ value _ gives =>
    obtain ⟨_, _, also, gains⟩ := Build.constant_yields circuit value
    cases gives.symm.trans also
    exact ⟨_, gains.denotes, Formula.refines_congruence.refl _⟩
  | @input circuit _ name _ gives =>
    obtain ⟨_, _, also, gains⟩ := Build.input_yields circuit name
    cases gives.symm.trans also
    exact ⟨_, gains.denotes, Formula.refines_congruence.refl _⟩
  | @binary _ _ op _ _ _ _ _ _ _ gives leftDenotes rightDenotes =>
    obtain ⟨first, firstDenotes, leftRefines⟩ := leftDenotes
    obtain ⟨second, secondDenotes, rightRefines⟩ := rightDenotes
    obtain ⟨_, _, also, gains⟩ := Build.binary_yields op firstDenotes secondDenotes
    cases gives.symm.trans also
    exact ⟨_, gains.denotes, Formula.refines_folded op leftRefines rightRefines⟩
  | @shift _ _ direction _ amount _ _ _ gives operandDenotes =>
    obtain ⟨inner, innerDenotes, operandRefines⟩ := operandDenotes
    obtain ⟨_, _, also, gains⟩ := Build.shift_yields direction amount innerDenotes
    cases gives.symm.trans also
    exact ⟨_, gains.denotes, Formula.refines_congruence (.shift direction amount operandRefines)⟩
  | later _ extended denotes =>
    obtain ⟨result, resultDenotes, refines⟩ := denotes
    exact ⟨result, denotes_of_extends extended resultDenotes, refines⟩

theorem Made.evaluates {T : Type} [CommSemiring T] {domain : Domain T} {inputs : String → Option T}
    (made : circuit.Made expression id) (laws : domain.OverSemiring)
    (bound : ∀ name, expression.Needs name → ∃ x, inputs name = some x) :
    ∃ value, expression.eval domain inputs = .ok value ∧
      circuit.eval? domain inputs id = some (.ok value) := by
  obtain ⟨result, denotes, refines⟩ := made.denotes
  obtain ⟨value, evaluates⟩ : ∃ value, expression.Evaluates domain inputs value :=
    Formula.evaluates_of_bound_needs bound
  refine ⟨value, evaluates, ?_⟩
  rw [eval?_of_denotes domain inputs denotes]
  exact congrArg some (refines T domain ⟨_, laws⟩ inputs value evaluates)

theorem Made.needs (made : circuit.Made expression id) {name : String}
    (needed : circuit.Needs id name) : expression.Needs name := by
  obtain ⟨result, denotes, refines⟩ := made.denotes
  exact refines.needs ⟨_, Domain.words_over_semiring⟩ ((needs_iff denotes).mp needed)

end Circuit

namespace Build

theorem formula_yields (expression : Formula) (start : Circuit) :
    Yields (formula expression) start fun id grown =>
      start.Extends grown ∧ grown.Made expression id := by
  induction expression generalizing start with
  | constant value =>
    obtain ⟨id, grown, gives, gains⟩ := constant_yields start value
    exact .intro gives ⟨gains.extended, .constant gives⟩
  | input name =>
    obtain ⟨id, grown, gives, gains⟩ := input_yields start name
    exact .intro gives ⟨gains.extended, .input gives⟩
  | binary op left right leftYields rightYields =>
    refine (leftYields start).bind fun first middle made => ?_
    obtain ⟨leftExtended, leftMade⟩ := made
    refine (rightYields middle).bind fun second last made => ?_
    obtain ⟨rightExtended, rightMade⟩ := made
    have leftStays := leftMade.later rightExtended
    obtain ⟨_, firstDenotes, _⟩ := leftStays.denotes
    obtain ⟨_, secondDenotes, _⟩ := rightMade.denotes
    obtain ⟨id, grown, gives, gains⟩ := binary_yields op firstDenotes secondDenotes
    refine .intro gives ⟨?_, .binary leftStays rightMade gives⟩
    exact Circuit.extends_trans leftExtended (Circuit.extends_trans rightExtended gains.extended)
  | shift direction operand amount operandYields =>
    refine (operandYields start).bind fun inner middle made => ?_
    obtain ⟨extended, operandMade⟩ := made
    obtain ⟨_, innerDenotes, _⟩ := operandMade.denotes
    obtain ⟨id, grown, gives, gains⟩ := shift_yields direction amount innerDenotes
    exact .intro gives ⟨Circuit.extends_trans extended gains.extended, .shift operandMade gives⟩

end Build

namespace Wiring

def formula (index : Nat) : Formula → Wiring Wire
  | .constant value => constant index value
  | .input name => wire index (.input name)
  | .binary op left right => do
    let first ← formula index left
    let second ← formula index right
    binary op first second
  | .shift direction operand amount => do
    let inner ← formula index operand
    shift direction inner amount

theorem wire_eq {workspace : Workspace} {index id : Nat} {circuit grown : Circuit} {step : Build Nat}
    (held : workspace.circuit? index = some circuit) (gives : step circuit = some (id, grown)) :
    wire index step workspace = .ok (⟨index, id⟩, workspace.put index grown) := by
  change Except.bind (build index step workspace) _ = _
  rw [build_eq held gives]
  rfl

theorem gives_of_wire {workspace later : Workspace} {index : Nat} {step : Build Nat} {out : Wire}
    (gives : wire index step workspace = .ok (out, later)) :
    ∃ circuit id grown, workspace.circuit? index = some circuit ∧ step circuit = some (id, grown) ∧
      out = ⟨index, id⟩ ∧ later = workspace.put index grown := by
  cases held : workspace.circuit? index with
  | none =>
    change Except.bind (build index step workspace) _ = _ at gives
    simp [build, Workspace.take?, held, Except.bind] at gives
  | some circuit =>
    cases ends : step circuit with
    | none =>
      change Except.bind (build index step workspace) _ = _ at gives
      simp [build, Workspace.take?, held, ends, Except.bind] at gives
    | some reply =>
      obtain ⟨id, grown⟩ := reply
      cases (wire_eq held ends).symm.trans gives
      exact ⟨circuit, id, grown, rfl, ends, rfl, rfl⟩

end Wiring

namespace Workspace

inductive Made : Workspace → Formula → Wire → Prop where
  | constant {workspace later : Workspace} {index : Nat} {value : UInt64} {out : Wire}
      (gives : Wiring.constant index value workspace = .ok (out, later)) :
      Made later (.constant value) out
  | input {workspace later : Workspace} {index : Nat} {name : String} {out : Wire}
      (gives : Wiring.wire index (.input name) workspace = .ok (out, later)) :
      Made later (.input name) out
  | binary {workspace later : Workspace} {op : BinaryOp} {left right : Formula} {x y out : Wire}
      (leftMade : Made workspace left x) (rightMade : Made workspace right y)
      (gives : Wiring.binary op x y workspace = .ok (out, later)) :
      Made later (.binary op left right) out
  | shift {workspace later : Workspace} {direction : Direction} {operand : Formula} {amount : UInt64}
      {x out : Wire} (operandMade : Made workspace operand x)
      (gives : Wiring.shift direction x amount workspace = .ok (out, later)) :
      Made later (.shift direction operand amount) out
  | later {workspace later : Workspace} {expression : Formula} {out : Wire}
      (made : Made workspace expression out) (extended : workspace.Extends later) :
      Made later expression out

theorem circuit?_of_put {workspace : Workspace} {index : Nat} {circuit : Circuit}
    (held : workspace.circuit? index = some circuit) (grown : Circuit) :
    (workspace.put index grown).circuit? index = some grown := by
  rw [circuit?_put held, if_pos rfl]

theorem Made.circuit_made {workspace : Workspace} {expression : Formula} {out : Wire}
    (made : workspace.Made expression out) :
    ∃ circuit, workspace.circuit? out.circuit = some circuit ∧ circuit.Made expression out.node := by
  induction made with
  | constant gives =>
    obtain ⟨circuit, id, grown, held, built, rfl, rfl⟩ := Wiring.gives_of_wire gives
    exact ⟨grown, circuit?_of_put held grown, .constant built⟩
  | input gives =>
    obtain ⟨circuit, id, grown, held, built, rfl, rfl⟩ := Wiring.gives_of_wire gives
    exact ⟨grown, circuit?_of_put held grown, .input built⟩
  | @binary _ _ _ _ _ x y _ _ _ gives leftHeld rightHeld =>
    rw [Wiring.binary] at gives
    by_cases same : x.circuit = y.circuit
    · rw [if_pos same] at gives
      obtain ⟨circuit, id, grown, held, built, rfl, rfl⟩ := Wiring.gives_of_wire gives
      obtain ⟨_, leftAlso, leftMade⟩ := leftHeld
      obtain ⟨_, rightAlso, rightMade⟩ := rightHeld
      cases held.symm.trans leftAlso
      rw [← same] at rightAlso
      cases held.symm.trans rightAlso
      exact ⟨grown, circuit?_of_put held grown, .binary leftMade rightMade built⟩
    · rw [if_neg same] at gives
      contradiction
  | shift _ gives operandHeld =>
    obtain ⟨circuit, id, grown, held, built, rfl, rfl⟩ := Wiring.gives_of_wire gives
    obtain ⟨_, also, operandMade⟩ := operandHeld
    cases held.symm.trans also
    exact ⟨grown, circuit?_of_put held grown, .shift operandMade built⟩
  | later _ extended held =>
    obtain ⟨circuit, held, made⟩ := held
    obtain ⟨grown, heldAfter, grows⟩ := extended _ circuit held
    exact ⟨grown, heldAfter, made.later grows⟩

end Workspace

namespace Wiring

variable {start : Workspace} {index : Nat}

theorem wire_gives {circuit : Circuit} (held : start.circuit? index = some circuit)
    {step : Build Nat} {formula : Formula}
    (yields : Yields step circuit fun id grown => circuit.Gains grown id formula) :
    ∃ out later, wire index step start = .ok (out, later) ∧ start.Extends later ∧
      out.circuit = index := by
  obtain ⟨id, grown, gives, gains⟩ := yields
  exact ⟨_, _, wire_eq held gives, Workspace.extends_put held gains.extended, rfl⟩

theorem binary_gives (op : BinaryOp) {x y : Wire} {left right : Formula} (same : x.circuit = y.circuit)
    (leftMade : start.Made left x) (rightMade : start.Made right y) :
    ∃ out later, binary op x y start = .ok (out, later) ∧ start.Extends later ∧
      out.circuit = x.circuit := by
  obtain ⟨circuit, held, leftMade⟩ := leftMade.circuit_made
  obtain ⟨_, also, rightMade⟩ := rightMade.circuit_made
  rw [← same, held] at also
  cases also
  obtain ⟨_, firstDenotes, _⟩ := leftMade.denotes
  obtain ⟨_, secondDenotes, _⟩ := rightMade.denotes
  rw [binary, if_pos same]
  exact wire_gives held (Build.binary_yields op firstDenotes secondDenotes)

theorem shift_gives (direction : Direction) (amount : UInt64) {x : Wire} {operand : Formula}
    (made : start.Made operand x) :
    ∃ out later, shift direction x amount start = .ok (out, later) ∧ start.Extends later ∧
      out.circuit = x.circuit := by
  obtain ⟨circuit, held, made⟩ := made.circuit_made
  obtain ⟨_, denotes, _⟩ := made.denotes
  exact wire_gives held (Build.shift_yields direction amount denotes)

theorem formula_builds (expression : Formula) (holds : start.Holds index) :
    Builds (formula index expression) start fun out later =>
      out.circuit = index ∧ later.Made expression out := by
  induction expression generalizing start with
  | constant value =>
    obtain ⟨circuit, held⟩ := holds
    obtain ⟨out, later, gives, extended, inside⟩ :=
      wire_gives held (Build.constant_yields circuit value)
    exact ⟨out, later, congrArg Except.toOption gives, extended, inside, .constant gives⟩
  | input name =>
    obtain ⟨circuit, held⟩ := holds
    obtain ⟨out, later, gives, extended, inside⟩ := wire_gives held (Build.input_yields circuit name)
    exact ⟨out, later, congrArg Except.toOption gives, extended, inside, .input gives⟩
  | binary op left right leftBuilds rightBuilds =>
    rw [formula]
    refine (leftBuilds holds).bind fun x next grown₁ made => ?_
    obtain ⟨rfl, leftMade⟩ := made
    refine (rightBuilds (holds.of_extends grown₁)).bind fun y last grown₂ made => ?_
    obtain ⟨inside, rightMade⟩ := made
    have leftStays := leftMade.later grown₂
    obtain ⟨out, later, gives, extended, same⟩ := binary_gives op inside.symm leftStays rightMade
    exact ⟨out, later, congrArg Except.toOption gives, extended, same,
      .binary leftStays rightMade gives⟩
  | shift direction operand amount operandBuilds =>
    rw [formula]
    refine (operandBuilds holds).bind fun x next grown₁ made => ?_
    obtain ⟨rfl, operandMade⟩ := made
    obtain ⟨out, later, gives, extended, same⟩ := shift_gives direction amount operandMade
    exact ⟨out, later, congrArg Except.toOption gives, extended, same, .shift operandMade gives⟩

end Wiring

namespace Formula

theorem construction_sound (expression : Formula) :
    (∀ start : Circuit, ∃ id grown, Build.formula expression start = some (id, grown) ∧
      start.Extends grown ∧ grown.Made expression id) ∧
    (∀ (start : Workspace) (index : Nat), start.Holds index →
      ∃ out later, Wiring.formula index expression start = .ok (out, later) ∧
        start.Extends later ∧ out.circuit = index ∧ later.Made expression out) ∧
    (∀ (workspace : Workspace) (out : Wire), workspace.Made expression out →
      ∃ circuit, workspace.circuit? out.circuit = some circuit ∧
        circuit.Made expression out.node) ∧
    ∀ (circuit : Circuit) (id : Nat), circuit.Made expression id →
      (∀ (T : Type) [CommSemiring T] (domain : Domain T), domain.OverSemiring →
        ∀ inputs : String → Option T,
          (∀ name, expression.Needs name → ∃ x, inputs name = some x) →
            ∃ value, expression.eval domain inputs = .ok value ∧
              circuit.eval? domain inputs id = some (.ok value)) ∧
      ∀ name, circuit.Needs id name → expression.Needs name := by
  refine ⟨Build.formula_yields expression, ?_, fun _ _ made => made.circuit_made, ?_⟩
  · intro start index holds
    obtain ⟨out, later, gives, extended, inside, made⟩ := Wiring.formula_builds expression holds
    exact ⟨out, later, Wiring.run_of_outcome gives, extended, inside, made⟩
  · intro circuit id made
    refine ⟨?_, fun _ needed => made.needs needed⟩
    intro T semiring domain laws inputs bound
    exact made.evaluates laws bound

theorem construction_sound_of_foldable :
    let expression : Formula := .shift .left
      (.binary .mul (.binary .add (.binary .mul (.constant 0) (.input "y")) (.input "x"))
        (.binary .mul (.constant 1) (.input "z"))) 3
    let inputs := (List.lookup · [("x", (5 : UInt64)), ("y", 7), ("z", 2)])
    (∃ id grown, Build.formula expression .empty = some (id, grown) ∧
      grown.eval? .words inputs id = some (.ok 80)) ∧
    ∃ out later, Wiring.formula 0 expression .start = .ok (out, later) ∧
      later.eval? .words inputs out = some (.ok 80) := by
  intro expression inputs
  let _ := UInt64.instCommRing.toCommSemiring
  obtain ⟨builds, wires, held, sound⟩ := construction_sound expression
  have bound : ∀ name, expression.Needs name → ∃ x, inputs name = some x := by
    intro name needed
    simp only [expression, Needs, false_or] at needed
    obtain (rfl | rfl) | rfl := needed
    exacts [⟨7, rfl⟩, ⟨5, rfl⟩, ⟨2, rfl⟩]
  have valued : ∀ (circuit : Circuit) (id : Nat), circuit.Made expression id →
      circuit.eval? .words inputs id = some (.ok 80) := by
    intro circuit id made
    obtain ⟨value, same, evaluates⟩ :=
      (sound circuit id made).1 UInt64 .words Domain.words_over_semiring inputs bound
    cases same
    exact evaluates
  obtain ⟨id, grown, gives, _, made⟩ := builds .empty
  obtain ⟨out, later, wired, _, _, madeThere⟩ := wires .start 0 ⟨.empty, rfl⟩
  refine ⟨⟨id, grown, gives, valued grown id made⟩, out, later, wired, ?_⟩
  obtain ⟨circuit, inside, madeInside⟩ := held later out madeThere
  rw [Workspace.eval?, inside]
  exact valued circuit out.node madeInside

end Formula

end ArithCircuit
