import ArithCircuit.Proofs.Steps

set_option autoImplicit false

namespace ArithCircuit

namespace Formula

def ofNode? (operand? : Nat → Option Formula) : Node → Option Formula
  | .constant value => some (.constant value)
  | .input name => some (.input name)
  | .binary op left right =>
    (operand? left).bind fun first => (operand? right).map (.binary op first)
  | .shift direction operand amount => (operand? operand).map (.shift direction · amount)

def children : Formula → List Formula
  | .constant _ | .input _ => []
  | .binary _ left right => [left, right]
  | .shift _ operand _ => [operand]

def plus (left right : Formula) : Formula :=
  if left = .constant 0 then right else .binary .add left right

def times (left right : Formula) : Formula :=
  if left = .constant 0 then left
  else if left = .constant 1 then right
  else .binary .mul left right

theorem isConstant_iff_of_ofNode? {operand? : Nat → Option Formula} {node : Node} {formula : Formula}
    (layer : ofNode? operand? node = some formula) (value : UInt64) :
    node.isConstant value = true ↔ formula = .constant value := by
  cases node with
  | constant other =>
    obtain rfl := Option.some.inj layer
    simp [Node.isConstant]
  | input name =>
    obtain rfl := Option.some.inj layer
    simp [Node.isConstant]
  | binary op left right =>
    simp only [ofNode?, Option.bind_eq_some_iff, Option.map_eq_some_iff] at layer
    obtain ⟨first, _, second, _, rfl⟩ := layer
    simp [Node.isConstant]
  | shift direction operand amount =>
    simp only [ofNode?, Option.map_eq_some_iff] at layer
    obtain ⟨inner, _, rfl⟩ := layer
    simp [Node.isConstant]

end Formula

namespace Circuit

abbrev Denotes (circuit : Circuit) (id : Nat) (formula : Formula) : Prop :=
  circuit.formula? id = some formula

theorem formula?_of_node? {circuit : Circuit} {id : Nat} {node : Node}
    (found : circuit.node? id = some node) :
    circuit.formula? id = Formula.ofNode? circuit.formula? node := by
  have below : ∀ child ∈ node.children, circuit.formulaBelow id child = circuit.formula? child :=
    fun child member => circuit.formulaBelow_eq_formula? (child_lt_of_node? found member)
  conv_lhs => unfold formula? formulaBelow
  rw [found]
  cases node with
  | constant value => rfl
  | input name => rfl
  | binary op left right =>
    simp only [below left (by simp [Node.children]), below right (by simp [Node.children]),
      Formula.ofNode?]
    cases circuit.formula? left <;> cases circuit.formula? right <;> rfl
  | shift direction operand amount =>
    simp only [below operand (by simp [Node.children]), Formula.ofNode?]
    cases circuit.formula? operand <;> rfl

theorem denotes_iff {circuit : Circuit} {id : Nat} {formula : Formula} :
    circuit.Denotes id formula ↔
      ∃ node, circuit.node? id = some node ∧
        Formula.ofNode? circuit.formula? node = some formula := by
  cases found : circuit.node? id with
  | none =>
    have absent : circuit.formula? id = none := by
      unfold formula? formulaBelow
      rw [found]
    simp [Denotes, absent]
  | some node => simp [Denotes, formula?_of_node? found]

inductive Spells (circuit : Circuit) : Node → Formula → Prop where
  | constant (value : UInt64) : Spells circuit (.constant value) (.constant value)
  | input (name : String) : Spells circuit (.input name) (.input name)
  | binary (op : BinaryOp) {left right : Nat} {first second : Formula}
      (leftDenotes : circuit.Denotes left first) (rightDenotes : circuit.Denotes right second) :
      Spells circuit (.binary op left right) (.binary op first second)
  | shift (direction : Direction) (amount : UInt64) {operand : Nat} {inner : Formula}
      (operandDenotes : circuit.Denotes operand inner) :
      Spells circuit (.shift direction operand amount) (.shift direction inner amount)

theorem spells_of_denotes {circuit : Circuit} {id : Nat} {formula : Formula}
    (denotes : circuit.Denotes id formula) :
    ∃ node, circuit.node? id = some node ∧ circuit.Spells node formula := by
  obtain ⟨node, found, layer⟩ := denotes_iff.mp denotes
  refine ⟨node, found, ?_⟩
  cases node with
  | constant value =>
    obtain rfl := Option.some.inj layer
    exact .constant value
  | input name =>
    obtain rfl := Option.some.inj layer
    exact .input name
  | binary op left right =>
    obtain ⟨first, leftDenotes, rest⟩ := Option.bind_eq_some_iff.mp layer
    obtain ⟨second, rightDenotes, rfl⟩ := Option.map_eq_some_iff.mp rest
    exact .binary op leftDenotes rightDenotes
  | shift direction operand amount =>
    obtain ⟨inner, operandDenotes, rfl⟩ := Option.map_eq_some_iff.mp layer
    exact .shift direction amount operandDenotes

theorem spells_of_node? {circuit : Circuit} {id : Nat} {node : Node} {formula : Formula}
    (found : circuit.node? id = some node) (denotes : circuit.Denotes id formula) :
    circuit.Spells node formula := by
  obtain ⟨_, same, spells⟩ := spells_of_denotes denotes
  exact Option.some.inj (same.symm.trans found) ▸ spells

@[elab_as_elim]
theorem denotes_induction {circuit : Circuit}
    {motive : ∀ (id : Nat) (formula : Formula), circuit.Denotes id formula → Prop}
    (constant : ∀ {id : Nat} {value : UInt64} (denotes : circuit.Denotes id (.constant value)),
      circuit.node? id = some (.constant value) → motive id (.constant value) denotes)
    (input : ∀ {id : Nat} {name : String} (denotes : circuit.Denotes id (.input name)),
      circuit.node? id = some (.input name) → motive id (.input name) denotes)
    (binary : ∀ {id left right : Nat} {op : BinaryOp} {first second : Formula}
      (denotes : circuit.Denotes id (.binary op first second)),
      circuit.node? id = some (.binary op left right) →
      ∀ (leftDenotes : circuit.Denotes left first) (rightDenotes : circuit.Denotes right second),
        motive left first leftDenotes → motive right second rightDenotes →
          motive id (.binary op first second) denotes)
    (shift : ∀ {id operand : Nat} {direction : Direction} {amount : UInt64} {inner : Formula}
      (denotes : circuit.Denotes id (.shift direction inner amount)),
      circuit.node? id = some (.shift direction operand amount) →
      ∀ operandDenotes : circuit.Denotes operand inner, motive operand inner operandDenotes →
        motive id (.shift direction inner amount) denotes)
    {id : Nat} {formula : Formula} (denotes : circuit.Denotes id formula) : motive id formula denotes := by
  induction formula generalizing id with
  | constant value =>
    obtain ⟨_, found, ⟨⟩⟩ := spells_of_denotes denotes
    exact constant denotes found
  | input name =>
    obtain ⟨_, found, ⟨⟩⟩ := spells_of_denotes denotes
    exact input denotes found
  | binary op first second firstHolds secondHolds =>
    obtain ⟨_, found, spells⟩ := spells_of_denotes denotes
    cases spells with
    | binary _ leftDenotes rightDenotes =>
      exact binary denotes found leftDenotes rightDenotes (firstHolds leftDenotes)
        (secondHolds rightDenotes)
  | shift direction inner amount holds =>
    obtain ⟨_, found, spells⟩ := spells_of_denotes denotes
    cases spells with
    | shift _ _ operandDenotes => exact shift denotes found operandDenotes (holds operandDenotes)

theorem lt_size_of_denotes {circuit : Circuit} {id : Nat} {formula : Formula}
    (denotes : circuit.Denotes id formula) : id < circuit.size := by
  obtain ⟨node, found, _⟩ := denotes_iff.mp denotes
  exact lt_size_of_node? found

theorem node?_of_denotes_binary {circuit : Circuit} {id : Nat} {op : BinaryOp}
    {first second : Formula} (denotes : circuit.Denotes id (.binary op first second)) :
    ∃ left right, circuit.node? id = some (.binary op left right) := by
  obtain ⟨_, found, spells⟩ := spells_of_denotes denotes
  cases spells with
  | binary => exact ⟨_, _, found⟩

theorem lt_size_of_mem {circuit : Circuit} {ids : List Nat} {formulas : List Formula}
    (denote : List.Forall₂ circuit.Denotes ids formulas) {id : Nat} (member : id ∈ ids) :
    id < circuit.size := by
  obtain ⟨formula, _, denotes⟩ := exists_of_mem_forall₂ denote.flip member
  exact lt_size_of_denotes denotes

theorem denotes_of_extends {old new : Circuit} (extended : old.Extends new) {id : Nat}
    {formula : Formula} (denotes : old.Denotes id formula) : new.Denotes id formula :=
  (formula?_of_extends extended (lt_size_of_denotes denotes)).trans denotes

theorem size_le_of_extends {old new : Circuit} (extended : old.Extends new) :
    old.size ≤ new.size := by
  by_cases empty : old.size = 0
  · omega
  · have last : old.size - 1 < old.size := by omega
    obtain ⟨node, found⟩ := node?_of_lt_size last
    have bound := lt_size_of_node? (extended _ node found)
    omega

theorem children_of_node? {circuit : Circuit} {id : Nat} {node : Node}
    (found : circuit.node? id = some node) : circuit.children id = node.children := by
  simp [children, found]

theorem node?_of_extends {old new : Circuit} (extended : old.Extends new) {id : Nat}
    (inRange : id < old.size) : new.node? id = old.node? id := by
  obtain ⟨node, found⟩ := node?_of_lt_size inRange
  rw [found, extended id node found]

theorem children_of_extends {old new : Circuit} (extended : old.Extends new) {id : Nat}
    (inRange : id < old.size) : new.children id = old.children id := by
  rw [children, children, node?_of_extends extended inRange]

theorem denotes_binary {circuit : Circuit} {id left right : Nat} {op : BinaryOp} {formula : Formula}
    (found : circuit.node? id = some (.binary op left right)) (denotes : circuit.Denotes id formula) :
    ∃ first second, formula = .binary op first second ∧ circuit.Denotes left first ∧
      circuit.Denotes right second := by
  cases spells_of_node? found denotes with
  | binary _ leftDenotes rightDenotes => exact ⟨_, _, rfl, leftDenotes, rightDenotes⟩

theorem denotes_shift {circuit : Circuit} {id operand : Nat} {direction : Direction}
    {amount : UInt64} {formula : Formula}
    (found : circuit.node? id = some (.shift direction operand amount))
    (denotes : circuit.Denotes id formula) :
    ∃ inner, formula = .shift direction inner amount ∧ circuit.Denotes operand inner := by
  cases spells_of_node? found denotes with
  | shift _ _ operandDenotes => exact ⟨_, rfl, operandDenotes⟩

theorem denotes_children {circuit : Circuit} {id : Nat} {node : Node} {formula : Formula}
    (found : circuit.node? id = some node) (denotes : circuit.Denotes id formula) :
    List.Forall₂ circuit.Denotes node.children formula.children := by
  cases spells_of_node? found denotes with
  | constant | input => exact .nil
  | binary _ leftDenotes rightDenotes => exact .cons leftDenotes (.cons rightDenotes .nil)
  | shift _ _ operandDenotes => exact .cons operandDenotes .nil

structure Gains (old new : Circuit) (id : Nat) (formula : Formula) : Prop where
  extended : old.Extends new
  denotes : new.Denotes id formula

theorem Gains.unchanged {circuit : Circuit} {id : Nat} {formula : Formula}
    (denotes : circuit.Denotes id formula) : circuit.Gains circuit id formula :=
  ⟨circuit.extends_refl, denotes⟩

theorem Gains.after {first second third : Circuit} {id : Nat} {formula : Formula}
    (extended : first.Extends second) (gains : second.Gains third id formula) :
    first.Gains third id formula :=
  ⟨extends_trans extended gains.extended, gains.denotes⟩

theorem forall_denotes_of_extends {old new : Circuit} (extended : old.Extends new) {ids : List Nat}
    {formulas : List Formula} (denotes : List.Forall₂ old.Denotes ids formulas) :
    List.Forall₂ new.Denotes ids formulas :=
  denotes.imp fun _ _ => denotes_of_extends extended

def Relates (R : Formula → Formula → Prop) (circuit : Circuit) (id form : Nat) : Prop :=
  ∃ formula result, circuit.Denotes id formula ∧ circuit.Denotes form result ∧ R formula result

theorem Relates.of_extends {R : Formula → Formula → Prop} {old new : Circuit} {id form : Nat}
    (extended : old.Extends new) (relates : old.Relates R id form) : new.Relates R id form := by
  obtain ⟨formula, result, denotes, formDenotes, holds⟩ := relates
  exact ⟨formula, result, denotes_of_extends extended denotes,
    denotes_of_extends extended formDenotes, holds⟩

theorem Relates.mono {R Q : Formula → Formula → Prop} {circuit : Circuit} {id form : Nat}
    (relates : circuit.Relates R id form)
    (implies : ∀ formula result, R formula result → Q formula result) :
    circuit.Relates Q id form := by
  obtain ⟨formula, result, denotes, formDenotes, holds⟩ := relates
  exact ⟨formula, result, denotes, formDenotes, implies formula result holds⟩

theorem Relates.trans {R Q P : Formula → Formula → Prop} {circuit : Circuit}
    {first second third : Nat} (combine : ∀ a b c, R a b → Q b c → P a c)
    (start : circuit.Relates R first second) (next : circuit.Relates Q second third) :
    circuit.Relates P first third := by
  obtain ⟨a, b, firstDenotes, secondDenotes, here⟩ := start
  obtain ⟨b', c, also, thirdDenotes, there⟩ := next
  obtain rfl := Option.some.inj (also.symm.trans secondDenotes)
  exact ⟨a, c, firstDenotes, thirdDenotes, combine a b' c here there⟩

theorem Relates.result_of_denotes {R : Formula → Formula → Prop} {circuit : Circuit} {id form : Nat}
    (relates : circuit.Relates R id form) {formula : Formula} (denotes : circuit.Denotes id formula) :
    ∃ result, circuit.Denotes form result ∧ R formula result := by
  obtain ⟨other, result, also, formDenotes, holds⟩ := relates
  obtain rfl := Option.some.inj (also.symm.trans denotes)
  exact ⟨result, formDenotes, holds⟩

theorem forms_in_range {R : Formula → Formula → Prop} {circuit : Circuit} {roots forms : List Nat}
    (relates : List.Forall₂ (circuit.Relates R) roots forms) : ∀ form ∈ forms, form < circuit.size := by
  intro form member
  obtain ⟨root, _, _, _, _, formDenotes, _⟩ := exists_of_mem_forall₂ relates member
  exact lt_size_of_denotes formDenotes

end Circuit

namespace Build

theorem node_eq {circuit : Circuit} {id : Nat} {found : Node} (present : circuit.node? id = some found) :
    node id circuit = some (found, circuit) := by
  change (circuit.node? id).bind (fun value => some (value, circuit)) = _
  rw [present]
  rfl

theorem memory_node_eq {σ : Type} {circuit : Circuit} {id : Nat} {found : Node}
    (present : circuit.node? id = some found) (memory : σ) :
    (liftM (node id) : StateT σ Build Node) memory circuit = some ((found, memory), circuit) := by
  change (node id circuit).bind _ = _
  rw [node_eq present]
  rfl

theorem append_eq {circuit : Circuit} {node : Node}
    (bound : ∀ child ∈ node.children, child < circuit.size) :
    append node circuit = some (circuit.size, circuit.push node bound) :=
  dif_pos bound

theorem append_yields {circuit : Circuit} {node : Node} {formula : Formula}
    (layer : Formula.ofNode? circuit.formula? node = some formula) :
    Yields (append node) circuit fun id grown =>
      id = circuit.size ∧ grown.node? id = some node ∧ circuit.Gains grown id formula := by
  have bound : ∀ child ∈ node.children, child < circuit.size := by
    intro child member
    cases node with
    | constant value => simp [Node.children] at member
    | input name => simp [Node.children] at member
    | binary op left right =>
      simp only [Formula.ofNode?, Option.bind_eq_some_iff, Option.map_eq_some_iff] at layer
      obtain ⟨first, leftDenotes, second, rightDenotes, _⟩ := layer
      rcases List.mem_pair.mp member with rfl | rfl
      · exact Circuit.lt_size_of_denotes leftDenotes
      · exact Circuit.lt_size_of_denotes rightDenotes
    | shift direction operand amount =>
      simp only [Formula.ofNode?, Option.map_eq_some_iff] at layer
      obtain ⟨inner, operandDenotes, _⟩ := layer
      obtain rfl := List.mem_singleton.mp member
      exact Circuit.lt_size_of_denotes operandDenotes
  have extended := circuit.extends_push node bound
  have found : (circuit.push node bound).node? circuit.size = some node := by
    rw [Circuit.node?_push, if_pos rfl]
  refine .intro (append_eq bound) ⟨rfl, found, extended, ?_⟩
  rw [Circuit.Denotes, Circuit.formula?_of_node? found, ← layer]
  cases node with
  | constant value => rfl
  | input name => rfl
  | binary op left right =>
    have leftBound := bound left (by simp [Node.children])
    have rightBound := bound right (by simp [Node.children])
    simp only [Formula.ofNode?, Circuit.formula?_of_extends extended leftBound,
      Circuit.formula?_of_extends extended rightBound]
  | shift direction operand amount =>
    have operandBound := bound operand (by simp [Node.children])
    simp only [Formula.ofNode?, Circuit.formula?_of_extends extended operandBound]

theorem append_binary_yields {circuit : Circuit} (op : BinaryOp) {left right : Nat}
    {first second : Formula} (leftDenotes : circuit.Denotes left first)
    (rightDenotes : circuit.Denotes right second) :
    Yields (append (.binary op left right)) circuit fun id grown =>
      id = circuit.size ∧ grown.node? id = some (.binary op left right) ∧
        circuit.Gains grown id (.binary op first second) :=
  append_yields (by simp [Formula.ofNode?, leftDenotes, rightDenotes])

theorem constant_yields (circuit : Circuit) (value : UInt64) :
    Yields (constant value) circuit fun id grown => circuit.Gains grown id (.constant value) :=
  (append_yields rfl).mono fun _ _ holds => holds.2.2

theorem input_yields (circuit : Circuit) (name : String) :
    Yields (input name) circuit fun id grown => circuit.Gains grown id (.input name) :=
  (append_yields rfl).mono fun _ _ holds => holds.2.2

theorem shift_yields {circuit : Circuit} {operand : Nat} {inner : Formula}
    (direction : Direction) (amount : UInt64) (denotes : circuit.Denotes operand inner) :
    Yields (shift direction operand amount) circuit fun id grown =>
      circuit.Gains grown id (.shift direction inner amount) :=
  (append_yields (by simp [Formula.ofNode?, denotes])).mono fun _ _ holds => holds.2.2

theorem add_yields {circuit : Circuit} {left right : Nat} {first second : Formula}
    (leftDenotes : circuit.Denotes left first) (rightDenotes : circuit.Denotes right second) :
    Yields (add left right) circuit fun id grown => circuit.Gains grown id (first.plus second) := by
  obtain ⟨node, found, layer⟩ := Circuit.denotes_iff.mp leftDenotes
  refine .after (node_eq found) ?_
  by_cases zero : node.isConstant 0
  · rw [if_pos zero, Formula.plus, if_pos ((Formula.isConstant_iff_of_ofNode? layer 0).mp zero)]
    exact .intro rfl (.unchanged rightDenotes)
  · rw [if_neg zero, Formula.plus,
      if_neg fun same => zero ((Formula.isConstant_iff_of_ofNode? layer 0).mpr same)]
    exact (append_binary_yields .add leftDenotes rightDenotes).mono fun _ _ holds => holds.2.2

theorem mul_yields {circuit : Circuit} {left right : Nat} {first second : Formula}
    (leftDenotes : circuit.Denotes left first) (rightDenotes : circuit.Denotes right second) :
    Yields (mul left right) circuit fun id grown => circuit.Gains grown id (first.times second) := by
  obtain ⟨node, found, layer⟩ := Circuit.denotes_iff.mp leftDenotes
  refine .after (node_eq found) ?_
  by_cases zero : node.isConstant 0
  · rw [if_pos zero, Formula.times, if_pos ((Formula.isConstant_iff_of_ofNode? layer 0).mp zero)]
    exact .intro rfl (.unchanged leftDenotes)
  · rw [if_neg zero, Formula.times,
      if_neg fun same => zero ((Formula.isConstant_iff_of_ofNode? layer 0).mpr same)]
    by_cases one : node.isConstant 1
    · rw [if_pos ((Formula.isConstant_iff_of_ofNode? layer 1).mp one)]
      refine .intro ?_ (.unchanged rightDenotes)
      simp [one]
      rfl
    · rw [if_neg fun same => one ((Formula.isConstant_iff_of_ofNode? layer 1).mpr same)]
      simp only [one]
      exact (append_binary_yields .mul leftDenotes rightDenotes).mono fun _ _ holds => holds.2.2

theorem mapM_makes {α β γ : Type} {step : α → Build β} (Made : Circuit → β → γ → Prop) {f : α → γ}
    (lasts : ∀ old new b c, Circuit.Extends old new → Made old b c → Made new b c)
    (each : ∀ a current, Yields (step a) current fun b grown =>
      current.Extends grown ∧ Made grown b (f a)) (elements : List α) (circuit : Circuit) :
    Yields (elements.mapM step) circuit fun results grown =>
      circuit.Extends grown ∧ List.Forall₂ (Made grown) results (elements.map f) := by
  induction elements generalizing circuit with
  | nil => exact .intro rfl ⟨circuit.extends_refl, .nil⟩
  | cons a rest ih =>
    rw [List.mapM_cons]
    refine .bind (each a circuit) ?_
    rintro b next ⟨extended, made⟩
    refine .bind (ih next) ?_
    rintro results grown ⟨further, others⟩
    exact .intro rfl ⟨Circuit.extends_trans extended further, .cons (lasts _ _ _ _ further made) others⟩

def numbered (name : String) (length : Nat) : List Formula :=
  (List.range length).map fun i => .input s!"{name}{i}"

theorem inputs_yields (name : String) (length : Nat) (circuit : Circuit) :
    Yields (inputs name length) circuit fun ids grown => circuit.Extends grown ∧
      List.Forall₂ grown.Denotes ids (numbered name length) :=
  mapM_makes Circuit.Denotes (fun _ _ _ _ extended => Circuit.denotes_of_extends extended)
    (fun i current => (input_yields current s!"{name}{i}").mono
      fun _ _ gains => ⟨gains.extended, gains.denotes⟩) (List.range length) circuit

theorem inputRows_yields (name : String) (rows width : Nat) (circuit : Circuit) :
    Yields (inputRows name rows width) circuit fun grid grown => circuit.Extends grown ∧
      List.Forall₂ (List.Forall₂ grown.Denotes) grid
        ((List.range rows).map fun i => numbered s!"{name}{i}" width) :=
  mapM_makes (fun grown => List.Forall₂ grown.Denotes)
    (fun _ _ _ _ extended => Circuit.forall_denotes_of_extends extended)
    (fun i => inputs_yields s!"{name}{i}" width) (List.range rows) circuit

end Build

end ArithCircuit
