import ArithCircuit.Proofs.Expand
import ArithCircuit.Proofs.Reachable

set_option autoImplicit false

namespace ArithCircuit

namespace Formula

-- Shifts stay where they are; below each of them there is a sum of products again.
def MultipliedOut : Formula → Prop
  | .constant _ | .input _ => True
  | .binary .add left right => left.MultipliedOut ∧ right.MultipliedOut
  | .binary .mul left right =>
    (left.isSum = false ∧ left.MultipliedOut) ∧ right.isSum = false ∧ right.MultipliedOut
  | .shift _ operand _ => operand.MultipliedOut

def Monomial (formula : Formula) : Prop := formula.isSum = false ∧ formula.MultipliedOut

theorem monomial_of_mem_operands {formula : Formula} (multiplied : formula.MultipliedOut) :
    ∀ addend ∈ formula.operands .add, addend.Monomial := by
  induction formula with
  | constant | input | shift =>
    intro addend member
    obtain rfl := List.mem_singleton.mp member
    exact ⟨rfl, multiplied⟩
  | binary op left right leftMonomials rightMonomials =>
    cases op with
    | mul =>
      intro addend member
      obtain rfl := List.mem_singleton.mp member
      exact ⟨rfl, multiplied⟩
    | add =>
      intro addend member
      cases List.mem_append.mp member with
      | inl inLeft => exact leftMonomials multiplied.1 addend inLeft
      | inr inRight => exact rightMonomials multiplied.2 addend inRight

theorem monomial_times {first second : Formula} (left : first.Monomial) (right : second.Monomial) :
    (first.times second).Monomial := by
  unfold times
  by_cases zero : first = .constant 0
  · rw [if_pos zero]
    exact left
  · rw [if_neg zero]
    by_cases one : first = .constant 1
    · rw [if_pos one]
      exact right
    · rw [if_neg one]
      exact ⟨rfl, left, right⟩

theorem multiplied_out_plus {first second : Formula} (left : first.MultipliedOut)
    (right : second.MultipliedOut) : (first.plus second).MultipliedOut := by
  unfold plus
  by_cases zero : first = .constant 0
  · rw [if_pos zero]
    exact right
  · rw [if_neg zero]
    exact ⟨left, right⟩

theorem multiplied_out_total {terms : List Formula} (each : ∀ term ∈ terms, term.MultipliedOut) :
    (total terms).MultipliedOut := by
  cases terms with
  | nil => trivial
  | cons first rest =>
    have further : ∀ term ∈ rest, term.MultipliedOut :=
      fun term member => each term (List.mem_cons_of_mem first member)
    exact List.foldlRecOn rest plus (each first List.mem_cons_self)
      fun _ sum term member => multiplied_out_plus sum (further term member)

theorem multiplied_out_scaled {factor term : Formula} (monomial : factor.Monomial)
    (multiplied : term.MultipliedOut) : (factor.scaled term).MultipliedOut := by
  apply multiplied_out_total
  intro product member
  obtain ⟨addend, isAddend, rfl⟩ := List.mem_map.mp member
  exact (monomial_times monomial (monomial_of_mem_operands multiplied addend isAddend)).2

theorem multiplied_out_cross_product {left right : Formula} (leftOut : left.MultipliedOut)
    (rightOut : right.MultipliedOut) : (left.crossProduct right).MultipliedOut := by
  apply multiplied_out_total
  intro product member
  obtain ⟨addend, isAddend, rfl⟩ := List.mem_map.mp member
  exact multiplied_out_scaled (monomial_of_mem_operands leftOut addend isAddend) rightOut

theorem multiplied_out_expanded (formula : Formula) : formula.expanded.MultipliedOut := by
  induction formula with
  | constant | input => trivial
  | shift _ _ _ operandOut => exact operandOut
  | binary op left right leftOut rightOut =>
    cases op with
    | add => exact ⟨leftOut, rightOut⟩
    | mul =>
      by_cases sums : left.expanded.isSum || right.expanded.isSum
      · rw [expanded, if_pos sums]
        exact multiplied_out_cross_product leftOut rightOut
      · rw [expanded, if_neg sums]
        simp only [Bool.or_eq_true, not_or, Bool.not_eq_true] at sums
        exact ⟨⟨sums.1, leftOut⟩, sums.2, rightOut⟩

end Formula

namespace Circuit

variable {circuit : Circuit} {id : Nat}

def MultipliedOut (circuit : Circuit) (id : Nat) : Prop :=
  ∃ formula, circuit.Denotes id formula ∧ formula.MultipliedOut

theorem multiplied_out_child (multiplied : circuit.MultipliedOut id) :
    ∀ child ∈ circuit.children id, circuit.MultipliedOut child := by
  obtain ⟨formula, denotes, out⟩ := multiplied
  obtain ⟨node, found, spells⟩ := spells_of_denotes denotes
  rw [children_of_node? found]
  cases spells with
  | constant | input => simp [Node.children]
  | shift direction amount operandDenotes =>
    intro child member
    obtain rfl := List.mem_singleton.mp member
    exact ⟨_, operandDenotes, out⟩
  | binary op leftDenotes rightDenotes =>
    intro child member
    cases op with
    | add =>
      rcases List.mem_pair.mp member with rfl | rfl
      · exact ⟨_, leftDenotes, out.1⟩
      · exact ⟨_, rightDenotes, out.2⟩
    | mul =>
      rcases List.mem_pair.mp member with rfl | rfl
      · exact ⟨_, leftDenotes, out.1.2⟩
      · exact ⟨_, rightDenotes, out.2.2⟩

theorem operands_of_product {left right : Nat} (multiplied : circuit.MultipliedOut id)
    (isProduct : circuit.node? id = some (.product left right)) :
    ∀ operand ∈ [left, right], ∃ formula, circuit.Denotes operand formula ∧ formula.Monomial := by
  obtain ⟨formula, denotes, out⟩ := multiplied
  obtain ⟨first, second, rfl, leftDenotes, rightDenotes⟩ := denotes_binary isProduct denotes
  intro operand member
  rcases List.mem_pair.mp member with rfl | rfl
  · exact ⟨first, leftDenotes, out.1⟩
  · exact ⟨second, rightDenotes, out.2⟩

end Circuit

theorem Build.relinked_unchanged {circuit : Circuit} {forms : Forms} {id : Nat} {node : Node}
    (found : circuit.node? id = some node)
    (kept : ∀ child ∈ node.children, forms[child]? = some child) :
    Yields (relinked forms id) circuit fun form grown => form = id ∧ grown = circuit := by
  have same : node.mapChildren? (fun child => forms[child]?) = some node :=
    Node.mapChildren?_of_kept kept
  refine .after (node_eq found) (.after (lift_eq same circuit) ?_)
  rw [if_pos rfl]
  exact .intro rfl ⟨rfl, rfl⟩

namespace Distributor

variable {circuit : Circuit}

theorem rebuild_unchanged {forms : Forms} {id : Nat} (multiplied : circuit.MultipliedOut id)
    (kept : ∀ child ∈ circuit.children id, forms[child]? = some child) (log : Log) :
    Yields (rebuild forms id log) circuit fun reply grown => reply.1 = id ∧ grown = circuit := by
  obtain ⟨formula, denotes, out⟩ := multiplied
  obtain ⟨node, found, _⟩ := Circuit.denotes_iff.mp denotes
  rw [Circuit.children_of_node? found] at kept
  have relinked := (Yields.memory_lift (Build.relinked_unchanged found kept) log).mono
    fun _ _ holds => holds.2
  refine .memory_after (Build.memory_node_eq found log) ?_
  cases split : node.operands? .mul with
  | none => exact relinked
  | some pair =>
    obtain ⟨left, right⟩ := pair
    obtain rfl := Node.operands?_eq_some.mp split
    have noSum : ∀ operand ∈ [left, right], ∃ child, circuit.node? operand = some child ∧
        (child.operands? .add).isSome = false := by
      intro operand member
      obtain ⟨inner, operandDenotes, notSum, _⟩ :=
        Circuit.operands_of_product ⟨formula, denotes, out⟩ found operand member
      obtain ⟨child, present, _⟩ := Circuit.denotes_iff.mp operandDenotes
      exact ⟨child, present, (isSome_operands?_add present operandDenotes).trans notSum⟩
    obtain ⟨first, leftPresent, leftNoSum⟩ := noSum left (by simp)
    obtain ⟨second, rightPresent, rightNoSum⟩ := noSum right (by simp)
    refine .memory_after (Yields.memory_lookup (kept left (by simp [Node.children])) log circuit) ?_
    refine .memory_after (Yields.memory_lookup (kept right (by simp [Node.children])) log circuit) ?_
    refine .memory_after (Build.memory_node_eq leftPresent log) ?_
    refine .memory_after (Build.memory_node_eq rightPresent log) ?_
    rw [leftNoSum, rightNoSum]
    exact relinked

def Idle (start circuit : Circuit) (distributor : Distributor) : Prop :=
  circuit = start ∧ ∀ id form : Nat, distributor.forms[id]? = some form → form = id

theorem expand_unchanged {root : Nat} (multiplied : circuit.MultipliedOut root) (log : Log) :
    ∃ later, expand root (fresh log) circuit = some ((root, later), circuit) := by
  have ran := @Rewriter.run_yields Log circuit.children rebuild (Idle circuit) circuit
    circuit.MultipliedOut (fun _ _ => circuit.lt_of_mem_children)
    (fun _ => Circuit.multiplied_out_child) root multiplied ?_ (fresh log)
    ⟨rfl, fun id form found => by simp [fresh, Rewriter.fresh] at found⟩
  · obtain ⟨⟨form, later⟩, grown, gives, _, ⟨same, kept⟩, found⟩ := ran
    obtain rfl := kept root form found
    subst same
    have expanded : Yields (expand form (fresh log)) grown
        fun reply next => reply.1 = form ∧ next = grown :=
      .memory_after rfl (.memory_after gives (.memory_after rfl (.intro rfl ⟨rfl, rfl⟩)))
    obtain ⟨⟨_, last⟩, _, finally_, rfl, rfl⟩ := expanded
    exact ⟨last, finally_⟩
  · rintro current distributor id extended out - known ⟨rfl, kept⟩
    have keptChildren : ∀ child ∈ current.children id, distributor.forms[child]? = some child := by
      intro child member
      have found := Std.HashMap.getElem?_eq_some_getElem (known child member)
      rw [found, kept child _ found]
    refine (rebuild_unchanged out keptChildren distributor.memory).mono ?_
    intro reply grown finished
    obtain ⟨form, memory⟩ := reply
    obtain ⟨rfl, rfl⟩ := finished
    refine ⟨Circuit.extends_refl _, rfl, ?_⟩
    intro other value found
    rcases found_in_insert found with ⟨rfl, rfl⟩ | older
    · rfl
    · exact kept other value older

theorem expand_multiplies_out (log : Log) {distributor : Distributor}
    (session : Session expand (fresh log) circuit distributor) {root : Nat}
    (inRange : root < circuit.size) :
    ∃ form later grown, expand root distributor circuit = some ((form, later), grown) ∧
      circuit.Extends grown ∧
      (∃ formula, circuit.Denotes root formula ∧ grown.Denotes form formula.expanded) ∧
      (∀ id left right, grown.Reaches form id → grown.node? id = some (.product left right) →
        ∀ operand ∈ [left, right], ∀ x y, grown.node? operand ≠ some (.sum x y)) ∧
      ∀ other, ∃ again, expand form (fresh other) grown = some ((form, again), grown) := by
  obtain ⟨⟨form, later⟩, grown, gives, rewrites, _⟩ :=
    expand_yields (session_right session) inRange
  obtain ⟨formula, denotes⟩ := circuit.formula?_of_lt_size inRange
  obtain ⟨_, formDenotes, rfl⟩ := rewrites.relates.result_of_denotes
    (Circuit.denotes_of_extends rewrites.extended denotes)
  have multiplied : grown.MultipliedOut form :=
    ⟨formula.expanded, formDenotes, formula.multiplied_out_expanded⟩
  refine ⟨form, later, grown, gives, rewrites.extended, ⟨formula, denotes, formDenotes⟩, ?_,
    expand_unchanged multiplied⟩
  intro id left right reaches isProduct operand member x y isSum
  have below := reaches.of_closed (fun _ => Circuit.multiplied_out_child) multiplied
  obtain ⟨inner, operandDenotes, notSum, _⟩ :=
    Circuit.operands_of_product below isProduct operand member
  obtain ⟨first, second, rfl, _, _⟩ := Circuit.denotes_binary isSum operandDenotes
  cases notSum

theorem product_of_sums_multiplied_out :
    ∃ form later grown, expand 6 (fresh .off) productOfSums = some ((form, later), grown) ∧
      grown.Denotes form (.binary .add
        (.binary .add (.binary .mul (.input "a") (.input "c")) (.binary .mul (.input "a") (.constant 1)))
        (.binary .add (.binary .mul (.input "b") (.input "c"))
          (.binary .mul (.input "b") (.constant 1)))) ∧
      (∀ id left right, grown.Reaches form id → grown.node? id = some (.product left right) →
        ∀ operand ∈ [left, right], ∀ x y, grown.node? operand ≠ some (.sum x y)) ∧
      ∀ other, ∃ again, expand form (fresh other) grown = some ((form, again), grown) := by
  obtain ⟨form, later, grown, gives, _, ⟨formula, denotes, formDenotes⟩, noSum, again⟩ :=
    expand_multiplies_out .off (.start productOfSums) (show 6 < productOfSums.size by decide)
  obtain rfl := Option.some.inj (denotes.symm.trans (show productOfSums.Denotes 6 _ from rfl))
  exact ⟨form, later, grown, gives, formDenotes, noSum, again⟩

end Distributor

end ArithCircuit
