import ArithCircuit.Depth
import ArithCircuit.Proofs.Denotation
import ArithCircuit.Proofs.Schedule

set_option autoImplicit false

namespace ArithCircuit

namespace Circuit

def HasDepth (circuit : Circuit) (id depth : Nat) : Prop :=
  ∃ formula, circuit.Denotes id formula ∧ formula.depth = depth

theorem HasDepth.of_extends {old new : Circuit} (extended : old.Extends new) {id depth : Nat}
    (hasDepth : old.HasDepth id depth) : new.HasDepth id depth := by
  obtain ⟨formula, denotes, same⟩ := hasDepth
  exact ⟨formula, denotes_of_extends extended denotes, same⟩

theorem HasDepth.unique {circuit : Circuit} {id first second : Nat}
    (one : circuit.HasDepth id first) (other : circuit.HasDepth id second) : first = second := by
  obtain ⟨formula, denotes, rfl⟩ := one
  obtain ⟨also, alsoDenotes, rfl⟩ := other
  cases denotes.symm.trans alsoDenotes
  rfl

theorem forall_hasDepth_unique {circuit : Circuit} {ids first second : List Nat}
    (one : List.Forall₂ circuit.HasDepth ids first)
    (other : List.Forall₂ circuit.HasDepth ids second) : first = second := by
  have functional : Relator.RightUnique circuit.HasDepth := fun _ _ _ => HasDepth.unique
  exact List.right_unique_forall₂' functional one other

theorem forall_hasDepth {circuit : Circuit} {ids : List Nat} {formulas : List Formula}
    (denote : List.Forall₂ circuit.Denotes ids formulas) :
    List.Forall₂ circuit.HasDepth ids (formulas.map Formula.depth) :=
  List.forall₂_map_right_iff.mpr (denote.imp fun _ formula denotes => ⟨formula, denotes, rfl⟩)

end Circuit

namespace DepthTable

def Right (circuit : Circuit) (table : DepthTable) : Prop :=
  ∀ id depth, table.depths[id]? = some depth →
    ∃ formula, circuit.Denotes id formula ∧ formula.depth = depth

theorem empty_right (circuit : Circuit) : Right circuit .empty := by
  intro id depth found
  simp [empty] at found

theorem right_of_extends {old new : Circuit} {table : DepthTable} (extended : old.Extends new)
    (right : Right old table) : Right new table := by
  intro id depth found
  obtain ⟨formula, denotes, same⟩ := right id depth found
  exact ⟨formula, Circuit.denotes_of_extends extended denotes, same⟩

theorem gateDepth_eq {circuit : Circuit} {id : Nat} {node : Node} {formula : Formula}
    {below : List Nat} (found : circuit.node? id = some node) (denotes : circuit.Denotes id formula)
    (operands : List.Forall₂ (fun operand depth => operand.depth = depth) formula.children below) :
    gateDepth node below = formula.depth := by
  cases node with
  | constant value =>
    obtain rfl := Option.some.inj ((Circuit.formula?_of_node? found).symm.trans denotes)
    cases operands
    rfl
  | input name =>
    obtain rfl := Option.some.inj ((Circuit.formula?_of_node? found).symm.trans denotes)
    cases operands
    rfl
  | binary op left right =>
    obtain ⟨first, second, rfl, _, _⟩ := Circuit.denotes_binary found denotes
    obtain _ | ⟨rfl, _ | ⟨rfl, ⟨⟩⟩⟩ := operands
    cases op with
    | add => simp [gateDepth, Node.kind?, Formula.depth]
    | mul => simp [gateDepth, Node.kind?, Formula.depth]
  | shift direction operand amount =>
    obtain ⟨inner, rfl, _⟩ := Circuit.denotes_shift found denotes
    obtain _ | ⟨rfl, ⟨⟩⟩ := operands
    simp [gateDepth, Node.kind?, Formula.depth]

theorem enter_right {circuit : Circuit} {table : DepthTable} {id : Nat} {formula : Formula}
    (right : Right circuit table) (denotes : circuit.Denotes id formula)
    (known : ∀ child ∈ circuit.children id, child ∈ table.depths) :
    ∃ next, enter circuit table id = some next ∧ Right circuit next ∧
      ∀ other, other ∈ next.depths ↔ other ∈ table.depths ∨ other = id := by
  obtain ⟨node, found, _⟩ := Circuit.denotes_iff.mp denotes
  rw [Circuit.children_of_node? found] at known
  obtain ⟨below, looked, related⟩ := exists_mapM_eq_some fun child member =>
    ⟨_, Std.HashMap.getElem?_eq_some_getElem (known child member)⟩
  have operands := forall₂_trans
    (fun formula child depth (denotes : circuit.Denotes child formula) found => by
      obtain ⟨other, also, same⟩ := right child depth found
      obtain rfl := Option.some.inj (denotes.symm.trans also)
      exact same) (Circuit.denotes_children found denotes).flip related
  refine ⟨⟨table.depths.insert id (gateDepth node below)⟩, ?_, ?_, ?_⟩
  · simp [enter, found, looked]
  · intro other depth entered
    rcases found_in_insert entered with ⟨rfl, rfl⟩ | older
    · exact ⟨formula, denotes, (gateDepth_eq found denotes operands).symm⟩
    · exact right other depth older
  · intro other
    rw [Std.HashMap.mem_insert, beq_iff_eq, or_comm, eq_comm]

theorem enter_all_right {circuit : Circuit} {ready : Nat → Prop} {order : List Nat}
    (inOrder : InOrder circuit.children ready order)
    (inRange : ∀ id ∈ order, id < circuit.size) {table : DepthTable} (right : Right circuit table)
    (known : ∀ id, ready id → id ∈ table.depths) :
    ∃ next, order.foldlM (enter circuit) table = some next ∧ Right circuit next ∧
      ∀ id, ready id ∨ id ∈ order → id ∈ next.depths := by
  induction inOrder generalizing table with
  | nil ready => exact ⟨table, rfl, right, fun id member => known id (by simpa using member)⟩
  | cons ready id rest first _ ih =>
    obtain ⟨formula, denotes⟩ := circuit.formula?_of_lt_size (inRange id List.mem_cons_self)
    obtain ⟨middle, entered, middleRight, contents⟩ :=
      enter_right right denotes fun child member => known child (first child member)
    obtain ⟨next, folded, nextRight, complete⟩ :=
      ih (fun other member => inRange other (List.mem_cons_of_mem _ member)) middleRight
        fun other member => (contents other).mpr (member.imp_left (known other))
    refine ⟨next, ?_, nextRight, fun other member => complete other ?_⟩
    · rw [List.foldlM_cons, entered]
      exact folded
    · simpa [or_assoc] using member

theorem depth_yields {circuit : Circuit} {table : DepthTable} {root : Nat} {formula : Formula}
    (right : Right circuit table) (denotes : circuit.Denotes root formula) :
    Yields (depth circuit root) table fun result next =>
      result = formula.depth ∧ Right circuit next := by
  have scheduled := schedule_scheduled circuit.children table.depths.contains
    (fun _ _ => circuit.lt_of_mem_children) root
  obtain ⟨next, folded, nextRight, complete⟩ :=
    enter_all_right scheduled.inOrder (fun id member => Nat.lt_of_le_of_lt
      (scheduled.bounded id member) (Circuit.lt_size_of_denotes denotes)) right
      fun id => Std.HashMap.contains_iff_mem.mp
  have present := complete root scheduled.root
  have found := Std.HashMap.getElem?_eq_some_getElem present
  obtain ⟨other, also, same⟩ := nextRight root _ found
  obtain rfl := Option.some.inj (also.symm.trans denotes)
  refine ⟨other.depth, next, ?_, rfl, nextRight⟩
  unfold depth
  rw [← same] at found
  simp [folded, found]

theorem depths_yield {circuit : Circuit} {table : DepthTable} {roots : List Nat}
    {formulas : List Formula} (right : Right circuit table)
    (denote : List.Forall₂ circuit.Denotes roots formulas) :
    Yields (roots.mapM (depth circuit)) table fun results next =>
      results = formulas.map Formula.depth ∧ Right circuit next := by
  induction denote generalizing table with
  | nil => exact .intro rfl ⟨rfl, right⟩
  | cons denotes _ ih =>
    rw [List.mapM_cons]
    refine .bind (depth_yields right denotes) ?_
    intro first next finished
    obtain ⟨rfl, nextRight⟩ := finished
    refine .bind (ih nextRight) ?_
    intro results last finished
    obtain ⟨rfl, lastRight⟩ := finished
    exact .intro rfl ⟨rfl, lastRight⟩

end DepthTable

theorem Circuit.HasDepth.depth?_eq {circuit : Circuit} {id depth : Nat}
    (hasDepth : circuit.HasDepth id depth) : circuit.depth? id = some depth := by
  obtain ⟨formula, denotes, rfl⟩ := hasDepth
  obtain ⟨_, next, gives, rfl, _⟩ :=
    DepthTable.depth_yields (DepthTable.empty_right circuit) denotes
  unfold depth? StateT.run'
  rw [gives]
  rfl

def Circuit.depthOf (circuit : Circuit) (id : Nat) : Nat := (circuit.depth? id).getD 0

theorem Circuit.HasDepth.depthOf_eq {circuit : Circuit} {id depth : Nat}
    (hasDepth : circuit.HasDepth id depth) : circuit.depthOf id = depth := by
  rw [depthOf, hasDepth.depth?_eq]
  rfl

theorem Circuit.maxDepth?_eq {circuit : Circuit} {roots : List Nat} {formulas : List Formula}
    (denote : List.Forall₂ circuit.Denotes roots formulas) :
    circuit.maxDepth? roots = some ((formulas.map Formula.depth).foldl max 0) := by
  obtain ⟨depths, next, gives, rfl, _⟩ :=
    DepthTable.depths_yield (DepthTable.empty_right circuit) denote
  simp [maxDepth?, StateT.run', gives]

end ArithCircuit
