import ArithCircuit.Proofs.Minimal
import Mathlib.Order.Bounds.Basic

set_option autoImplicit false

namespace ArithCircuit

namespace Circuit

inductive Path (circuit : Circuit) : Nat → List Nat → Prop where
  | terminal {id : Nat} {node : Node} (found : circuit.node? id = some node)
      (isTerminal : node.isTerminal = true) : Path circuit id [id]
  | step {id child : Nat} {rest : List Nat} (member : child ∈ circuit.children id)
      (path : Path circuit child rest) : Path circuit id (id :: rest)

def productsOn (circuit : Circuit) (path : List Nat) : Nat :=
  path.countP (circuit.isGate (.single (.binary .mul)))

def pathCounts (circuit : Circuit) (id : Nat) : Set Nat :=
  {count | ∃ path, circuit.Path id path ∧ circuit.productsOn path = count}

variable {circuit : Circuit} {id : Nat}

theorem Path.reaches {path : List Nat} (isPath : circuit.Path id path) :
    ∀ other ∈ path, circuit.Reaches id other := by
  induction isPath with
  | terminal => exact List.forall_mem_singleton.mpr (.refl _)
  | step member _ ih =>
    exact List.forall_mem_cons.mpr ⟨.refl _, fun other later => .step member (ih other later)⟩

-- Children stand before their parents, so a path never comes back to a node.
theorem Path.nodup {path : List Nat} (isPath : circuit.Path id path) : path.Nodup := by
  induction isPath with
  | terminal => exact List.nodup_singleton _
  | step member rest ih =>
    refine List.nodup_cons.mpr ⟨fun again => ?_, ih⟩
    have earlier := circuit.lt_of_mem_children member
    have notLater := (rest.reaches _ again).le
    omega

theorem productsOn_cons {node : Node} (found : circuit.node? id = some node) (rest : List Nat) :
    circuit.productsOn (id :: rest) =
      circuit.productsOn rest + if node.kind? = some (.binary .mul) then 1 else 0 := by
  have isProduct : circuit.isGate (.single (.binary .mul)) id =
      decide (node.kind? = some (.binary .mul)) := by
    rw [isGate, found]
    cases node <;> simp [GateSet.admits, GateSet.single, Node.kind?]
  simp [productsOn, List.countP_cons, isProduct]

theorem Path.products_le {path : List Nat} {formula : Formula} (isPath : circuit.Path id path)
    (denotes : circuit.Denotes id formula) : circuit.productsOn path ≤ formula.depth := by
  induction isPath generalizing formula with
  | @terminal id node found isTerminal =>
    have unlike : node.kind? ≠ some (.binary .mul) := fun same => by
      rw [Node.isTerminal, same] at isTerminal
      cases isTerminal
    rw [productsOn_cons found, if_neg unlike]
    exact Nat.zero_le _
  | @step id child rest member _ ih =>
    obtain ⟨node, found, spells⟩ := spells_of_denotes denotes
    rw [children_of_node? found] at member
    rw [productsOn_cons found]
    cases spells with
    | constant | input => cases member
    | @binary op left right first second leftDenotes rightDenotes =>
      have below : circuit.productsOn rest ≤ max first.depth second.depth := by
        rcases List.mem_pair.mp member with rfl | rfl
        · exact (ih leftDenotes).trans (Nat.le_max_left _ _)
        · exact (ih rightDenotes).trans (Nat.le_max_right _ _)
      cases op with
      | add => exact below
      | mul => exact Nat.succ_le_succ below
    | shift direction amount operandDenotes =>
      cases List.mem_singleton.mp member
      have below := ih operandDenotes
      exact below

theorem exists_deepest_path {formula : Formula} (denotes : circuit.Denotes id formula) :
    ∃ path, circuit.Path id path ∧ circuit.productsOn path = formula.depth := by
  induction denotes using denotes_induction with
  | @constant id value _ found => exact ⟨[id], .terminal found rfl, productsOn_cons found []⟩
  | @input id name _ found => exact ⟨[id], .terminal found rfl, productsOn_cons found []⟩
  | @binary id left right op first second _ found _ _ ihFirst ihSecond =>
    have children := children_of_node? found
    obtain ⟨child, rest, member, path, deepest⟩ : ∃ child rest, child ∈ circuit.children id ∧
        circuit.Path child rest ∧ circuit.productsOn rest = max first.depth second.depth := by
      rcases Nat.le_total first.depth second.depth with deeper | deeper
      · obtain ⟨rest, path, count⟩ := ihSecond
        exact ⟨right, rest, by simp [children, Node.children], path,
          count.trans (Nat.max_eq_right deeper).symm⟩
      · obtain ⟨rest, path, count⟩ := ihFirst
        exact ⟨left, rest, by simp [children, Node.children], path,
          count.trans (Nat.max_eq_left deeper).symm⟩
    refine ⟨id :: rest, .step member path, ?_⟩
    rw [productsOn_cons found, deepest]
    cases op <;> rfl
  | @shift id operand _ _ _ _ found _ ih =>
    obtain ⟨rest, path, count⟩ := ih
    refine ⟨id :: rest, .step (by simp [children_of_node? found, Node.children]) path, ?_⟩
    rw [productsOn_cons found, count]
    rfl

theorem depth_isGreatest {formula : Formula} (denotes : circuit.Denotes id formula) :
    IsGreatest (circuit.pathCounts id) formula.depth := by
  refine ⟨exists_deepest_path denotes, ?_⟩
  rintro count ⟨path, isPath, rfl⟩
  exact isPath.products_le denotes

theorem depth_le_card {formula : Formula} (denotes : circuit.Denotes id formula) :
    formula.depth ≤ Nat.card (circuit.GateBelow [id] (.single (.binary .mul))) := by
  obtain ⟨path, isPath, deepest⟩ := exists_deepest_path denotes
  have inRange : ∀ root ∈ [id], root < circuit.size :=
    List.forall_mem_singleton.mpr (lt_size_of_denotes denotes)
  obtain ⟨count, counted, atMost⟩ := countP_le_gateCount? inRange isPath.nodup
    (fun gate member => ⟨id, List.mem_singleton_self id, isPath.reaches gate member⟩)
    (.single (.binary .mul))
  rw [gateCount?_eq_card inRange] at counted
  cases counted
  exact deepest ▸ atMost

theorem foldl_max_eq (depths : List Nat) : depths.foldl max 0 = depths.max?.getD 0 := by
  cases depths with
  | nil => rfl
  | cons first rest =>
    rw [List.max?_cons', List.foldl_cons, Nat.zero_max]
    rfl

theorem depths?_eq {roots : List Nat} {formulas : List Formula}
    (denote : List.Forall₂ circuit.Denotes roots formulas) :
    roots.mapM circuit.depth? = some (formulas.map Formula.depth) := by
  induction denote with
  | nil => rfl
  | cons denotes _ ih =>
    have here := HasDepth.depth?_eq ⟨_, denotes, rfl⟩
    simp [List.mapM_cons, here, ih]

end Circuit

namespace DepthTable

abbrev Session : Circuit → DepthTable → Prop :=
  Inquiry depth (fun circuit root => root < circuit.size) .empty

theorem session_right {circuit : Circuit} {table : DepthTable} (session : Session circuit table) :
    Right circuit table := by
  refine session.invariant empty_right (fun _ _ _ => right_of_extends) ?_
  intro circuit table root inRange right
  obtain ⟨formula, denotes⟩ := circuit.formula?_of_lt_size inRange
  exact (depth_yields right denotes).mono fun _ _ holds => holds.2

theorem depth_counts_products {circuit : Circuit} {table : DepthTable}
    (session : Session circuit table) {roots : List Nat}
    (inRange : ∀ root ∈ roots, root < circuit.size) :
    (∀ root ∈ roots, ∃ answer next, depth circuit root table = some (answer, next) ∧
      circuit.depth? root = some answer ∧ IsGreatest (circuit.pathCounts root) answer ∧
      (∀ node, circuit.node? root = some node → node.isTerminal = true → answer = 0) ∧
      answer ≤ Nat.card (circuit.GateBelow [root] (.single (.binary .mul)))) ∧
    ∃ depths, roots.mapM circuit.depth? = some depths ∧
      circuit.maxDepth? roots = some (depths.max?.getD 0) := by
  have denoted : ∀ root ∈ roots, ∃ formula, circuit.Denotes root formula :=
    fun root member => circuit.formula?_of_lt_size (inRange root member)
  constructor
  · intro root member
    obtain ⟨formula, denotes⟩ := denoted root member
    obtain ⟨_, next, gives, rfl, _⟩ := depth_yields (session_right session) denotes
    have hasDepth : circuit.HasDepth root formula.depth := ⟨formula, denotes, rfl⟩
    refine ⟨_, next, gives, hasDepth.depth?_eq, Circuit.depth_isGreatest denotes, ?_,
      Circuit.depth_le_card denotes⟩
    intro node found isTerminal
    obtain ⟨other, also, spells⟩ := Circuit.spells_of_denotes denotes
    cases found.symm.trans also
    cases spells with
    | constant | input => rfl
    | binary | shift => cases isTerminal
  · obtain ⟨formulas, _, denote⟩ := exists_mapM_eq_some denoted
    refine ⟨formulas.map Formula.depth, Circuit.depths?_eq denote, ?_⟩
    rw [Circuit.maxDepth?_eq denote, Circuit.foldl_max_eq]

def oneProduct : Circuit where
  nodes := #[.input "x", .input "y", .product 0 1]
  earlier := by decide

def threeProducts : Circuit :=
  ((oneProduct.push (.sum 2 0) (by decide)).push (.product 3 3) (by decide)).push (.product 4 2)
    (by decide)

theorem depth_counts_products_after_growth :
    ∃ table next, depth oneProduct 2 .empty = some (1, table) ∧
      depth threeProducts 5 table = some (3, next) ∧ IsGreatest (threeProducts.pathCounts 5) 3 ∧
      3 ≤ Nat.card (threeProducts.GateBelow [5] (.single (.binary .mul))) ∧
      threeProducts.maxDepth? [2, 5, 0] = some 3 ∧ threeProducts.maxDepth? [] = some 0 := by
  have extended : oneProduct.Extends threeProducts :=
    Circuit.extends_trans (Circuit.extends_push _ _ _)
      (Circuit.extends_trans (Circuit.extends_push _ _ _) (Circuit.extends_push _ _ _))
  have denote : List.Forall₂ threeProducts.Denotes [2, 5, 0] _ :=
    .cons rfl (.cons rfl (.cons rfl .nil))
  have started : Session oneProduct .empty := .start oneProduct
  obtain ⟨first, table, gives, alone, _⟩ := (depth_counts_products started
    (show ∀ root ∈ [2], root < oneProduct.size by decide)).1 2 List.mem_cons_self
  have known : oneProduct.HasDepth 2 1 := ⟨_, rfl, rfl⟩
  cases alone.symm.trans known.depth?_eq
  have grown : Session threeProducts table :=
    .grow (.ask started (show 2 < oneProduct.size by decide) gives) extended
  obtain ⟨answers, depths, mapped, deepest⟩ := depth_counts_products grown
    (show ∀ root ∈ [2, 5, 0], root < threeProducts.size by decide)
  obtain ⟨last, next, givesLater, aloneLater, greatest, _, atMost⟩ := answers 5 (by decide)
  have later : threeProducts.HasDepth 5 3 := ⟨_, rfl, rfl⟩
  cases aloneLater.symm.trans later.depth?_eq
  cases mapped.symm.trans (Circuit.depths?_eq denote)
  obtain ⟨_, nothing, noDepth⟩ := (depth_counts_products grown (List.forall_mem_nil _)).2
  cases nothing
  exact ⟨table, next, gives, givesLater, greatest, atMost, deepest, noDepth⟩

end DepthTable

end ArithCircuit
