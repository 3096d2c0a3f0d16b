import ArithCircuit.Proofs.Appended
import ArithCircuit.Proofs.Layers

set_option autoImplicit false

namespace ArithCircuit

theorem Formula.depth_le_of_mem_children {formula child : Formula} (member : child ∈ formula.children) :
    child.depth ≤ formula.depth := by
  cases formula with
  | constant | input => exact absurd member List.not_mem_nil
  | binary op left right =>
    have bounds : child.depth ≤ max left.depth right.depth := by
      rcases List.mem_pair.mp member with rfl | rfl
      · exact Nat.le_max_left _ _
      · exact Nat.le_max_right _ _
    cases op with
    | add => exact bounds
    | mul => exact Nat.le_succ_of_le bounds
  | shift direction operand amount =>
    obtain rfl := List.mem_singleton.mp member
    exact Nat.le_refl _

namespace Circuit

variable {circuit : Circuit} {root : Nat} {splits leaves : List Nat}

theorem flat_of_reaches (flat : circuit.HasDepth root 0) {id : Nat} (reaches : circuit.Reaches root id) :
    circuit.HasDepth id 0 := by
  refine @Reaches.of_closed circuit (circuit.HasDepth · 0) ?_ root id reaches flat
  intro user userFlat child member
  obtain ⟨formula, denotes, shallow⟩ := userFlat
  obtain ⟨node, found, _⟩ := denotes_iff.mp denotes
  rw [children_of_node? found] at member
  obtain ⟨operand, inFormula, childDenotes⟩ :=
    exists_of_mem_forall₂ (denotes_children found denotes).flip member
  have less := Formula.depth_le_of_mem_children inFormula
  exact ⟨operand, childDenotes, by omega⟩

theorem not_product_of_flat {id : Nat} (flat : circuit.HasDepth id 0) (left right : Nat) :
    circuit.node? id ≠ some (.product left right) := by
  intro found
  obtain ⟨formula, denotes, shallow⟩ := flat
  obtain ⟨first, second, rfl, _⟩ := denotes_binary found denotes
  exact Nat.succ_ne_zero _ shallow

theorem Chain.exists_cut {op : BinaryOp} (chain : circuit.Chain op leaves root) :
    ∃ splits, circuit.Cut op splits leaves root := by
  induction chain with
  | single id => exact ⟨[], .single id⟩
  | join found _ _ first second =>
    obtain ⟨early, first⟩ := first
    obtain ⟨late, second⟩ := second
    exact ⟨_, .join found first second⟩

theorem Chain.unique {op : BinaryOp} {others : List Nat} (chain : circuit.Chain op leaves root)
    (other : circuit.Chain op others root)
    (whole : ∀ leaf ∈ leaves, ∀ left right, circuit.node? leaf ≠ some (.binary op left right))
    (otherWhole : ∀ leaf ∈ others, ∀ left right, circuit.node? leaf ≠ some (.binary op left right)) :
    leaves = others := by
  induction chain generalizing others with
  | single id =>
    cases other with
    | single => rfl
    | join found => exact absurd found (whole id List.mem_cons_self _ _)
  | join found _ _ first second =>
    cases other with
    | single => exact absurd found (otherWhole _ List.mem_cons_self _ _)
    | join also left right =>
      cases found.symm.trans also
      rw [first left (fun leaf member => whole leaf (List.mem_append_left _ member))
          (fun leaf member => otherWhole leaf (List.mem_append_left _ member)),
        second right (fun leaf member => whole leaf (List.mem_append_right _ member))
          (fun leaf member => otherWhole leaf (List.mem_append_right _ member))]

theorem Cut.mem_splits_of_reaches (cut : circuit.Cut .mul splits leaves root)
    (flat : ∀ leaf ∈ leaves, circuit.HasDepth leaf 0) {id left right : Nat}
    (reaches : circuit.Reaches root id) (found : circuit.node? id = some (.product left right)) :
    id ∈ splits := by
  induction cut with
  | single root =>
    have idFlat := flat_of_reaches (flat root List.mem_cons_self) reaches
    exact absurd found (not_product_of_flat idFlat left right)
  | @join root first second early late before after isProduct _ _ inFirst inSecond =>
    cases reaches with
    | refl => exact List.mem_cons_self
    | step member rest =>
      refine List.mem_cons_of_mem _ (List.mem_append.mpr ?_)
      rw [children_of_node? isProduct] at member
      rcases List.mem_pair.mp member with rfl | rfl
      · exact .inl (inFirst (fun leaf below => flat leaf (List.mem_append_left _ below)) rest)
      · exact .inr (inSecond (fun leaf below => flat leaf (List.mem_append_right _ below)) rest)

theorem isGate_mul_iff {id : Nat} : circuit.isGate (.single (.binary .mul)) id = true ↔
    ∃ left right, circuit.node? id = some (.product left right) := by
  rw [isGate]
  cases circuit.node? id with
  | none => simp
  | some node =>
    cases node with
    | constant | input | shift => simp [GateSet.admits, GateSet.single, Node.kind?]
    | binary op left right => cases op <;> simp [GateSet.admits, GateSet.single, Node.kind?]

theorem Cut.gateCount?_eq (cut : circuit.Cut .mul splits leaves root) (once : splits.Nodup)
    (flat : ∀ leaf ∈ leaves, circuit.HasDepth leaf 0) (inRange : root < circuit.size) :
    circuit.gateCount? [root] (.single (.binary .mul)) = some (leaves.length - 1) := by
  obtain ⟨ids, counted, idsOnce, listed⟩ :=
    Circuit.gateCount?_eq (List.forall_mem_singleton.mpr inRange) (.single (.binary .mul))
  have same : (ids.filter (circuit.isGate (.single (.binary .mul)))).Perm splits := by
    refine (List.perm_ext_iff_of_nodup (idsOnce.filter _) once).mpr fun id => ?_
    rw [List.mem_filter, listed, isGate_mul_iff]
    constructor
    · rintro ⟨⟨other, isRoot, reaches⟩, left, right, found⟩
      obtain rfl := List.mem_singleton.mp isRoot
      exact cut.mem_splits_of_reaches flat reaches found
    · intro member
      exact ⟨⟨root, List.mem_singleton_self root, cut.reaches_split id member⟩,
        cut.split_found id member⟩
  rw [counted, List.countP_eq_length_filter, same.length_eq, cut.length_eq, Nat.add_sub_cancel]

-- A tree of products, none of which has a second use below the root, over leaves of depth zero. The
-- leaves may be repeated; they are no products themselves, since those are deeper.
structure ProductTree (circuit : Circuit) (leaves : List Nat) (root : Nat) : Prop where
  inRange : root < circuit.size
  chain : circuit.Chain .mul leaves root
  shallow : ∀ leaf ∈ leaves, circuit.depth? leaf = some 0
  sole : ∀ gate left right, circuit.Reaches root gate → gate ≠ root →
    circuit.node? gate = some (.product left right) → circuit.usesBelow [root] gate ≤ 1

theorem Chain.reaches {op : BinaryOp} (chain : circuit.Chain op leaves root) :
    ∀ leaf ∈ leaves, circuit.Reaches root leaf := by
  induction chain with
  | single id => exact List.forall_mem_singleton.mpr (.refl id)
  | @join id left right before after found _ _ first second =>
    have edge : ∀ child ∈ [left, right], child ∈ circuit.children id := by
      rw [children_of_node? found]
      exact fun child member => member
    intro leaf member
    cases List.mem_append.mp member with
    | inl here => exact .step (edge left (by simp)) (first leaf here)
    | inr there => exact .step (edge right (by simp)) (second leaf there)

namespace ProductTree

variable (tree : circuit.ProductTree leaves root)

include tree

theorem flat : ∀ leaf ∈ leaves, circuit.HasDepth leaf 0 := by
  intro leaf member
  have less := (tree.chain.reaches leaf member).le
  obtain ⟨formula, denotes⟩ := circuit.formula?_of_lt_size (Nat.lt_of_le_of_lt less tree.inRange)
  have hasDepth : circuit.HasDepth leaf formula.depth := ⟨formula, denotes, rfl⟩
  obtain shallow := Option.some.inj (hasDepth.depth?_eq.symm.trans (tree.shallow leaf member))
  rwa [shallow] at hasDepth

theorem filled : leaves ≠ [] := by
  obtain ⟨splits, cut⟩ := tree.chain.exists_cut
  exact List.ne_nil_of_length_eq_add_one cut.length_eq

-- A split node other than the root has one user, which is split as well, so it is split once.
theorem treeOver : circuit.TreeOver .mul leaves root := by
  obtain ⟨splits, cut⟩ := tree.chain.exists_cut
  refine ⟨splits, leaves, cut, ?_, .refl _⟩
  have reached := cut.reaches_split
  have products := cut.split_found
  have balanced := cut.perm_children
  obtain _ | @⟨_, left, right, early, late, before, after, found, first, second⟩ := cut
  · exact .nil
  have below : ∀ split ∈ early ++ late, split < root := by
    intro split member
    obtain ⟨leftLess, rightLess⟩ := operands_lt_of_node? found
    cases List.mem_append.mp member with
    | inl here => exact Nat.lt_of_le_of_lt (first.reaches_split split here).le leftLess
    | inr there => exact Nat.lt_of_le_of_lt (second.reaches_split split there).le rightLess
  have once : ([root] ++ (early ++ late)).Nodup := by
    apply Circuit.nodup_of_sole_use (List.nodup_singleton root)
    · intro split member isRoot
      exact Nat.ne_of_lt (below split member) (List.mem_singleton.mp isRoot)
    · exact fun split member => Nat.lt_trans (below split member) tree.inRange
    · intro id
      have count := balanced.cons_inv.count_eq id
      simp only [List.append_eq, List.count_append] at count
      rw [usesBy, List.singleton_append, ← count, List.count_append]
      omega
    · intro split member users usersOnce chosen
      obtain ⟨first, second, isProduct⟩ := products split (List.mem_cons_of_mem root member)
      have sole := tree.sole split first second (reached split (List.mem_cons_of_mem root member))
        (Nat.ne_of_lt (below split member)) isProduct
      exact Nat.le_trans (usesBy_le_usesBelow (List.forall_mem_singleton.mpr tree.inRange) usersOnce
        (fun user inUsers => ⟨root, List.mem_singleton_self root, reached user (chosen inUsers)⟩) split)
        sole
  exact once

end ProductTree

section Bounds

variable {operands : List Nat} (tree : circuit.TreeOver .mul operands root)
  (flat : ∀ operand ∈ operands, circuit.HasDepth operand 0)

include tree flat

theorem TreeOver.log2Ceil_le {depth : Nat} (hasDepth : circuit.HasDepth root depth) :
    log2Ceil operands.length ≤ depth := by
  obtain ⟨splits, leaves, cut, _, reordered⟩ := tree
  have zeros : List.Forall₂ circuit.HasDepth leaves (List.replicate leaves.length 0) := by
    rw [← List.map_const', List.forall₂_map_right_iff, List.forall₂_same]
    exact fun leaf member => flat leaf (reordered.mem_iff.mp member)
  have bound := cut.chain.sum_two_pow_le zeros hasDepth
  rw [List.map_replicate, List.sum_replicate_nat, Nat.pow_zero, Nat.mul_one] at bound
  exact ArithCircuit.log2Ceil_le_iff.mpr (reordered.length_eq ▸ bound)

theorem TreeOver.gateCount?_eq (inRange : root < circuit.size) :
    circuit.gateCount? [root] (.single (.binary .mul)) = some (operands.length - 1) := by
  obtain ⟨splits, leaves, cut, once, reordered⟩ := tree
  rw [← reordered.length_eq]
  exact cut.gateCount?_eq once (fun leaf member => flat leaf (reordered.mem_iff.mp member)) inRange

end Bounds

end Circuit

namespace Balancer

section Tree

variable {circuit grown : Circuit} {counted : FanOut} {balancer : Balancer} {root form : Nat}
  {leaves : List Nat}

theorem factors?_of_tree (tree : circuit.ProductTree leaves root)
    (uses : ∀ id, counted.usesOf id = circuit.usesBelow [root] id) {left right : Nat}
    (found : circuit.node? root = some (.product left right)) :
    counted.factors? circuit root = some leaves := by
  obtain ⟨splits, operands, same, cut, _, whole⟩ := Circuit.chain?_cut counted.isShared found
  have unshared : ∀ operand ∈ operands, ∀ left right,
      circuit.node? operand ≠ some (.product left right) := by
    intro operand member first second isProduct
    obtain ⟨less, shared | single⟩ := whole operand member
    · have sole := tree.sole operand first second (cut.chain.reaches operand member)
        (Nat.ne_of_lt less) isProduct
      rw [FanOut.isShared, uses, decide_eq_true_eq] at shared
      exact absurd sole (Nat.not_le_of_lt shared)
    · exact single first second isProduct
  have leavesWhole : ∀ leaf ∈ leaves, ∀ left right,
      circuit.node? leaf ≠ some (.product left right) :=
    fun leaf member => Circuit.not_product_of_flat (tree.flat leaf member)
  rw [← cut.chain.unique tree.chain unshared leavesWhole]
  exact same

theorem Working.form_eq_of_flat {known : Forms}
    (working : Working circuit counted root known grown balancer) (unknown : ∀ id : Nat, known[id]? = none)
    {id value : Nat} (flat : circuit.HasDepth id 0) (found : balancer.forms[id]? = some value) :
    value = id := by
  induction id using Nat.strongRecOn generalizing value with
  | ind id ih =>
    cases working.decided id value (unknown id) found with
    | product isProduct => exact absurd isProduct (Circuit.not_product_of_flat flat _ _)
    | other _ moved =>
      exact moved fun child member next looked => ih child (circuit.lt_of_mem_children member)
        (Circuit.flat_of_reaches flat (.step member (.refl child))) looked

theorem Working.forms_flat {known : Forms} {forms : List Nat}
    (working : Working circuit counted root known grown balancer)
    (formed : List.Forall₂ (fun leaf form => balancer.forms[leaf]? = some form) leaves forms)
    (flat : ∀ leaf ∈ leaves, grown.HasDepth leaf 0) : ∀ form ∈ forms, grown.HasDepth form 0 := by
  intro form member
  obtain ⟨leaf, isLeaf, found⟩ := exists_of_mem_forall₂ formed member
  obtain ⟨formula, result, denotes, formDenotes, improves⟩ := working.improved leaf form found
  have before : grown.HasDepth leaf formula.depth := ⟨formula, denotes, rfl⟩
  have noDeeper := improves.noDeeper
  rw [before.unique (flat leaf isLeaf)] at noDeeper
  exact ⟨result, formDenotes, Nat.le_zero.mp noDeeper⟩

end Tree

theorem reduce_tree (log : Log) {circuit : Circuit} {root : Nat} {leaves : List Nat}
    (tree : circuit.ProductTree leaves root) :
    Yields (reduce root (fresh log)) circuit fun reply grown =>
      circuit.Extends grown ∧ ∃ operands depth, operands.length = leaves.length ∧
        grown.TreeOver .mul operands reply.1 ∧ (∀ operand ∈ operands, grown.HasDepth operand 0) ∧
        grown.HasDepth reply.1 depth ∧ depth ≤ log2Ceil leaves.length ∧
        (reply.1 = root ∨ ∃ before, grown.HasDepth root before ∧ depth < before) := by
  refine (reduce_counts (fresh_right log circuit) (FanOut.empty_counts circuit) tree.inRange).mono ?_
  rintro ⟨form, later⟩ grown ⟨extended, fresh, counted, counts, rootCounted, reached, uses, working,
    found⟩
  dsimp only at working found ⊢
  have unknown : ∀ id : Nat, (Balancer.fresh log).forms[id]? = none := by
    simp [Balancer.fresh, Rewriter.fresh]
  have usesBelow : ∀ id, counted.usesOf id = circuit.usesBelow [root] id := by
    intro id
    rw [List.append_nil] at counts rootCounted
    have listed : ∀ id, id ∈ fresh ↔ circuit.Below [root] id := by
      simp only [Circuit.Below, List.mem_singleton, exists_eq_left]
      exact fun id => ⟨reached id, counts.mem_of_reaches rootCounted⟩
    rw [Circuit.usesBelow_eq (List.forall_mem_singleton.mpr tree.inRange) counts.once listed, uses]
    simp [Balancer.fresh, Rewriter.fresh, FanOut.empty, FanOut.usesOf]
  have flatLater : ∀ leaf ∈ leaves, grown.HasDepth leaf 0 :=
    fun leaf member => (tree.flat leaf member).of_extends extended
  cases working.decided root form (unknown root) found with
  | @product left right before factors operands depths isProduct split _ looked hasDepth haveDepths
      outcome =>
    obtain rfl := Option.some.inj ((factors?_of_tree tree usesBelow isProduct).symm.trans split)
    have formed := forall₂_of_mapM_eq_some looked
    have flat := working.forms_flat formed flatLater
    have atMost : balancedDepth depths ≤ 0 + log2Ceil leaves.length := by
      refine balancedDepth_le (fun depth member => ?_) ?_
      · obtain ⟨operand, isOperand, operandDepth⟩ := exists_of_mem_forall₂ haveDepths member
        exact Nat.le_of_eq (operandDepth.unique (flat operand isOperand))
      · rw [← haveDepths.length_eq, ← formed.length_eq]
        exact le_two_pow_log2Ceil leaves.length
    rw [Nat.zero_add] at atMost
    refine ⟨extended, ?_⟩
    rcases outcome with ⟨rfl, kept⟩ | ⟨rebuilt, formDepth, shallower⟩
    · exact ⟨leaves, before, rfl, tree.treeOver.of_extends extended, flatLater, hasDepth,
        Nat.le_trans kept atMost, .inl rfl⟩
    · exact ⟨operands, balancedDepth depths, formed.length_eq.symm, rebuilt, flat, formDepth, atMost,
        .inr ⟨before, hasDepth, shallower⟩⟩
  | other unsplit =>
    obtain rfl : leaves = [root] := by
      cases tree.chain with
      | single => rfl
      | join isProduct => exact absurd isProduct (unsplit _ _)
    obtain rfl := working.form_eq_of_flat unknown (tree.flat root List.mem_cons_self) found
    have flat := flatLater form List.mem_cons_self
    exact ⟨extended, [form], 0, rfl, tree.treeOver.of_extends extended, flatLater, flat,
      Nat.zero_le _, .inl rfl⟩

theorem reduce_optimal (log : Log) {circuit : Circuit} {root : Nat} {leaves : List Nat}
    (tree : circuit.ProductTree leaves root) :
    ∃ form later grown, reduce root (fresh log) circuit = some ((form, later), grown) ∧
      circuit.Extends grown ∧ grown.depth? form = some (log2Ceil leaves.length) ∧
      grown.gateCount? [form] (.single (.binary .mul)) = some (leaves.length - 1) ∧
      (form = root ↔ circuit.depth? root = some (log2Ceil leaves.length)) := by
  obtain ⟨⟨form, later⟩, grown, gives, extended, operands, depth, sameLength, rebuilt, flat, hasDepth,
    atMost, outcome⟩ := reduce_tree log tree
  have atLeast := rebuilt.log2Ceil_le flat hasDepth
  rw [sameLength] at atLeast
  obtain rfl := Nat.le_antisymm atMost atLeast
  obtain ⟨formula, denotes, sameDepth⟩ := hasDepth
  refine ⟨form, later, grown, gives, extended, Circuit.HasDepth.depth?_eq ⟨formula, denotes, sameDepth⟩,
    sameLength ▸ rebuilt.gateCount?_eq flat (Circuit.lt_size_of_denotes denotes), ?_⟩
  obtain ⟨old, rootDenotes⟩ := circuit.formula?_of_lt_size tree.inRange
  have rootDepth : circuit.HasDepth root old.depth := ⟨old, rootDenotes, rfl⟩
  rw [rootDepth.depth?_eq, Option.some.injEq]
  constructor
  · rintro rfl
    exact (rootDepth.of_extends extended).unique ⟨formula, denotes, sameDepth⟩
  · intro already
    refine outcome.resolve_right ?_
    rintro ⟨before, beforeDepth, shallower⟩
    have same := beforeDepth.unique (rootDepth.of_extends extended)
    omega

theorem reduce_leaning_product_optimal :
    ∃ form later grown, reduce 6 (fresh .off) leaningProduct = some ((form, later), grown) ∧
      grown.depth? form = some 2 ∧
      grown.gateCount? [form] (.single (.binary .mul)) = some 3 ∧ form ≠ 6 := by
  have chain : leaningProduct.Chain .mul [0, 1, 2, 3] 6 :=
    .join rfl (.join rfl (.join rfl (.single 0) (.single 1)) (.single 2)) (.single 3)
  have shallow : ∀ leaf ∈ [0, 1, 2, 3], leaningProduct.depth? leaf = some 0 := by
    intro leaf member
    obtain rfl | rfl | rfl | rfl : leaf = 0 ∨ leaf = 1 ∨ leaf = 2 ∨ leaf = 3 := by
      simpa using member
    all_goals exact Circuit.HasDepth.depth?_eq ⟨_, rfl, rfl⟩
  have few : ∀ gate < 6, leaningProduct.usesBy (List.range 7) gate ≤ 1 := by decide
  have tree : leaningProduct.ProductTree [0, 1, 2, 3] 6 := by
    refine ⟨by decide, chain, shallow, fun gate left right reaches other _ => ?_⟩
    exact Nat.le_trans (Circuit.usesBelow_le (by decide) gate)
      (few gate (Nat.lt_of_le_of_ne reaches.le other))
  obtain ⟨form, later, grown, gives, _, depth, gates, kept⟩ := reduce_optimal .off tree
  refine ⟨form, later, grown, gives, depth, gates, fun same => ?_⟩
  have before : leaningProduct.depth? 6 = some 3 := Circuit.HasDepth.depth?_eq ⟨_, rfl, rfl⟩
  exact absurd (before.symm.trans (kept.mp same)) (by decide)

end Balancer

end ArithCircuit
