import ArithCircuit.Proofs.Cuts
import ArithCircuit.Proofs.Depth
import ArithCircuit.Proofs.Weaving
import ArithCircuit.Rewrite.Balance

set_option autoImplicit false

namespace ArithCircuit

structure StablySorted {α : Type} (key : α → Nat) (elements sorted : List α) : Prop where
  reordered : sorted.Perm elements
  ascending : sorted.Pairwise fun x y => key x ≤ key y
  stable : ∀ k, (sorted.filter fun x => key x = k) = elements.filter fun x => key x = k

theorem stablySorted_mergeSort {α : Type} (key : α → Nat) (elements : List α) :
    StablySorted key elements (elements.mergeSort fun x y => key x ≤ key y) where
  reordered := List.mergeSort_perm _ _
  ascending := by
    have sorted : (elements.mergeSort fun x y => decide (key x ≤ key y)).Pairwise
        fun x y => decide (key x ≤ key y) = true :=
      List.pairwise_mergeSort (by simpa using fun x y z => Nat.le_trans)
        (by simpa using fun x y => Nat.le_total _ _) elements
    exact sorted.imp of_decide_eq_true
  stable k := by
    have alike : (elements.filter fun x => key x = k).Pairwise
        fun x y => decide (key x ≤ key y) = true := by
      refine List.pairwise_of_forall_mem_list fun x here y there => decide_eq_true ?_
      have first := of_decide_eq_true (List.mem_filter.mp here).2
      have second := of_decide_eq_true (List.mem_filter.mp there).2
      omega
    have inside := List.sublist_mergeSort (by simpa using fun x y z => Nat.le_trans)
      (by simpa using fun x y => Nat.le_total _ _) alike List.filter_sublist
    have kept := inside.filter fun x => decide (key x = k)
    rw [List.filter_filter] at kept
    simp only [Bool.and_self] at kept
    have sameLength := ((List.mergeSort_perm elements fun x y => key x ≤ key y).filter
      fun x => decide (key x = k)).length_eq
    exact (kept.eq_of_length sameLength.symm).symm

def Circuit.Product (circuit : Circuit) (factors : List Nat) (id : Nat) : Prop :=
  factors = [] ∧ circuit.Denotes id (.constant 1) ∨
    ∃ leaves, leaves.Perm factors ∧ circuit.Chain .mul leaves id

theorem Circuit.Product.chain {circuit : Circuit} {factors : List Nat} {id : Nat}
    (product : circuit.Product factors id) (several : 2 ≤ factors.length) :
    ∃ leaves, leaves.Perm factors ∧ circuit.Chain .mul leaves id := by
  obtain ⟨none, _⟩ | chain := product
  · rw [none] at several
    contradiction
  · exact chain

theorem Circuit.Product.denotes {circuit : Circuit} {factors : List Nat} {id : Nat}
    (product : circuit.Product factors id) {formulas : List Formula}
    (denote : List.Forall₂ circuit.Denotes factors formulas) {formula : Formula}
    (denotes : circuit.Denotes id formula) : Formula.Product formulas formula := by
  cases product with
  | inl none =>
    obtain ⟨rfl, isOne⟩ := none
    cases denote
    exact .inl ⟨rfl, Option.some.inj (denotes.symm.trans isOne)⟩
  | inr some =>
    obtain ⟨leaves, reordered, chain⟩ := some
    exact .inr (chain.denotes_of_perm reordered denote denotes)

-- What a balanced product of the factors is: the constant one for none of them, and otherwise a tree
-- whose gates are the nodes that are gained.
structure Circuit.Balances (old new : Circuit) (factors : List Nat) (form : Nat) : Prop where
  extended : old.Extends new
  inRange : form < new.size
  isNew : 2 ≤ factors.length → old.size ≤ form
  hasDepth : ∀ depths, List.Forall₂ old.HasDepth factors depths →
    new.HasDepth form (balancedDepth depths)
  weaves : old.Weaves new factors [form]
  empty : factors = [] → new.Denotes form (.constant 1) ∧ old.appended new = [.constant 1]
  joins : factors ≠ [] → old.Joins new factors [form]
  tree : factors ≠ [] → ∃ splits leaves, new.Cut .mul splits leaves form ∧
    splits.Perm (old.gained new) ∧ StablySorted old.depthOf factors leaves

theorem Circuit.Balances.product {old new : Circuit} {factors : List Nat} {form : Nat}
    (balances : old.Balances new factors form) : new.Product factors form := by
  by_cases empty : factors = []
  · exact .inl ⟨empty, (balances.empty empty).1⟩
  · obtain ⟨splits, leaves, cut, _, stable⟩ := balances.tree empty
    exact .inr ⟨leaves, stable.reordered, cut.chain⟩

theorem Circuit.Balances.treeOver {old new : Circuit} {factors : List Nat} {form : Nat}
    (balances : old.Balances new factors form) (filled : factors ≠ []) :
    new.TreeOver .mul factors form := by
  obtain ⟨splits, leaves, cut, gates, stable⟩ := balances.tree filled
  exact ⟨splits, leaves, cut, gates.nodup_iff.mpr (nodup_gained old new), stable.reordered⟩

theorem balancedDepth_nil : balancedDepth [] = 0 := by
  simp [balancedDepth, joinBalanced, joinLayers]

def joinDepths (x y : Nat) : Id Nat := max x y + 1

namespace Build

theorem depth_yields {circuit : Circuit} {table : DepthTable} {id : Nat} {formula : Formula}
    (right : table.Right circuit) (denotes : circuit.Denotes id formula) :
    Yields (depth id table) circuit fun reply grown =>
      grown = circuit ∧ reply.1 = formula.depth ∧ reply.2.Right circuit := by
  obtain ⟨result, next, gives, same, nextRight⟩ := DepthTable.depth_yields right denotes
  have read : (get : Build Circuit) circuit = some (circuit, circuit) := rfl
  have lifted : (liftM (DepthTable.depth circuit id table) : Build (Nat × DepthTable)) circuit =
      some ((result, next), circuit) := by
    rw [gives]
    rfl
  exact .after read (.intro lifted ⟨rfl, same, nextRight⟩)

theorem depths_yield {circuit : Circuit} {table : DepthTable} {ids : List Nat}
    {formulas : List Formula} (right : table.Right circuit)
    (denote : List.Forall₂ circuit.Denotes ids formulas) :
    Yields (ids.mapM depth table) circuit fun reply grown =>
      grown = circuit ∧ reply.1 = formulas.map Formula.depth ∧ reply.2.Right circuit := by
  induction denote generalizing table with
  | nil => exact .intro rfl ⟨rfl, rfl, right⟩
  | @cons id formula ids formulas denotes _ ih =>
    rw [List.mapM_cons]
    refine .memory_bind (depth_yields right denotes) ?_
    intro first later next finished
    obtain ⟨rfl, rfl, laterRight⟩ := finished
    refine .memory_bind (ih laterRight) ?_
    intro rest last final finished
    obtain ⟨rfl, rfl, lastRight⟩ := finished
    exact .intro rfl ⟨rfl, rfl, lastRight⟩

theorem keyed_yields {circuit : Circuit} {table : DepthTable} {ids : List Nat}
    (right : table.Right circuit) (inRange : ∀ id ∈ ids, id < circuit.size) :
    Yields ((ids.mapM fun id => return (← depth id, id) : StateT DepthTable Build _) table) circuit
      fun reply grown => grown = circuit ∧ reply.1.map (·.2) = ids ∧ reply.2.Right circuit ∧
        ∀ pair ∈ reply.1, circuit.HasDepth pair.2 pair.1 := by
  induction ids generalizing table with
  | nil => exact .intro rfl ⟨rfl, rfl, right, by simp⟩
  | cons id ids ih =>
    rw [List.mapM_cons]
    obtain ⟨formula, denotes⟩ := circuit.formula?_of_lt_size (inRange id List.mem_cons_self)
    obtain ⟨⟨first, later⟩, next, gives, rfl, same, laterRight⟩ := depth_yields right denotes
    have keyed : Yields ((do return (← depth id, id) : StateT DepthTable Build _) table) next
        fun reply grown => grown = next ∧ reply.1.2 = id ∧ reply.2.Right next ∧
          next.HasDepth reply.1.2 reply.1.1 :=
      .memory_after gives (.intro rfl ⟨rfl, rfl, laterRight, formula, denotes, same.symm⟩)
    refine .memory_bind keyed ?_
    intro pair later next finished
    obtain ⟨rfl, here, laterRight, hasDepth⟩ := finished
    refine .memory_bind (ih laterRight fun other member => inRange other (by simp [member])) ?_
    intro rest last final finished
    obtain ⟨rfl, there, lastRight, haveDepths⟩ := finished
    refine .intro rfl ⟨rfl, ?_, lastRight, List.forall_mem_cons.mpr ⟨hasDepth, haveDepths⟩⟩
    rw [List.map_cons, here, there]

theorem product_mirrors (start : Circuit) :
    Mirrors (fun left right => append (.product left right)) joinLists Circuit.Extends
      fun circuit id leaves => start.Extends circuit ∧ id < circuit.size ∧
        circuit.Chain .mul leaves id ∧ (2 ≤ leaves.length → start.size ≤ id) where
  refl := Circuit.extends_refl
  trans _ _ _ := Circuit.extends_trans
  persists old new id leaves extended := by
    intro finished
    obtain ⟨since, inRange, chain, isNew⟩ := finished
    exact ⟨Circuit.extends_trans since extended,
      Nat.lt_of_lt_of_le inRange (Circuit.size_le_of_extends extended), chain.of_extends extended,
      isNew⟩
  join circuit left right leftLeaves rightLeaves := by
    intro reply finished
    obtain ⟨since, leftInRange, leftChain, _⟩ := reply
    obtain ⟨_, rightInRange, rightChain, _⟩ := finished
    obtain ⟨first, leftDenotes⟩ := circuit.formula?_of_lt_size leftInRange
    obtain ⟨second, rightDenotes⟩ := circuit.formula?_of_lt_size rightInRange
    refine (append_binary_yields .mul leftDenotes rightDenotes).mono ?_
    intro id grown finished
    obtain ⟨rfl, found, gains⟩ := finished
    have chain := Circuit.Chain.join found (leftChain.of_extends gains.extended)
      (rightChain.of_extends gains.extended)
    exact ⟨gains.extended, Circuit.extends_trans since gains.extended,
      Circuit.lt_size_of_denotes gains.denotes, chain,
      fun _ => Circuit.size_le_of_extends since⟩

theorem joinBalanced_product_yields {circuit : Circuit} {factors : List Nat} (filled : factors ≠ [])
    (inRange : ∀ id ∈ factors, id < circuit.size) :
    Yields (joinBalanced (fun left right => append (.product left right)) factors) circuit
      fun reply grown => ∃ id, reply = some id ∧ circuit.Extends grown ∧ id < grown.size ∧
        grown.Chain .mul factors id ∧ (2 ≤ factors.length → circuit.size ≤ id) := by
  have single : List.Forall₂ (fun id leaves => circuit.Extends circuit ∧ id < circuit.size ∧
      circuit.Chain .mul leaves id ∧ (2 ≤ leaves.length → circuit.size ≤ id))
      factors (factors.map fun id => [id]) := by
    rw [List.forall₂_map_right_iff, List.forall₂_same]
    exact fun id member => ⟨circuit.extends_refl, inRange id member, .single id, by simp⟩
  refine ((product_mirrors circuit).joinBalanced single).mono ?_
  intro reply grown finished
  obtain ⟨extended, related⟩ := finished
  rw [joinBalanced_flatten _ (by simpa using filled)] at related
  have leaves : (factors.map fun id => [id]).flatten = factors := by
    rw [← List.flatMap_def, List.flatMap_singleton']
  rw [leaves] at related
  cases related with
  | some reads => exact ⟨_, rfl, extended, reads.2⟩

theorem product_depth_mirrors :
    Mirrors (fun left right => append (.product left right)) joinDepths Circuit.Extends
      Circuit.HasDepth where
  refl := Circuit.extends_refl
  trans _ _ _ := Circuit.extends_trans
  persists _ _ _ _ extended hasDepth := hasDepth.of_extends extended
  join circuit left right leftDepth rightDepth := by
    intro hasLeft hasRight
    obtain ⟨first, leftDenotes, rfl⟩ := hasLeft
    obtain ⟨second, rightDenotes, rfl⟩ := hasRight
    refine (append_binary_yields .mul leftDenotes rightDenotes).mono ?_
    intro id grown finished
    obtain ⟨_, _, gains⟩ := finished
    exact ⟨gains.extended, .binary .mul first second, gains.denotes, rfl⟩

theorem joinBalanced_depth_yields {circuit : Circuit} {factors depths : List Nat}
    (hasDepths : List.Forall₂ circuit.HasDepth factors depths) :
    Yields (joinBalanced (fun left right => append (.product left right)) factors) circuit
      fun reply grown => ∀ id, reply = some id →
        grown.HasDepth id ((joinBalanced joinDepths depths).run.getD 0) := by
  refine (product_depth_mirrors.joinBalanced hasDepths).mono ?_
  intro reply grown finished id same
  subst same
  obtain ⟨_, related⟩ := finished
  generalize (joinBalanced joinDepths depths).run = joined at related ⊢
  cases related with
  | some hasDepth => exact hasDepth

theorem map_fst_sort (keyed : List (Nat × Nat)) :
    (keyed.mergeSort fun x y => x.1 ≤ y.1).map (·.1) = (keyed.map (·.1)).mergeSort (· ≤ ·) :=
  List.map_mergeSort fun _ _ _ _ => rfl

theorem forall_hasDepth_of_keyed {circuit : Circuit} {keyed : List (Nat × Nat)}
    (hasDepths : ∀ pair ∈ keyed, circuit.HasDepth pair.2 pair.1) :
    List.Forall₂ circuit.HasDepth (keyed.map (·.2)) (keyed.map (·.1)) := by
  rw [List.forall₂_map_left_iff, List.forall₂_map_right_iff, List.forall₂_same]
  exact hasDepths

theorem constant_balances (circuit : Circuit) :
    Yields (constant 1) circuit fun id grown => circuit.Balances grown [] id := by
  have childless : ∀ child ∈ (Node.constant 1).children, child < circuit.size := by
    simp [Node.children]
  have made := ((constant_yields circuit 1).both (constant_weaves circuit 1 [])).both
    (append_appends childless)
  refine made.mono ?_
  intro id grown finished
  obtain ⟨⟨gains, weaves⟩, appends⟩ := finished
  exact {
    extended := gains.extended
    inRange := Circuit.lt_size_of_denotes gains.denotes
    isNew := by simp
    hasDepth := by
      intro depths known
      cases known
      exact ⟨.constant 1, gains.denotes, balancedDepth_nil.symm⟩
    weaves
    empty := fun _ => ⟨gains.denotes, appends⟩
    joins := by simp
    tree := by simp }

theorem joinBalanced_balances {circuit : Circuit} {factors sorted depths : List Nat}
    (inRange : ∀ id ∈ factors, id < circuit.size) (filled : factors ≠ [])
    (stable : StablySorted circuit.depthOf factors sorted)
    (haveDepths : List.Forall₂ circuit.HasDepth factors depths)
    (sortedDepths : List.Forall₂ circuit.HasDepth sorted (depths.mergeSort (· ≤ ·))) :
    Yields (joinBalanced (fun left right => append (.product left right)) sorted) circuit
      fun reply grown => ∃ id, reply = some id ∧ circuit.Balances grown factors id := by
  have reordered := stable.reordered
  have some : sorted ≠ [] := by
    rintro rfl
    exact filled reordered.symm.eq_nil
  have sortedInRange : ∀ id ∈ sorted, id < circuit.size := fun id member =>
    inRange id (reordered.mem_iff.mp member)
  have joined := (((joinBalanced_product_yields some sortedInRange).both
    (joinBalanced_depth_yields sortedDepths)).both (joinBalanced_joins sortedInRange)).both
    (joinBalanced_cut sortedInRange)
  refine joined.mono ?_
  intro _ grown finished
  obtain ⟨⟨⟨⟨id, rfl, extended, idInRange, _, isNew⟩, hasDepth⟩, joins⟩, cuts⟩ := finished
  have joins := (joins id rfl).of_perm reordered
  obtain ⟨splits, cut, gates⟩ := cuts id rfl
  exact ⟨id, rfl, {
    extended
    inRange := idInRange
    isNew := reordered.length_eq ▸ isNew
    hasDepth := by
      intro others known
      obtain rfl := Circuit.forall_hasDepth_unique known haveDepths
      exact hasDepth id rfl
    weaves := joins.weaves inRange
    empty := fun none => absurd none filled
    joins := fun _ => joins
    tree := fun _ => ⟨splits, sorted, cut, gates, stable⟩ }⟩

theorem balancedProduct_yields {circuit : Circuit} {table : DepthTable} {factors : List Nat}
    (right : table.Right circuit) (inRange : ∀ id ∈ factors, id < circuit.size) :
    Yields (balancedProduct factors table) circuit fun reply grown =>
      circuit.Balances grown factors reply.1 ∧ reply.2.Right grown := by
  refine .memory_bind (keyed_yields right inRange) ?_
  intro keyed later next finished
  obtain ⟨rfl, listed, laterRight, hasDepths⟩ := finished
  have haveDepths := listed ▸ forall_hasDepth_of_keyed hasDepths
  have sortedDepths := @forall_hasDepth_of_keyed next (keyed.mergeSort fun x y => x.1 ≤ y.1)
    fun pair member => hasDepths pair ((List.mergeSort_perm keyed _).mem_iff.mp member)
  have byDepth : (keyed.mergeSort fun x y => x.1 ≤ y.1).map (·.2) =
      factors.mergeSort fun x y => next.depthOf x ≤ next.depthOf y := by
    rw [← listed]
    refine List.map_mergeSort fun x here y there => ?_
    rw [(hasDepths x here).depthOf_eq, (hasDepths y there).depthOf_eq]
  rw [map_fst_sort, byDepth] at sortedDepths
  rw [byDepth]
  have stable := stablySorted_mergeSort next.depthOf factors
  by_cases empty : factors = []
  · subst empty
    rw [List.mergeSort_nil]
    refine .memory_after rfl ((Yields.memory_lift (constant_balances next) later).mono ?_)
    intro reply grown finished
    obtain ⟨id, _⟩ := reply
    obtain ⟨rfl, balances⟩ := finished
    exact ⟨balances, DepthTable.right_of_extends balances.extended laterRight⟩
  · refine .memory_lift_bind (joinBalanced_balances inRange empty stable haveDepths sortedDepths) ?_
    intro _ grown finished
    obtain ⟨id, rfl, balances⟩ := finished
    exact .intro rfl ⟨balances, DepthTable.right_of_extends balances.extended laterRight⟩

end Build

theorem FanOut.factors?_of_product {fanOut : FanOut} {circuit : Circuit} {id left right : Nat}
    (found : circuit.node? id = some (.product left right)) :
    ∃ factors, fanOut.factors? circuit id = some factors ∧ circuit.Chain .mul factors id ∧
      2 ≤ factors.length ∧ ∀ factor ∈ factors, factor < id := by
  obtain ⟨factors, split, chain, several, smaller⟩ := Circuit.chain?_of_binary fanOut.isShared found
  exact ⟨factors, split, chain, several, fun factor member => (smaller factor member).1⟩

theorem FanOut.factors?_congr {fanOut counted : FanOut} {old new : Circuit}
    (extended : old.Extends new) {id : Nat} (inRange : id < old.size)
    (same : ∀ other < old.size, fanOut.isShared other = counted.isShared other) :
    fanOut.factors? new id = counted.factors? old id :=
  Circuit.chain?_congr extended inRange fun other below => (same other (by omega)).symm

end ArithCircuit
