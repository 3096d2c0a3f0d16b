import ArithCircuit.Proofs.Appended
import ArithCircuit.Proofs.Layers
import ArithCircuit.Proofs.Refinement

set_option autoImplicit false

namespace ArithCircuit

namespace Circuit

theorem forall_eval?_iff {T : Type} {domain : Domain T} {inputs : String → Option T} {circuit : Circuit}
    {ids : List Nat} {formulas : List Formula} (denote : List.Forall₂ circuit.Denotes ids formulas)
    {values : List T} :
    List.Forall₂ (fun id value => circuit.eval? domain inputs id = some (.ok value)) ids values ↔
      List.Forall₂ (Formula.Evaluates domain inputs) formulas values := by
  induction denote generalizing values with
  | nil => simp
  | cons denotes _ ih =>
    cases values with
    | nil => simp
    | cons value rest =>
      rw [List.forall₂_cons, List.forall₂_cons, ih, eval?_of_denotes domain inputs denotes,
        Option.some.injEq]

end Circuit

namespace Balancer

theorem product_balances {circuit : Circuit} {balancer : Balancer} (right : Right circuit balancer)
    {operands : List Nat} (inRange : ∀ operand ∈ operands, operand < circuit.size) :
    Yields (product operands balancer) circuit fun reply grown =>
      circuit.Balances grown operands reply.1 := by
  have built := withDepths_yields (Build.balancedProduct_yields right.depths inRange)
  exact (Rewriter.inMemory_yields built).mono fun _ _ finished => finished.2.2.2.1

theorem product_appends {circuit grown : Circuit} {operands : List Nat} {form : Nat}
    (joins : circuit.Joins grown operands [form]) :
    (circuit.appended grown).length + 1 = operands.length ∧
      ∀ node ∈ circuit.appended grown, ∃ left right, node = .product left right := by
  have listed := circuit.map_node?_gained grown
  have sameLength := congrArg List.length listed
  rw [List.length_map, List.length_map] at sameLength
  refine ⟨sameLength ▸ joins.length_eq, fun node member => ?_⟩
  have inList : some node ∈ (circuit.gained grown).map grown.node? :=
    listed ▸ List.mem_map_of_mem member
  obtain ⟨id, isGained, found⟩ := List.mem_map.mp inList
  obtain ⟨left, right, isProduct⟩ := joins.products id isGained
  exact ⟨left, right, Option.some.inj (found.symm.trans isProduct)⟩

theorem product_depth_bounds {circuit grown : Circuit} {operands depths : List Nat} {form : Nat}
    (balances : circuit.Balances grown operands form)
    (haveDepths : List.Forall₂ circuit.HasDepth operands depths) :
    (depths.map (2 ^ ·)).sum ≤ 2 ^ balancedDepth depths ∧
      balancedDepth depths ≤ depths.foldl max 0 + log2Ceil operands.length := by
  constructor
  · cases balances.product with
    | inl none =>
      obtain ⟨rfl, _⟩ := none
      cases haveDepths
      exact Nat.zero_le _
    | inr some =>
      obtain ⟨leaves, reordered, chain⟩ := some
      have later := haveDepths.imp fun _ _ known => known.of_extends balances.extended
      obtain ⟨moved, leavesHave, movedPerm⟩ := List.perm_comp_forall₂ reordered later
      rw [← (movedPerm.map _).sum_eq]
      exact chain.sum_two_pow_le leavesHave (balances.hasDepth depths haveDepths)
  · refine balancedDepth_le (fun depth member => ?_) ?_
    · rw [List.foldl_max]
      exact Nat.le_trans (List.le_max?_getD_of_mem member) (Nat.le_max_right _ _)
    · exact haveDepths.length_eq ▸ le_two_pow_log2Ceil operands.length

theorem product_evaluates {circuit grown : Circuit} {operands : List Nat} {form : Nat} {T : Type}
    [CommMonoid T] {domain : Domain T} (mulEq : ∀ x y, domain.mul x y = x * y)
    (liftOne : domain.lift 1 = 1) (inRange : ∀ operand ∈ operands, operand < circuit.size)
    (balances : circuit.Balances grown operands form) (inputs : String → Option T) (value : T) :
    grown.eval? domain inputs form = some (.ok value) ↔
      ∃ values, List.Forall₂ (fun operand value =>
        circuit.eval? domain inputs operand = some (.ok value)) operands values ∧
        values.prod = value := by
  obtain ⟨formula, denotes⟩ := grown.formula?_of_lt_size balances.inRange
  obtain ⟨formulas, denote⟩ := exists_forall₂ fun operand member =>
    circuit.formula?_of_lt_size (inRange operand member)
  have later := Circuit.forall_denotes_of_extends balances.extended denote
  have holds := balances.product.denotes later denotes
  rw [Circuit.eval?_of_denotes domain inputs denotes, Option.some.injEq]
  exact (holds.evaluates_iff mulEq liftOne).trans
    (exists_congr fun values => and_congr_left' (Circuit.forall_eval?_iff denote).symm)

theorem product_multiplies (log : Log) {circuit : Circuit} {balancer : Balancer}
    (history : History log circuit balancer) {operands : List Nat}
    (inRange : ∀ operand ∈ operands, operand < circuit.size) :
    ∃ form later grown appended depths depth,
      product operands balancer circuit = some ((form, later), grown) ∧
      grown.toNodes = circuit.toNodes ++ appended ∧
      (operands = [] → appended = [.constant 1]) ∧
      (operands ≠ [] → appended.length + 1 = operands.length ∧
        (∀ node ∈ appended, ∃ left right, node = .product left right) ∧
        ∃ splits leaves, grown.Cut .mul splits leaves form ∧
          splits.Perm (circuit.gained grown) ∧ StablySorted circuit.depthOf operands leaves) ∧
      List.Forall₂ (fun operand depth => circuit.depth? operand = some depth) operands depths ∧
      grown.depth? form = some depth ∧ (depths.map (2 ^ ·)).sum ≤ 2 ^ depth ∧
      depth ≤ depths.foldl max 0 + log2Ceil operands.length ∧
      ∀ (T : Type) [CommMonoid T] (domain : Domain T), (∀ x y, domain.mul x y = x * y) →
        domain.lift 1 = 1 → ∀ inputs value,
          grown.eval? domain inputs form = some (.ok value) ↔
            ∃ values, List.Forall₂ (fun operand value =>
              circuit.eval? domain inputs operand = some (.ok value)) operands values ∧
              values.prod = value := by
  obtain ⟨⟨form, later⟩, grown, gives, balances⟩ := product_balances history.counts.1 inRange
  obtain ⟨formulas, denote⟩ := exists_forall₂ fun operand member =>
    circuit.formula?_of_lt_size (inRange operand member)
  have haveDepths := Circuit.forall_hasDepth denote
  obtain ⟨atLeast, atMost⟩ := product_depth_bounds balances haveDepths
  refine ⟨form, later, grown, circuit.appended grown, _, _, gives,
    Circuit.toNodes_eq_append balances.extended, fun empty => (balances.empty empty).2,
    fun filled => ?_, haveDepths.imp fun _ _ known => known.depth?_eq,
    (balances.hasDepth _ haveDepths).depth?_eq, atLeast, atMost, ?_⟩
  · obtain ⟨count, products⟩ := product_appends (balances.joins filled)
    exact ⟨count, products, balances.tree filled⟩
  · intro T _ domain mulEq liftOne inputs value
    exact product_evaluates mulEq liftOne inRange balances inputs value

theorem product_of_mixed_depths :
    ∃ form later grown appended,
      product [5, 0, 0, 4, 1] (fresh .off) leaningProduct = some ((form, later), grown) ∧
      grown.toNodes = leaningProduct.toNodes ++ appended ∧ appended.length = 4 ∧
      grown.eval? .words (List.lookup · [("a", 2), ("b", 3), ("c", 5)]) form = some (.ok 2160) := by
  obtain ⟨form, later, grown, appended, _, _, gives, listed, _, joined, _, _, _, _, evaluates⟩ :=
    product_multiplies .off (.start leaningProduct)
      (show ∀ operand ∈ [5, 0, 0, 4, 1], operand < leaningProduct.size by decide)
  let _ : CommMonoid UInt64 := UInt64.instCommRing.toCommMonoid
  refine ⟨form, later, grown, appended, gives, listed, by simpa using (joined (by simp)).1,
    (evaluates UInt64 .words (fun _ _ => rfl) rfl _ _).mpr ⟨[30, 2, 2, 6, 3], ?_, rfl⟩⟩
  refine .cons ?_ (.cons ?_ (.cons ?_ (.cons ?_ (.cons ?_ .nil)))) <;>
    exact (Circuit.eval?_of_denotes .words _ (show leaningProduct.Denotes _ _ from rfl)).trans rfl

end Balancer

end ArithCircuit
