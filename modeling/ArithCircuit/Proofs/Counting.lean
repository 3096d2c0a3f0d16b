import ArithCircuit.Proofs.Marking
import ArithCircuit.Proofs.Outputs
import Mathlib.Data.Set.Card
import Mathlib.Tactic.IntervalCases

set_option autoImplicit false

namespace ArithCircuit

theorem encard_biUnion_le_sum {α β : Type} {elements : α → Set β} {indices : List α} {sizes : List Nat}
    (sized : List.Forall₂ (fun index size => (elements index).encard = Nat.cast size) indices sizes) :
    (⋃ index ∈ indices, elements index).encard ≤ sizes.sum := by
  induction sized with
  | nil => simp
  | @cons index size rest others here _ ih =>
    have split : (⋃ other ∈ index :: rest, elements other) =
        elements index ∪ ⋃ other ∈ rest, elements other := by
      simp [Set.iUnion_or, Set.iUnion_union_distrib]
    rw [split, List.sum_cons, Nat.cast_add]
    exact (Set.encard_union_le _ _).trans (add_le_add here.le ih)

namespace Circuit

variable {circuit : Circuit} {roots : List Nat} {kinds : GateSet}

def gatesBelow (circuit : Circuit) (kinds : GateSet) (root : Nat) : Set Nat :=
  {id | circuit.Reaches root id ∧ ∃ node kind, circuit.node? id = some node ∧
    node.kind? = some kind ∧ kinds.contains kind = true}

theorem isGate_iff {id : Nat} : circuit.isGate kinds id = true ↔
    ∃ node kind, circuit.node? id = some node ∧ node.kind? = some kind ∧
      kinds.contains kind = true := by
  simp [isGate, GateSet.admits, Option.any_eq_true]

theorem mem_gatesBelow {root id : Nat} : id ∈ circuit.gatesBelow kinds root ↔
    circuit.Reaches root id ∧ circuit.isGate kinds id = true := by
  rw [isGate_iff]
  exact Iff.rfl

theorem gatesBelow_mono {wider : GateSet}
    (covers : ∀ kind, kinds.contains kind = true → wider.contains kind = true) (root : Nat) :
    circuit.gatesBelow kinds root ⊆ circuit.gatesBelow wider root := by
  rintro id ⟨reaches, node, kind, found, isKind, contained⟩
  exact ⟨reaches, node, kind, found, isKind, covers kind contained⟩

theorem gateCount?_eq_encard (inRange : ∀ root ∈ roots, root < circuit.size) (kinds : GateSet) :
    ∃ count : Nat, circuit.gateCount? roots kinds = some count ∧
      (⋃ root ∈ roots, circuit.gatesBelow kinds root).encard = count := by
  obtain ⟨ids, counted, once, listed⟩ := gateCount?_eq inRange kinds
  have gates : (⋃ root ∈ roots, circuit.gatesBelow kinds root) =
      ((ids.filter (circuit.isGate kinds)).toFinset : Set Nat) := by
    ext id
    simp only [Set.mem_iUnion, exists_prop, mem_gatesBelow, List.coe_toFinset, Set.mem_ofPred_eq,
      List.mem_filter, listed, Below]
    constructor
    · rintro ⟨root, member, reaches, isGate⟩
      exact ⟨⟨root, member, reaches⟩, isGate⟩
    · rintro ⟨⟨root, member, reaches⟩, isGate⟩
      exact ⟨root, member, reaches, isGate⟩
  refine ⟨_, counted, ?_⟩
  rw [gates, Set.encard_coe_eq_coe_finsetCard, List.toFinset_card_of_nodup (once.filter _),
    List.countP_eq_length_filter]

theorem encard_gatesBelow {root count : Nat} (inRange : root < circuit.size)
    (counted : circuit.gateCount? [root] kinds = some count) :
    (circuit.gatesBelow kinds root).encard = count := by
  obtain ⟨_, found, size⟩ := gateCount?_eq_encard (List.forall_mem_singleton.mpr inRange) kinds
  obtain rfl := Option.some.inj (found.symm.trans counted)
  simpa using size

theorem gateCount?_mono {more : List Nat} {wider : GateSet}
    (inRange : ∀ root ∈ more, root < circuit.size) (subset : roots ⊆ more)
    (covers : ∀ kind, kinds.contains kind = true → wider.contains kind = true) {count : Nat}
    (counted : circuit.gateCount? roots kinds = some count) :
    ∃ larger, circuit.gateCount? more wider = some larger ∧ count ≤ larger := by
  obtain ⟨_, found, size⟩ := gateCount?_eq_encard (fun root member => inRange root (subset member)) kinds
  obtain rfl := Option.some.inj (found.symm.trans counted)
  obtain ⟨larger, counted, largerSize⟩ := gateCount?_eq_encard inRange wider
  refine ⟨larger, counted, ?_⟩
  apply ENat.natCast_le_natCast.mp
  rw [← size, ← largerSize]
  exact Set.encard_le_encard (Set.biUnion_mono subset fun root _ => gatesBelow_mono covers root)

theorem gateCount?_le_sum (inRange : ∀ root ∈ roots, root < circuit.size) {count : Nat}
    (counted : circuit.gateCount? roots kinds = some count) :
    ∃ each, roots.mapM (fun root => circuit.gateCount? [root] kinds) = some each ∧
      count ≤ each.sum := by
  have alone : ∀ root ∈ roots, ∃ size : Nat, circuit.gateCount? [root] kinds = some size := by
    intro root member
    obtain ⟨size, found, _⟩ :=
      gateCount?_eq_encard (List.forall_mem_singleton.mpr (inRange root member)) kinds
    exact ⟨size, found⟩
  obtain ⟨each, gathered, found⟩ := exists_mapM_eq_some alone
  have sized := ((List.forall₂_and_left roots each).mpr ⟨inRange, found⟩).imp fun _ _ both =>
    encard_gatesBelow both.1 both.2
  obtain ⟨_, again, size⟩ := gateCount?_eq_encard inRange kinds
  obtain rfl := Option.some.inj (again.symm.trans counted)
  refine ⟨each, gathered, ?_⟩
  apply ENat.natCast_le_natCast.mp
  rw [← size]
  exact encard_biUnion_le_sum sized

theorem children_before {ids before after : List Nat} {id : Nat} (ascending : ids.Pairwise (· < ·))
    (closed : ∀ other ∈ ids, ∀ child ∈ circuit.children other, child ∈ ids)
    (split : ids = before ++ id :: after) : ∀ child ∈ circuit.children id, child ∈ before := by
  subst split
  intro child isChild
  have earlier := circuit.lt_of_mem_children isChild
  obtain ⟨_, fromHere, _⟩ := List.pairwise_append.mp ascending
  rcases List.mem_append.mp (closed id (by simp) child isChild) with inFront | notInFront
  · exact inFront
  · rcases List.mem_cons.mp notInFront with rfl | later
    · exact absurd earlier (Nat.lt_irrefl _)
    · exact absurd (List.rel_of_pairwise_cons fromHere later) (Nat.lt_asymm earlier)

theorem reachable?_congr {others : List Nat} (inRange : ∀ root ∈ roots, root < circuit.size)
    (same : ∀ root, root ∈ others ↔ root ∈ roots) :
    circuit.reachable? others = circuit.reachable? roots := by
  obtain ⟨ids, reached, ascending, listed⟩ := reachable?_eq inRange
  obtain ⟨again, reachedAgain, ascendingAgain, listedAgain⟩ :=
    reachable?_eq fun root member => inRange root ((same root).mp member)
  have sameIds : ∀ id, id ∈ again ↔ id ∈ ids := by
    intro id
    simp only [listed, listedAgain, same]
  rw [reached, reachedAgain, eq_of_ascending ascendingAgain ascending sameIds]

theorem gates_counted_once (inRange : ∀ root ∈ roots, root < circuit.size) :
    (∃ ids, circuit.reachable? roots = some ids ∧
      (∃ marks, Leads circuit.marking.turn ⟨roots.reverse, unmarked roots⟩ (.ok ()) ⟨[], marks⟩ ∧
        markedIds marks = ids) ∧
      ids.Pairwise (· < ·) ∧
      (∀ before id after, ids = before ++ id :: after →
        ∀ child ∈ circuit.children id, child ∈ before) ∧
      ∀ id, id ∈ ids ↔ ∃ root ∈ roots, circuit.Reaches root id) ∧
    ∀ kinds, ∃ count : Nat, circuit.gateCount? roots kinds = some count ∧
      (⋃ root ∈ roots, circuit.gatesBelow kinds root).encard = count ∧
      (∀ more wider, (∀ root ∈ more, root < circuit.size) → roots ⊆ more →
        (∀ kind, kinds.contains kind = true → wider.contains kind = true) →
        ∃ larger, circuit.gateCount? more wider = some larger ∧ count ≤ larger) ∧
      (∀ others, (∀ root, root ∈ others ↔ root ∈ roots) →
        circuit.reachable? others = circuit.reachable? roots ∧
          circuit.gateCount? others kinds = some count) ∧
      ∃ each, roots.mapM (fun root => circuit.gateCount? [root] kinds) = some each ∧
        count ≤ each.sum := by
  constructor
  · obtain ⟨ids, reached, ascending, listed⟩ := reachable?_eq inRange
    obtain ⟨marks, leads, lists⟩ := marking_ends inRange
    obtain rfl := Option.some.inj (reached.symm.trans lists)
    refine ⟨_, reached, ⟨marks, leads, rfl⟩, ascending, fun before id after => ?_, listed⟩
    refine children_before ascending fun other member child isChild => ?_
    obtain ⟨root, isRoot, reaches⟩ := (listed other).mp member
    exact (listed child).mpr ⟨root, isRoot, reaches.child isChild⟩
  · intro kinds
    obtain ⟨count, counted, size⟩ := gateCount?_eq_encard inRange kinds
    refine ⟨count, counted, size, ?_, ?_, gateCount?_le_sum inRange counted⟩
    · intro more wider moreInRange subset covers
      exact gateCount?_mono moreInRange subset covers counted
    · intro others same
      have reached := reachable?_congr inRange same
      refine ⟨reached, ?_⟩
      rw [← counted, gateCount?, gateCount?, reached]

def sharedProduct : Circuit where
  nodes := #[.input "x", .input "y", .product 0 1, .product 2 2, .shift .right 3 1, .sum 4 2,
    .sum 2 1]
  earlier := by decide

theorem gates_of_shared_product_counted_once :
    (∀ root ∈ [6, 5, 6], root < sharedProduct.size) ∧
      sharedProduct.reachable? [6, 5, 6] = some (List.range 7) ∧
      sharedProduct.gateCount? [6, 5, 6] .arithmetic = some 4 ∧
      sharedProduct.gateCount? [5, 6] .arithmetic = some 4 := by
  have inRange : ∀ root ∈ [6, 5, 6], root < sharedProduct.size := by decide
  obtain ⟨⟨ids, reached, _, ascending, _, listed⟩, counts⟩ := gates_counted_once inRange
  have below : ∀ id < 7, ∃ root ∈ [6, 5, 6], sharedProduct.Reaches root id := by
    have halved : sharedProduct.Reaches 5 4 := .step (by decide) (.refl 4)
    have squared : sharedProduct.Reaches 5 3 := halved.child (by decide)
    have product : sharedProduct.Reaches 5 2 := squared.child (by decide)
    intro id small
    interval_cases id
    · exact ⟨5, by decide, product.child (by decide)⟩
    · exact ⟨5, by decide, product.child (by decide)⟩
    · exact ⟨5, by decide, product⟩
    · exact ⟨5, by decide, squared⟩
    · exact ⟨5, by decide, halved⟩
    · exact ⟨5, by decide, .refl 5⟩
    · exact ⟨6, by decide, .refl 6⟩
  have all : ids = List.range 7 := by
    refine eq_of_ascending ascending List.pairwise_lt_range fun id => ?_
    rw [listed, List.mem_range]
    refine ⟨?_, below id⟩
    rintro ⟨root, isRoot, reaches⟩
    exact Nat.lt_of_le_of_lt reaches.le (inRange root isRoot)
  subst all
  have four : sharedProduct.gateCount? [6, 5, 6] .arithmetic = some 4 := by
    simp only [gateCount?, reached, Option.bind_eq_bind, Option.bind_some]
    decide
  obtain ⟨count, counted, _, _, reordered, _⟩ := counts .arithmetic
  obtain rfl := Option.some.inj (counted.symm.trans four)
  exact ⟨inRange, reached, four, (reordered [5, 6] (by simp)).2⟩

end Circuit

end ArithCircuit
