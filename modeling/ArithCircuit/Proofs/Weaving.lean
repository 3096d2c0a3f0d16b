import ArithCircuit.Proofs.Chain
import ArithCircuit.Proofs.Uses

set_option autoImplicit false

namespace ArithCircuit

namespace Circuit

def isProduct (circuit : Circuit) (id : Nat) : Bool :=
  ((circuit.node? id).bind (·.operands? .mul)).isSome

theorem isProduct_iff {circuit : Circuit} {id : Nat} :
    circuit.isProduct id = true ↔ ∃ left right, circuit.node? id = some (.product left right) := by
  constructor
  · intro split
    obtain ⟨⟨left, right⟩, found⟩ := Option.isSome_iff_exists.mp split
    obtain ⟨node, present, operands⟩ := Option.bind_eq_some_iff.mp found
    obtain rfl := Node.operands?_eq_some.mp operands
    exact ⟨left, right, present⟩
  · intro finished
    obtain ⟨left, right, found⟩ := finished
    rw [isProduct, found]
    rfl

theorem isProduct_of_extends {old new : Circuit} (extended : old.Extends new) {id : Nat}
    (inRange : id < old.size) : new.isProduct id = old.isProduct id := by
  rw [isProduct, isProduct, node?_of_extends extended inRange]

theorem lt_size_of_isProduct {circuit : Circuit} {id : Nat} (product : circuit.isProduct id = true) :
    id < circuit.size := by
  obtain ⟨left, right, found⟩ := isProduct_iff.mp product
  exact lt_size_of_node? found

def gainedProducts (old new : Circuit) : List Nat := (old.gained new).filter new.isProduct

theorem mem_gainedProducts {old new : Circuit} {id : Nat} :
    id ∈ old.gainedProducts new ↔ old.size ≤ id ∧ new.isProduct id = true := by
  rw [gainedProducts, List.mem_filter, mem_gained]
  constructor
  · exact fun member => ⟨member.1.1, member.2⟩
  · exact fun member => ⟨⟨member.1, lt_size_of_isProduct member.2⟩, member.2⟩

theorem nodup_gainedProducts (old new : Circuit) : (old.gainedProducts new).Nodup :=
  (nodup_gained old new).filter _

theorem gainedProducts_append {first second third : Circuit} (start : first.Extends second)
    (next : second.Extends third) :
    first.gainedProducts second ++ second.gainedProducts third = first.gainedProducts third := by
  have early : (first.gained second).filter third.isProduct = first.gainedProducts second :=
    List.filter_congr fun id member => isProduct_of_extends next (mem_gained.mp member).2
  rw [← early, gainedProducts, gainedProducts, ← List.filter_append, gained_append start next]

structure Weaves (old new : Circuit) (elements results : List Nat) : Prop where
  extended : old.Extends new
  present : ∀ result ∈ results, result < new.size
  covered : ∀ id, new.isProduct id = true →
    results.count id + new.usesBy (old.gainedProducts new) id ≤
      (old.gainedProducts new).count id + elements.count id

theorem Joins.weaves {old new : Circuit} {elements results : List Nat}
    (joins : old.Joins new elements results) (inRange : ∀ element ∈ elements, element < old.size) :
    old.Weaves new elements results where
  extended := joins.extended
  present := by
    intro result member
    cases joins.mem_or_gained member with
    | inl given =>
      exact Nat.lt_of_lt_of_le (inRange result given) (size_le_of_extends joins.extended)
    | inr isNew => exact (mem_gained.mp isNew).2
  covered := by
    have allProducts : old.gainedProducts new = old.gained new :=
      List.filter_eq_self.mpr fun id member => isProduct_iff.mpr (joins.products id member)
    intro id _
    have balanced := joins.balanced.count_eq id
    simp only [List.count_append] at balanced
    rw [allProducts, usesBy]
    omega

theorem weaves_of_subperm {circuit : Circuit} {elements results : List Nat}
    (present : ∀ result ∈ results, result < circuit.size) (chosen : results.Subperm elements) :
    circuit.Weaves circuit elements results where
  extended := circuit.extends_refl
  present := present
  covered := by
    intro id _
    rw [gainedProducts, gained_self, List.filter_nil, usesBy_nil]
    have fewer := chosen.count_le id
    simpa using fewer

theorem weaves_of_push {circuit : Circuit} {node : Node} (other : node.operands? .mul = none)
    (bound : ∀ child ∈ node.children, child < circuit.size) (elements : List Nat) :
    circuit.Weaves (circuit.push node bound) elements [circuit.size] := by
  have single : (circuit.push node bound).isProduct circuit.size = false := by
    rw [isProduct, node?_push, if_pos rfl, Option.bind_some, other]
    rfl
  have nothing : circuit.gainedProducts (circuit.push node bound) = [] := by
    rw [gainedProducts, gained_push]
    exact List.filter_cons_of_neg (by simp [single])
  refine ⟨circuit.extends_push node bound, ?_, ?_⟩
  · simp [size_push]
  · intro id product
    have different : circuit.size ≠ id := by
      intro same
      subst same
      rw [single] at product
      contradiction
    rw [nothing, usesBy_nil, List.count_singleton, if_neg (by simpa using different)]
    exact Nat.zero_le _

namespace Weaves

variable {first second third : Circuit} {elements results : List Nat}

theorem covered_later (weaves : first.Weaves second elements results) (further : second.Extends third)
    {id : Nat} (product : third.isProduct id = true) :
    results.count id + third.usesBy (first.gainedProducts second) id ≤
      (first.gainedProducts second).count id + elements.count id := by
  have inRange : ∀ gained ∈ first.gainedProducts second, gained < second.size :=
    fun gained member => lt_size_of_isProduct (mem_gainedProducts.mp member).2
  rw [usesBy_of_extends further inRange]
  by_cases older : id < second.size
  · rw [isProduct_of_extends further older] at product
    exact weaves.covered id product
  · have notResult : results.count id = 0 :=
      List.count_eq_zero.mpr fun member => older (weaves.present id member)
    have unused : second.usesBy (first.gainedProducts second) id = 0 := by
      refine List.count_eq_zero.mpr fun member => ?_
      obtain ⟨user, isGained, uses⟩ := List.mem_flatMap.mp member
      have below := second.lt_of_mem_children uses
      have above := inRange user isGained
      omega
    omega

theorem trans {middle : List Nat} (start : first.Weaves second elements middle)
    (next : second.Weaves third middle results) : first.Weaves third elements results where
  extended := extends_trans start.extended next.extended
  present := next.present
  covered := by
    intro id product
    have early := start.covered_later next.extended product
    have late := next.covered id product
    rw [← gainedProducts_append start.extended next.extended, usesBy_append, List.count_append]
    omega

theorem append {others ends : List Nat} (start : first.Weaves second elements results)
    (next : second.Weaves third others ends) :
    first.Weaves third (elements ++ others) (results ++ ends) where
  extended := extends_trans start.extended next.extended
  present := by
    intro result member
    cases List.mem_append.mp member with
    | inl early =>
      exact Nat.lt_of_lt_of_le (start.present result early) (size_le_of_extends next.extended)
    | inr late => exact next.present result late
  covered := by
    intro id product
    have early := start.covered_later next.extended product
    have late := next.covered id product
    rw [← gainedProducts_append start.extended next.extended, usesBy_append]
    simp only [List.count_append]
    omega

end Weaves

end Circuit

namespace Build

variable {circuit : Circuit} {left right : Nat}

theorem constant_weaves (circuit : Circuit) (value : UInt64) (elements : List Nat) :
    Yields (constant value) circuit fun id grown => circuit.Weaves grown elements [id] :=
  .intro (append_eq (by simp [Node.children])) (Circuit.weaves_of_push rfl _ elements)

theorem add_weaves (leftInRange : left < circuit.size) (rightInRange : right < circuit.size) :
    Yields (add left right) circuit fun id grown => circuit.Weaves grown [left, right] [id] := by
  obtain ⟨node, found⟩ := circuit.node?_of_lt_size leftInRange
  refine .after (node_eq found) ?_
  by_cases zero : node.isConstant 0
  · rw [if_pos zero]
    refine .intro rfl (Circuit.weaves_of_subperm (by simpa using rightInRange) ?_)
    exact (List.sublist_cons_self left [right]).subperm
  · rw [if_neg zero]
    have bound : ∀ child ∈ (Node.sum left right).children, child < circuit.size := by
      simp [Node.children, leftInRange, rightInRange]
    exact .intro (append_eq bound) (Circuit.weaves_of_push rfl bound _)

theorem mul_weaves (leftInRange : left < circuit.size) (rightInRange : right < circuit.size) :
    Yields (mul left right) circuit fun id grown => circuit.Weaves grown [left, right] [id] := by
  obtain ⟨node, found⟩ := circuit.node?_of_lt_size leftInRange
  refine .after (node_eq found) ?_
  by_cases zero : node.isConstant 0
  · rw [if_pos zero]
    refine .intro rfl (Circuit.weaves_of_subperm (by simpa using leftInRange) ?_)
    exact (List.sublist_append_left [left] [right]).subperm
  · rw [if_neg zero]
    by_cases one : node.isConstant 1
    · simp only [one]
      refine .intro rfl (Circuit.weaves_of_subperm (by simpa using rightInRange) ?_)
      exact (List.sublist_cons_self left [right]).subperm
    · simp only [one]
      exact (append_product_joins leftInRange rightInRange).mono fun id grown joins =>
        joins.weaves (by simp [leftInRange, rightInRange])

end Build

end ArithCircuit
