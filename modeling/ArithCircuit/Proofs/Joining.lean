import ArithCircuit.Proofs.Growth
import ArithCircuit.Proofs.Pairing
import Mathlib.Data.List.Perm.Basic

set_option autoImplicit false

namespace ArithCircuit

namespace Circuit

def gained (old new : Circuit) : List Nat := List.range' old.size (new.size - old.size)

theorem mem_gained {old new : Circuit} {id : Nat} :
    id ∈ old.gained new ↔ old.size ≤ id ∧ id < new.size := by
  rw [gained, List.mem_range'_1]
  omega

theorem nodup_gained (old new : Circuit) : (old.gained new).Nodup := List.nodup_range'

theorem gained_self (circuit : Circuit) : circuit.gained circuit = [] := by
  rw [gained, Nat.sub_self, List.range'_zero]

theorem gained_push (circuit : Circuit) (node : Node) (bound) :
    circuit.gained (circuit.push node bound) = [circuit.size] := by
  rw [gained, size_push, Nat.add_sub_cancel_left, List.range'_one]

theorem gained_append {first second third : Circuit} (start : first.Extends second)
    (next : second.Extends third) :
    first.gained second ++ second.gained third = first.gained third := by
  have startLess := size_le_of_extends start
  have nextLess := size_le_of_extends next
  have secondSize : second.size = first.size + 1 * (second.size - first.size) := by omega
  have total : third.size - first.size =
      (second.size - first.size) + (third.size - second.size) := by omega
  rw [gained, gained, gained, total, ← List.range'_append, ← secondSize]

def appended (old new : Circuit) : List Node := new.toNodes.drop old.size

theorem toNodes_eq_append {old new : Circuit} (extended : old.Extends new) :
    new.toNodes = old.toNodes ++ old.appended new := by
  have listed : old.toNodes.length = old.size := Array.length_toList
  rw [appended, ← listed]
  have isPrefix := toNodes_prefix extended
  exact (List.prefix_iff_eq_append.mp isPrefix).symm

theorem appended_push (circuit : Circuit) (node : Node) (bound) :
    circuit.appended (circuit.push node bound) = [node] := by
  have listed : circuit.toNodes.length = circuit.size := Array.length_toList
  have pushed : (circuit.push node bound).toNodes = circuit.toNodes ++ [node] := Array.toList_push
  rw [appended, pushed, ← listed, List.drop_left]

theorem map_node?_gained (old new : Circuit) :
    (old.gained new).map new.node? = (old.appended new).map some := by
  apply List.ext_getElem?
  intro i
  have listed : new.toNodes.length = new.size := Array.length_toList
  have read : new.toNodes[old.size + i]? = new.node? (old.size + i) := Array.getElem?_toList
  by_cases inside : i < new.size - old.size
  · obtain ⟨node, found⟩ := new.node?_of_lt_size (show old.size + i < new.size by omega)
    rw [found] at read
    simp [gained, appended, inside, read, found]
  · simp [gained, appended, inside, listed]

theorem flatMap_children_of_extends {old new : Circuit} (extended : old.Extends new) {ids : List Nat}
    (inRange : ∀ id ∈ ids, id < old.size) : ids.flatMap new.children = ids.flatMap old.children :=
  List.flatMap_congr fun id member => children_of_extends extended (inRange id member)

structure Joins (old new : Circuit) (elements results : List Nat) : Prop where
  extended : old.Extends new
  products : ∀ id ∈ old.gained new, ∃ left right, new.node? id = some (.product left right)
  balanced : (old.gained new ++ elements).Perm (results ++ (old.gained new).flatMap new.children)

namespace Joins

variable {first second third : Circuit} {elements middle results : List Nat}

theorem refl (circuit : Circuit) (elements : List Nat) :
    circuit.Joins circuit elements elements where
  extended := circuit.extends_refl
  products := by simp [gained_self]
  balanced := by simp [gained_self]

theorem trans (start : first.Joins second elements middle) (next : second.Joins third middle results) :
    first.Joins third elements results where
  extended := extends_trans start.extended next.extended
  products := by
    intro id member
    rw [← gained_append start.extended next.extended, List.mem_append] at member
    cases member with
    | inl early =>
      obtain ⟨left, right, found⟩ := start.products id early
      exact ⟨left, right, next.extended id _ found⟩
    | inr late => exact next.products id late
  balanced := by
    have inRange : ∀ id ∈ first.gained second, id < second.size :=
      fun id member => (mem_gained.mp member).2
    have early := flatMap_children_of_extends next.extended inRange
    rw [← gained_append start.extended next.extended, List.flatMap_append, early]
    refine List.perm_iff_count.mpr fun id => ?_
    have started := start.balanced.count_eq id
    have finished := next.balanced.count_eq id
    simp only [List.count_append] at started finished ⊢
    omega

theorem of_perm {others : List Nat} (joins : first.Joins second elements results)
    (reordered : elements.Perm others) : first.Joins second others results where
  extended := joins.extended
  products := joins.products
  balanced := (reordered.symm.append_left _).trans joins.balanced

theorem carry (joins : first.Joins second elements results) (carried : List Nat) :
    first.Joins second (carried ++ elements) (carried ++ results) where
  extended := joins.extended
  products := joins.products
  balanced := by
    refine List.perm_iff_count.mpr fun id => ?_
    have same := joins.balanced.count_eq id
    simp only [List.count_append] at same ⊢
    omega

theorem mem_or_gained (joins : first.Joins second elements results) {id : Nat}
    (member : id ∈ results) : id ∈ elements ∨ id ∈ first.gained second := by
  have listed := joins.balanced.mem_iff.mpr (List.mem_append_left _ member)
  exact (List.mem_append.mp listed).symm

theorem inRange (joins : first.Joins second elements results)
    (before : ∀ id ∈ elements, id < first.size) : ∀ id ∈ results, id < second.size := by
  intro id member
  cases joins.mem_or_gained member with
  | inl old => exact Nat.lt_of_lt_of_le (before id old) (size_le_of_extends joins.extended)
  | inr new => exact (mem_gained.mp new).2

theorem length_eq (joins : first.Joins second elements results) :
    (first.gained second).length + results.length = elements.length := by
  have edges : ((first.gained second).flatMap second.children).length =
      2 * (first.gained second).length := by
    have pairs : ∀ id ∈ first.gained second, (second.children id).length = 2 := by
      intro id member
      obtain ⟨left, right, found⟩ := joins.products id member
      rw [children_of_node? found]
      rfl
    rw [List.length_flatMap, List.map_congr_left pairs]
    simp [Nat.mul_comm]
  have total := joins.balanced.length_eq
  simp only [List.length_append, edges] at total
  omega

end Joins

end Circuit

namespace Build

theorem append_product {circuit : Circuit} {left right : Nat} (leftInRange : left < circuit.size)
    (rightInRange : right < circuit.size) :
    Yields (append (.product left right)) circuit fun id grown =>
      circuit.Extends grown ∧ circuit.gained grown = [id] ∧
        grown.node? id = some (.product left right) := by
  have bound : ∀ child ∈ (Node.product left right).children, child < circuit.size := by
    simp [Node.children, leftInRange, rightInRange]
  refine .intro (append_eq bound) ⟨circuit.extends_push _ bound, circuit.gained_push _ bound, ?_⟩
  rw [Circuit.node?_push, if_pos rfl]

theorem append_product_joins {circuit : Circuit} {left right : Nat} (leftInRange : left < circuit.size)
    (rightInRange : right < circuit.size) :
    Yields (append (.product left right)) circuit fun id grown =>
      circuit.Joins grown [left, right] [id] := by
  refine (append_product leftInRange rightInRange).mono ?_
  rintro id grown ⟨extended, gained, found⟩
  refine ⟨extended, ?_, ?_⟩
  · rw [gained]
    exact fun other member => ⟨left, right, List.mem_singleton.mp member ▸ found⟩
  · rw [gained, List.flatMap_singleton, Circuit.children_of_node? found]
    rfl

theorem append_appends {circuit : Circuit} {node : Node}
    (bound : ∀ child ∈ node.children, child < circuit.size) :
    Yields (append node) circuit fun _ grown => circuit.appended grown = [node] :=
  .intro (append_eq bound) (circuit.appended_push node bound)

theorem joinNeighbours_joins : ∀ {elements : List Nat} {circuit : Circuit},
    (∀ id ∈ elements, id < circuit.size) →
    Yields (joinNeighbours (fun left right => append (.product left right)) elements) circuit
      fun results grown => circuit.Joins grown elements results
  | [], circuit, _ => .intro rfl (.refl circuit [])
  | [last], circuit, _ => .intro rfl (.refl circuit [last])
  | first :: second :: rest, circuit, inRange => by
    refine .bind (append_product_joins (inRange first (by simp)) (inRange second (by simp))) ?_
    intro id next joined
    have later : ∀ other ∈ rest, other < next.size := fun other member =>
      Nat.lt_of_lt_of_le (inRange other (by simp [member]))
        (Circuit.size_le_of_extends joined.extended)
    refine .bind (joinNeighbours_joins later) ?_
    intro results grown others
    have start := (joined.carry rest).of_perm List.perm_append_comm
    have finish := (others.carry [id]).of_perm List.perm_append_comm
    exact .intro rfl (start.trans finish)

theorem joinLayers_joins (rounds : Nat) {elements : List Nat} {circuit : Circuit}
    (inRange : ∀ id ∈ elements, id < circuit.size) :
    Yields (joinLayers (fun left right => append (.product left right)) rounds elements) circuit
      fun reply grown => ∀ id, reply = some id → circuit.Joins grown elements [id] := by
  induction rounds generalizing elements circuit with
  | zero =>
    match elements with
    | [] => exact .intro rfl (by simp)
    | [last] => exact .intro rfl fun id same => Option.some.inj same ▸ .refl circuit [last]
    | _ :: _ :: _ => exact .intro rfl (by simp)
  | succ rounds ih =>
    match elements with
    | [] => exact .intro rfl (by simp)
    | [last] => exact .intro rfl fun id same => Option.some.inj same ▸ .refl circuit [last]
    | first :: second :: rest =>
      refine .bind (joinNeighbours_joins inRange) ?_
      intro layer next joined
      exact (ih (joined.inRange inRange)).mono fun reply grown rest id same =>
        joined.trans (rest id same)

theorem joinBalanced_joins {elements : List Nat} {circuit : Circuit}
    (inRange : ∀ id ∈ elements, id < circuit.size) :
    Yields (joinBalanced (fun left right => append (.product left right)) elements) circuit
      fun reply grown => ∀ id, reply = some id → circuit.Joins grown elements [id] :=
  joinLayers_joins elements.length inRange

end Build

end ArithCircuit
