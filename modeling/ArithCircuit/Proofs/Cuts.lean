import ArithCircuit.Proofs.Chain
import ArithCircuit.Proofs.Joining

set_option autoImplicit false

namespace ArithCircuit

namespace Circuit

inductive Cuts (circuit : Circuit) (op : BinaryOp) : (splits operands roots : List Nat) → Prop where
  | nil : Cuts circuit op [] [] []
  | cons {splits operands later others roots : List Nat} {root : Nat}
      (cut : circuit.Cut op splits operands root) (rest : Cuts circuit op later others roots) :
      Cuts circuit op (splits ++ later) (operands ++ others) (root :: roots)

namespace Cuts

variable {circuit : Circuit} {op : BinaryOp} {splits operands roots : List Nat}

theorem of_extends {larger : Circuit} (extended : circuit.Extends larger)
    (cuts : circuit.Cuts op splits operands roots) : larger.Cuts op splits operands roots := by
  induction cuts with
  | nil => exact .nil
  | cons cut _ ih => exact .cons (cut.of_extends extended) ih

theorem singles (circuit : Circuit) (op : BinaryOp) :
    ∀ roots : List Nat, circuit.Cuts op [] roots roots
  | [] => .nil
  | root :: rest => .cons (.single root) (singles circuit op rest)

theorem cut {root : Nat} (cuts : circuit.Cuts op splits operands [root]) :
    circuit.Cut op splits operands root := by
  obtain _ | ⟨cut, ⟨⟩⟩ := cuts
  rwa [List.append_nil, List.append_nil]

end Cuts

def TreeOver (circuit : Circuit) (op : BinaryOp) (operands : List Nat) (root : Nat) : Prop :=
  ∃ splits leaves, circuit.Cut op splits leaves root ∧ splits.Nodup ∧ leaves.Perm operands

theorem TreeOver.of_extends {old new : Circuit} (extended : old.Extends new) {op : BinaryOp}
    {operands : List Nat} {root : Nat} (tree : old.TreeOver op operands root) :
    new.TreeOver op operands root := by
  obtain ⟨splits, leaves, cut, once, reordered⟩ := tree
  exact ⟨splits, leaves, cut.of_extends extended, once, reordered⟩

end Circuit

namespace Build

theorem append_product_cut {circuit : Circuit} {left right : Nat} {early late before after : List Nat}
    (leftInRange : left < circuit.size) (rightInRange : right < circuit.size)
    (first : circuit.Cut .mul early before left) (second : circuit.Cut .mul late after right) :
    Yields (append (.product left right)) circuit fun id grown =>
      circuit.Extends grown ∧ circuit.gained grown = [id] ∧
        grown.Cut .mul (id :: (early ++ late)) (before ++ after) id := by
  refine (append_product leftInRange rightInRange).mono ?_
  rintro id grown ⟨extended, gained, found⟩
  exact ⟨extended, gained, .join found (first.of_extends extended) (second.of_extends extended)⟩

theorem joinNeighbours_cuts : ∀ {elements splits operands : List Nat} {circuit : Circuit},
    (∀ id ∈ elements, id < circuit.size) → circuit.Cuts .mul splits operands elements →
    Yields (joinNeighbours (fun left right => append (.product left right)) elements) circuit
      fun results grown => ∃ more, grown.Cuts .mul more operands results ∧
        more.Perm (splits ++ circuit.gained grown)
  | [], splits, _, circuit, _, cuts =>
    .intro rfl ⟨splits, cuts, by rw [circuit.gained_self, List.append_nil]⟩
  | [_], splits, _, circuit, _, cuts =>
    .intro rfl ⟨splits, cuts, by rw [circuit.gained_self, List.append_nil]⟩
  | first :: second :: rest, _, _, circuit, inRange, .cons one (.cons two others) => by
    refine .bind (append_product_cut (inRange first (by simp)) (inRange second (by simp)) one two) ?_
    intro id next finished
    obtain ⟨extended, gained, cut⟩ := finished
    have later : ∀ other ∈ rest, other < next.size := fun other member =>
      Nat.lt_of_lt_of_le (inRange other (by simp [member])) (Circuit.size_le_of_extends extended)
    refine .bind ((joinNeighbours_cuts later (others.of_extends extended)).both
      (joinNeighbours_joins later)) ?_
    intro results grown finished
    obtain ⟨⟨more, cuts, reordered⟩, joins⟩ := finished
    rw [← List.append_assoc]
    refine .intro rfl ⟨_, .cons (cut.of_extends joins.extended) cuts, ?_⟩
    rw [← Circuit.gained_append extended joins.extended, gained]
    refine List.perm_iff_count.mpr fun gate => ?_
    have same := reordered.count_eq gate
    simp only [List.count_append, List.cons_append, List.nil_append, List.count_cons] at same ⊢
    omega

theorem joinLayers_cuts (rounds : Nat) {elements splits operands : List Nat} {circuit : Circuit}
    (inRange : ∀ id ∈ elements, id < circuit.size) (cuts : circuit.Cuts .mul splits operands elements) :
    Yields (joinLayers (fun left right => append (.product left right)) rounds elements) circuit
      fun reply grown => ∀ id, reply = some id →
        ∃ more, grown.Cut .mul more operands id ∧ more.Perm (splits ++ circuit.gained grown) := by
  induction rounds generalizing elements splits circuit with
  | zero =>
    match elements with
    | [] => exact .intro rfl (by simp)
    | [last] =>
      refine .intro rfl fun id same => ⟨splits, Option.some.inj same ▸ cuts.cut, ?_⟩
      rw [circuit.gained_self, List.append_nil]
    | _ :: _ :: _ => exact .intro rfl (by simp)
  | succ rounds ih =>
    match elements with
    | [] => exact .intro rfl (by simp)
    | [last] =>
      refine .intro rfl fun id same => ⟨splits, Option.some.inj same ▸ cuts.cut, ?_⟩
      rw [circuit.gained_self, List.append_nil]
    | first :: second :: rest =>
      refine .bind ((joinNeighbours_cuts inRange cuts).both (joinNeighbours_joins inRange)) ?_
      intro layer next finished
      obtain ⟨⟨more, later, reordered⟩, joined⟩ := finished
      have inLayer := joined.inRange inRange
      refine ((ih inLayer later).both (joinLayers_joins rounds inLayer)).mono ?_
      intro reply grown finished id same
      obtain ⟨most, cut, gates⟩ := finished.1 id same
      refine ⟨most, cut, gates.trans ?_⟩
      rw [← Circuit.gained_append joined.extended (finished.2 id same).extended, ← List.append_assoc]
      exact reordered.append_right _

theorem joinBalanced_cut {elements : List Nat} {circuit : Circuit}
    (inRange : ∀ id ∈ elements, id < circuit.size) :
    Yields (joinBalanced (fun left right => append (.product left right)) elements) circuit
      fun reply grown => ∀ id, reply = some id →
        ∃ splits, grown.Cut .mul splits elements id ∧ splits.Perm (circuit.gained grown) :=
  joinLayers_cuts elements.length inRange (.singles circuit .mul elements)

end Build

end ArithCircuit
