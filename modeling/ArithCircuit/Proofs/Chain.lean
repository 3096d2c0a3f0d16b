import ArithCircuit.Proofs.Denotation
import ArithCircuit.Proofs.Reachable
import ArithCircuit.Rewrite.Chain
import Mathlib.Data.List.Perm.Basic

set_option autoImplicit false

namespace ArithCircuit

namespace Formula

inductive Chain (op : BinaryOp) : List Formula → Formula → Prop where
  | single (formula : Formula) : Chain op [formula] formula
  | join {left right : List Formula} {first second : Formula} (leftChain : Chain op left first)
      (rightChain : Chain op right second) : Chain op (left ++ right) (.binary op first second)

def operands (op : BinaryOp) : Formula → List Formula
  | .binary other left right =>
    if other = op then left.operands op ++ right.operands op else [.binary other left right]
  | formula => [formula]

theorem operands_of_whole {op : BinaryOp} {formula : Formula}
    (whole : ∀ left right, formula ≠ .binary op left right) : formula.operands op = [formula] := by
  cases formula with
  | constant => rfl
  | input => rfl
  | shift => rfl
  | binary other left right =>
    by_cases same : other = op
    · exact absurd (same ▸ rfl) (whole left right)
    · rw [operands, if_neg same]

theorem Chain.operands_eq {op : BinaryOp} {operands : List Formula} {formula : Formula}
    (chain : Chain op operands formula)
    (whole : ∀ operand ∈ operands, ∀ left right, operand ≠ .binary op left right) :
    formula.operands op = operands := by
  induction chain with
  | single formula => exact operands_of_whole (whole formula List.mem_cons_self)
  | join _ _ first second =>
    rw [Formula.operands, if_pos rfl,
      first fun operand member => whole operand (List.mem_append_left _ member),
      second fun operand member => whole operand (List.mem_append_right _ member)]

def Product (factors : List Formula) (product : Formula) : Prop :=
  factors = [] ∧ product = .constant 1 ∨
    ∃ leaves, leaves.Perm factors ∧ Chain .mul leaves product

end Formula

theorem Node.operands?_eq_some {op : BinaryOp} {node : Node} {left right : Nat} :
    node.operands? op = some (left, right) ↔ node = .binary op left right := by
  cases node with
  | constant | input | shift => simp [operands?]
  | binary other a b =>
    by_cases same : other = op
    · simp [operands?, same]
    · simp [operands?, same]

namespace Circuit

theorem operands_lt_of_node? {circuit : Circuit} {op : BinaryOp} {id left right : Nat}
    (found : circuit.node? id = some (.binary op left right)) : left < id ∧ right < id :=
  ⟨child_lt_of_node? found List.mem_cons_self,
    child_lt_of_node? found (List.mem_cons_of_mem left List.mem_cons_self)⟩

inductive Chain (circuit : Circuit) (op : BinaryOp) : List Nat → Nat → Prop where
  | single (id : Nat) : Chain circuit op [id] id
  | join {id left right : Nat} {before after : List Nat}
      (found : circuit.node? id = some (.binary op left right)) (first : Chain circuit op before left)
      (second : Chain circuit op after right) : Chain circuit op (before ++ after) id

theorem Chain.of_extends {old new : Circuit} (extended : old.Extends new) {op : BinaryOp}
    {operands : List Nat} {root : Nat} (chain : old.Chain op operands root) :
    new.Chain op operands root := by
  induction chain with
  | single id => exact .single id
  | join found _ _ first second => exact .join (extended _ _ found) first second

theorem Chain.denotes {circuit : Circuit} {op : BinaryOp} {operands : List Nat} {root : Nat}
    (chain : circuit.Chain op operands root) {formula : Formula}
    (denotes : circuit.Denotes root formula) :
    ∃ formulas, List.Forall₂ circuit.Denotes operands formulas ∧ Formula.Chain op formulas formula := by
  induction chain generalizing formula with
  | single id => exact ⟨[formula], .cons denotes .nil, .single formula⟩
  | join found _ _ first second =>
    obtain ⟨left, right, rfl, leftDenotes, rightDenotes⟩ := denotes_binary found denotes
    obtain ⟨lefts, leftsDenote, leftChain⟩ := first leftDenotes
    obtain ⟨rights, rightsDenote, rightChain⟩ := second rightDenotes
    exact ⟨lefts ++ rights, List.rel_append leftsDenote rightsDenote, .join leftChain rightChain⟩

theorem Chain.denotes_of_perm {circuit : Circuit} {op : BinaryOp} {leaves operands : List Nat}
    {root : Nat} (chain : circuit.Chain op leaves root) (reordered : leaves.Perm operands)
    {formulas : List Formula} (denote : List.Forall₂ circuit.Denotes operands formulas)
    {formula : Formula} (denotes : circuit.Denotes root formula) :
    ∃ moved, moved.Perm formulas ∧ Formula.Chain op moved formula := by
  obtain ⟨moved, leavesDenote, movedChain⟩ := chain.denotes denotes
  obtain ⟨other, also, otherPerm⟩ := List.perm_comp_forall₂ reordered denote
  have unique : Relator.RightUnique circuit.Denotes :=
    fun _ _ _ first second => Option.some.inj (first.symm.trans second)
  obtain rfl := List.right_unique_forall₂' unique leavesDenote also
  exact ⟨moved, otherPerm, movedChain⟩

inductive Cut (circuit : Circuit) (op : BinaryOp) : (splits operands : List Nat) → Nat → Prop where
  | single (id : Nat) : Cut circuit op [] [id] id
  | join {id left right : Nat} {early late before after : List Nat}
      (found : circuit.node? id = some (.binary op left right))
      (first : Cut circuit op early before left) (second : Cut circuit op late after right) :
      Cut circuit op (id :: (early ++ late)) (before ++ after) id

namespace Cut

variable {circuit : Circuit} {op : BinaryOp} {splits operands : List Nat} {root : Nat}

theorem chain (cut : circuit.Cut op splits operands root) : circuit.Chain op operands root := by
  induction cut with
  | single id => exact .single id
  | join found _ _ first second => exact .join found first second

theorem of_extends {larger : Circuit} (extended : circuit.Extends larger)
    (cut : circuit.Cut op splits operands root) : larger.Cut op splits operands root := by
  induction cut with
  | single id => exact .single id
  | join found _ _ first second => exact .join (extended _ _ found) first second

theorem length_eq (cut : circuit.Cut op splits operands root) :
    operands.length = splits.length + 1 := by
  induction cut with
  | single => rfl
  | join _ _ _ first second => simp only [List.length_append, List.length_cons, first, second]; omega

theorem split_found (cut : circuit.Cut op splits operands root) :
    ∀ split ∈ splits, ∃ left right, circuit.node? split = some (.binary op left right) := by
  induction cut with
  | single => simp
  | @join id left right _ _ _ _ found _ _ first second =>
    intro split member
    rcases List.mem_cons.mp member with rfl | below
    · exact ⟨left, right, found⟩
    · exact (List.mem_append.mp below).elim (first split) (second split)

theorem reaches_split (cut : circuit.Cut op splits operands root) :
    ∀ split ∈ splits, circuit.Reaches root split := by
  induction cut with
  | single => simp
  | @join id left right _ _ _ _ found _ _ first second =>
    have edge : ∀ child ∈ [left, right], child ∈ circuit.children id := by
      rw [children_of_node? found]
      exact fun child member => member
    intro split member
    rcases List.mem_cons.mp member with rfl | below
    · exact .refl split
    · cases List.mem_append.mp below with
      | inl here => exact .step (edge left (by simp)) (first split here)
      | inr there => exact .step (edge right (by simp)) (second split there)

theorem forall_mem {P : Nat → Prop} (cut : circuit.Cut op splits operands root)
    (inherited : ∀ id left right, circuit.node? id = some (.binary op left right) → P id →
      P left ∧ P right) (holds : P root) :
    (∀ split ∈ splits, P split) ∧ ∀ operand ∈ operands, P operand := by
  induction cut with
  | single id => exact ⟨by simp, by simpa using holds⟩
  | @join id left right _ _ _ _ found _ _ first second =>
    obtain ⟨leftHolds, rightHolds⟩ := inherited id left right found holds
    obtain ⟨earlySplits, earlyOperands⟩ := first leftHolds
    obtain ⟨lateSplits, lateOperands⟩ := second rightHolds
    refine ⟨List.forall_mem_cons.mpr ⟨holds, ?_⟩, ?_⟩
    · exact fun split member => (List.mem_append.mp member).elim (earlySplits split) (lateSplits split)
    · exact fun operand member =>
        (List.mem_append.mp member).elim (earlyOperands operand) (lateOperands operand)

theorem perm_children (cut : circuit.Cut op splits operands root) :
    (splits ++ operands).Perm (root :: splits.flatMap circuit.children) := by
  induction cut with
  | single id => exact .refl _
  | @join id left right early late before after found _ _ first second =>
    rw [List.flatMap_cons, children_of_node? found, List.flatMap_append]
    have both := (List.perm_append_comm_assoc late before after).trans (second.append_left before)
    have regrouped : (early ++ late ++ (before ++ after)).Perm
        (left :: early.flatMap circuit.children ++ right :: late.flatMap circuit.children) := by
      rw [List.append_assoc]
      exact (both.append_left early).trans
        (by rw [← List.append_assoc]; exact first.append_right _)
    exact (regrouped.trans (List.perm_middle.cons left)).cons id

end Cut

def Whole (circuit : Circuit) (op : BinaryOp) (atomic : Nat → Bool) (id : Nat) : Prop :=
  atomic id = true ∨ ∀ left right, circuit.node? id ≠ some (.binary op left right)

theorem chainBelow_cut {circuit : Circuit} {op : BinaryOp} {atomic : Nat → Bool} (bound : Nat)
    {id : Nat} (below : id < bound) (rest : List Nat) :
    ∃ splits operands, circuit.chainBelow op atomic bound id rest = operands ++ rest ∧
      circuit.Cut op splits operands id ∧ (∀ split ∈ splits, split ≤ id ∧ atomic split = false) ∧
      ∀ operand ∈ operands, operand ≤ id ∧ circuit.Whole op atomic operand := by
  induction bound generalizing id rest with
  | zero => omega
  | succ bound ih =>
    unfold chainBelow
    by_cases isAtomic : atomic id
    · rw [if_pos isAtomic]
      exact ⟨[], [id], rfl, .single id, by simp, by simp [Whole, isAtomic]⟩
    · rw [if_neg isAtomic]
      cases split : (circuit.node? id).bind (·.operands? op) with
      | none =>
        refine ⟨[], [id], rfl, .single id, by simp, ?_⟩
        simp only [List.mem_singleton, forall_eq, Nat.le_refl, true_and]
        refine .inr fun left right found => ?_
        simp [found, Node.operands?] at split
      | some pair =>
        obtain ⟨left, right⟩ := pair
        obtain ⟨node, found, isBinary⟩ := Option.bind_eq_some_iff.mp split
        obtain rfl := Node.operands?_eq_some.mp isBinary
        obtain ⟨leftLess, rightLess⟩ := operands_lt_of_node? found
        obtain ⟨late, after, afterEq, afterCut, lateOpen, afterWhole⟩ :=
          ih (Nat.lt_of_lt_of_le rightLess (by omega)) rest
        obtain ⟨early, before, beforeEq, beforeCut, earlyOpen, beforeWhole⟩ :=
          ih (Nat.lt_of_lt_of_le leftLess (by omega)) (after ++ rest)
        refine ⟨id :: (early ++ late), before ++ after, ?_, .join found beforeCut afterCut, ?_, ?_⟩
        · simp only [afterEq, beforeEq, List.append_assoc]
        · intro other member
          rcases List.mem_cons.mp member with rfl | inside
          · exact ⟨Nat.le_refl other, by simpa using isAtomic⟩
          · rcases List.mem_append.mp inside with here | there
            · exact ⟨by have := (earlyOpen other here).1; omega, (earlyOpen other here).2⟩
            · exact ⟨by have := (lateOpen other there).1; omega, (lateOpen other there).2⟩
        · intro operand member
          rcases List.mem_append.mp member with here | there
          · exact ⟨by have := (beforeWhole operand here).1; omega, (beforeWhole operand here).2⟩
          · exact ⟨by have := (afterWhole operand there).1; omega, (afterWhole operand there).2⟩

theorem chain?_cut {circuit : Circuit} {op : BinaryOp} (atomic : Nat → Bool) {root left right : Nat}
    (found : circuit.node? root = some (.binary op left right)) :
    ∃ splits operands, circuit.chain? op atomic root = some operands ∧
      circuit.Cut op (root :: splits) operands root ∧
      (∀ split ∈ splits, split < root ∧ atomic split = false) ∧
      ∀ operand ∈ operands, operand < root ∧ circuit.Whole op atomic operand := by
  obtain ⟨leftLess, rightLess⟩ := operands_lt_of_node? found
  obtain ⟨late, after, afterEq, afterCut, lateOpen, afterWhole⟩ :=
    @chainBelow_cut circuit op atomic root right rightLess []
  obtain ⟨early, before, beforeEq, beforeCut, earlyOpen, beforeWhole⟩ :=
    @chainBelow_cut circuit op atomic root left leftLess after
  rw [List.append_nil] at afterEq
  refine ⟨early ++ late, before ++ after, ?_, .join found beforeCut afterCut, ?_, ?_⟩
  · simp [chain?, found, Node.operands?, afterEq, beforeEq]
  · intro split member
    rcases List.mem_append.mp member with here | there
    · exact ⟨by have := (earlyOpen split here).1; omega, (earlyOpen split here).2⟩
    · exact ⟨by have := (lateOpen split there).1; omega, (lateOpen split there).2⟩
  · intro operand member
    rcases List.mem_append.mp member with here | there
    · exact ⟨by have := (beforeWhole operand here).1; omega, (beforeWhole operand here).2⟩
    · exact ⟨by have := (afterWhole operand there).1; omega, (afterWhole operand there).2⟩

theorem chain?_of_binary {circuit : Circuit} {op : BinaryOp} (atomic : Nat → Bool)
    {root left right : Nat} (found : circuit.node? root = some (.binary op left right)) :
    ∃ operands, circuit.chain? op atomic root = some operands ∧ circuit.Chain op operands root ∧
      2 ≤ operands.length ∧
      ∀ operand ∈ operands, operand < root ∧ circuit.Whole op atomic operand := by
  obtain ⟨splits, operands, same, cut, _, whole⟩ := chain?_cut atomic found
  refine ⟨operands, same, cut.chain, ?_, whole⟩
  rw [cut.length_eq, List.length_cons]
  omega

theorem chain?_of_other {circuit : Circuit} {op : BinaryOp} (atomic : Nat → Bool) {root : Nat}
    {node : Node} (found : circuit.node? root = some node)
    (other : ∀ left right, node ≠ .binary op left right) :
    circuit.chain? op atomic root = some [root] := by
  have unsplit : node.operands? op = none := by
    cases split : node.operands? op with
    | none => rfl
    | some pair => exact absurd (Node.operands?_eq_some.mp split) (other pair.1 pair.2)
  simp [chain?, found, unsplit]

theorem chain?_denotes {circuit : Circuit} (op : BinaryOp) {root : Nat} {formula : Formula}
    (denotes : circuit.Denotes root formula) :
    ∃ operands, circuit.chain? op (fun _ => false) root = some operands ∧
      List.Forall₂ circuit.Denotes operands (formula.operands op) := by
  obtain ⟨node, found, _⟩ := denotes_iff.mp denotes
  cases split : node.operands? op with
  | none =>
    have other : ∀ left right, node ≠ .binary op left right := by
      intro left right same
      subst same
      simp [Node.operands?] at split
    have whole : ∀ left right, formula ≠ .binary op left right := by
      intro first second same
      subst same
      obtain ⟨left, right, isBinary⟩ := node?_of_denotes_binary denotes
      exact other left right (Option.some.inj (found.symm.trans isBinary))
    rw [Formula.operands_of_whole whole]
    exact ⟨[root], chain?_of_other _ found other, .cons denotes .nil⟩
  | some pair =>
    obtain rfl := Node.operands?_eq_some.mp split
    obtain ⟨operands, same, chain, _, splits⟩ := chain?_of_binary (fun _ => false) found
    obtain ⟨formulas, denote, formulaChain⟩ := chain.denotes denotes
    have whole : ∀ operand ∈ formulas, ∀ left right, operand ≠ .binary op left right := by
      intro operand member first second same
      subst same
      obtain ⟨id, listed, operandDenotes⟩ := exists_of_mem_forall₂ denote member
      obtain ⟨left, right, isBinary⟩ := node?_of_denotes_binary operandDenotes
      cases (splits id listed).2 with
      | inl isAtomic => cases isAtomic
      | inr other => exact other left right isBinary
    rw [formulaChain.operands_eq whole]
    exact ⟨operands, same, denote⟩

theorem chainBelow_congr {old new : Circuit} (extended : old.Extends new) {op : BinaryOp}
    {atomic atomic' : Nat → Bool} (bound : Nat) {id : Nat} (inRange : id < old.size)
    (agree : ∀ other ≤ id, atomic other = atomic' other) (rest : List Nat) :
    new.chainBelow op atomic' bound id rest = old.chainBelow op atomic bound id rest := by
  induction bound generalizing id rest with
  | zero => rfl
  | succ bound ih =>
    obtain ⟨node, found⟩ := node?_of_lt_size inRange
    unfold chainBelow
    rw [agree id (Nat.le_refl id), extended id node found, found]
    cases split : node.operands? op with
    | none => simp [split]
    | some pair =>
      obtain ⟨left, right⟩ := pair
      obtain rfl := Node.operands?_eq_some.mp split
      obtain ⟨leftLess, rightLess⟩ := operands_lt_of_node? found
      have leftSame := fun rest => ih (by omega : left < old.size)
        (fun other below => agree other (by omega)) rest
      have rightSame := fun rest => ih (by omega : right < old.size)
        (fun other below => agree other (by omega)) rest
      simp only [Option.bind_some, split, leftSame, rightSame]

theorem chain?_congr {old new : Circuit} (extended : old.Extends new) {op : BinaryOp}
    {atomic atomic' : Nat → Bool} {root : Nat} (inRange : root < old.size)
    (agree : ∀ other < root, atomic other = atomic' other) :
    new.chain? op atomic' root = old.chain? op atomic root := by
  obtain ⟨node, found⟩ := node?_of_lt_size inRange
  unfold chain?
  rw [found, extended root node found]
  cases split : node.operands? op with
  | none => simp [split]
  | some pair =>
    obtain ⟨left, right⟩ := pair
    obtain rfl := Node.operands?_eq_some.mp split
    obtain ⟨leftLess, rightLess⟩ := operands_lt_of_node? found
    have leftSame := fun rest => @chainBelow_congr old new extended op atomic atomic' root _
      (by omega : left < old.size) (fun other below => agree other (by omega)) rest
    have rightSame := fun rest => @chainBelow_congr old new extended op atomic atomic' root _
      (by omega : right < old.size) (fun other below => agree other (by omega)) rest
    simp [split, leftSame, rightSame]

end Circuit

end ArithCircuit
