import ArithCircuit.Proofs.Leaves
import ArithCircuit.Proofs.Uses
import ArithCircuit.Proofs.WorkStack
import Mathlib.Data.List.Sort

set_option autoImplicit false

namespace ArithCircuit

inductive Side where
  | left
  | right

inductive LeftOf : List Side → List Side → Prop where
  | parts (early late : List Side) : LeftOf (.left :: early) (.right :: late)
  | shared (side : Side) {first second : List Side} (below : LeftOf first second) :
      LeftOf (side :: first) (side :: second)

theorem LeftOf.asymm {first second : List Side} (before : LeftOf first second) :
    ¬LeftOf second first := by
  induction before with
  | parts => nofun
  | shared side _ ih =>
    intro after
    cases after with
    | shared _ below => exact ih below

instance : Std.Irrefl LeftOf := ⟨fun _ before => before.asymm before⟩

instance : Std.Antisymm LeftOf := ⟨fun _ _ before after => absurd after before.asymm⟩

section Unfolding

variable {split? : Nat → Option (Nat × Nat)}

inductive Occurs (split? : Nat → Option (Nat × Nat)) : Nat → List Side → Nat → Prop where
  | here (id : Nat) : Occurs split? id [] id
  | left {id left right leaf : Nat} {path : List Side} (parts : split? id = some (left, right))
      (below : Occurs split? left path leaf) : Occurs split? id (.left :: path) leaf
  | right {id left right leaf : Nat} {path : List Side} (parts : split? id = some (left, right))
      (below : Occurs split? right path leaf) : Occurs split? id (.right :: path) leaf

def LeafAt (split? : Nat → Option (Nat × Nat)) (root : Nat) (path : List Side) (leaf : Nat) : Prop :=
  Occurs split? root path leaf ∧ split? leaf = none

-- One entry for each way to a leaf, the way further to the left first.
def LeftToRight (split? : Nat → Option (Nat × Nat)) (root : Nat) (operands : List Nat) : Prop :=
  ∃ paths : List (List Side), paths.Pairwise LeftOf ∧
    (∀ path, path ∈ paths ↔ ∃ leaf, LeafAt split? root path leaf) ∧
    List.Forall₂ (LeafAt split? root) paths operands

theorem Occurs.unique {root first second : Nat} {path : List Side}
    (occurs : Occurs split? root path first) (also : Occurs split? root path second) :
    first = second := by
  induction occurs with
  | here id =>
    cases also
    rfl
  | left parts _ ih =>
    cases also with
    | left alsoParts below =>
      cases parts.symm.trans alsoParts
      exact ih below
  | right parts _ ih =>
    cases also with
    | right alsoParts below =>
      cases parts.symm.trans alsoParts
      exact ih below

theorem LeftToRight.unique {root : Nat} {operands others : List Nat}
    (lists : LeftToRight split? root operands) (also : LeftToRight split? root others) :
    operands = others := by
  obtain ⟨paths, ordered, complete, leaves⟩ := lists
  obtain ⟨otherPaths, otherOrdered, otherComplete, otherLeaves⟩ := also
  obtain rfl : paths = otherPaths :=
    ordered.eq_of_mem_iff otherOrdered fun path => (complete path).trans (otherComplete path).symm
  have rightUnique : Relator.RightUnique (LeafAt split? root) :=
    fun _ _ _ first second => first.1.unique second.1
  exact List.right_unique_forall₂' rightUnique leaves otherLeaves

inductive Unfolds (split? : Nat → Option (Nat × Nat)) : Nat → List Nat → Prop where
  | leaf {id : Nat} (whole : split? id = none) : Unfolds split? id [id]
  | node {id left right : Nat} {before after : List Nat} (parts : split? id = some (left, right))
      (first : Unfolds split? left before) (second : Unfolds split? right after) :
      Unfolds split? id (before ++ after)

theorem leafAt_leaf {id leaf : Nat} {path : List Side} (whole : split? id = none) :
    LeafAt split? id path leaf ↔ path = [] ∧ leaf = id := by
  constructor
  · rintro ⟨occurs, _⟩
    cases occurs with
    | here => exact ⟨rfl, rfl⟩
    | left parts | right parts => simp [whole] at parts
  · rintro ⟨rfl, rfl⟩
    exact ⟨.here _, whole⟩

theorem leafAt_node {id left right leaf : Nat} {path : List Side}
    (parts : split? id = some (left, right)) :
    LeafAt split? id path leaf ↔
      (∃ below, path = .left :: below ∧ LeafAt split? left below leaf) ∨
        ∃ below, path = .right :: below ∧ LeafAt split? right below leaf := by
  constructor
  · rintro ⟨occurs, whole⟩
    cases occurs with
    | here => simp [whole] at parts
    | left alsoParts below =>
      cases parts.symm.trans alsoParts
      exact .inl ⟨_, rfl, below, whole⟩
    | right alsoParts below =>
      cases parts.symm.trans alsoParts
      exact .inr ⟨_, rfl, below, whole⟩
  · rintro (⟨below, rfl, occurs, whole⟩ | ⟨below, rfl, occurs, whole⟩)
    · exact ⟨.left parts occurs, whole⟩
    · exact ⟨.right parts occurs, whole⟩

theorem LeftToRight.node {id left right : Nat} {before after : List Nat}
    (parts : split? id = some (left, right)) (first : LeftToRight split? left before)
    (second : LeftToRight split? right after) : LeftToRight split? id (before ++ after) := by
  obtain ⟨early, earlyOrdered, earlyComplete, earlyLeaves⟩ := first
  obtain ⟨late, lateOrdered, lateComplete, lateLeaves⟩ := second
  refine ⟨early.map (.left :: ·) ++ late.map (.right :: ·), ?_, fun path => ?_, ?_⟩
  · refine List.pairwise_append.mpr ⟨?_, ?_, ?_⟩
    · exact List.pairwise_map.mpr (earlyOrdered.imp (LeftOf.shared .left))
    · exact List.pairwise_map.mpr (lateOrdered.imp (LeftOf.shared .right))
    · intro path member other otherMember
      obtain ⟨below, _, rfl⟩ := List.mem_map.mp member
      obtain ⟨otherBelow, _, rfl⟩ := List.mem_map.mp otherMember
      exact .parts below otherBelow
  · simp only [List.mem_append, List.mem_map, earlyComplete, lateComplete, leafAt_node parts]
    grind
  · refine List.rel_append ?_ ?_
    · exact List.forall₂_map_left_iff.mpr (earlyLeaves.imp fun path _ isLeaf =>
        (leafAt_node parts).mpr (.inl ⟨path, rfl, isLeaf⟩))
    · exact List.forall₂_map_left_iff.mpr (lateLeaves.imp fun path _ isLeaf =>
        (leafAt_node parts).mpr (.inr ⟨path, rfl, isLeaf⟩))

theorem Unfolds.leftToRight {root : Nat} {operands : List Nat} (unfolds : Unfolds split? root operands) :
    LeftToRight split? root operands := by
  induction unfolds with
  | leaf whole =>
    refine ⟨[[]], List.pairwise_singleton _ _, fun path => ?_, ?_⟩
    · simp [leafAt_leaf whole]
    · exact .cons ((leafAt_leaf whole).mpr ⟨rfl, rfl⟩) .nil
  | node parts _ _ first second => exact .node parts first second

theorem Unfolds.whole {root : Nat} {operands : List Nat} (unfolds : Unfolds split? root operands) :
    ∀ operand ∈ operands, split? operand = none := by
  induction unfolds with
  | leaf whole => simpa using whole
  | node _ _ _ first second =>
    exact fun operand member => (List.mem_append.mp member).elim (first operand) (second operand)

end Unfolding

def Domain.joined? {T : Type} (domain : Domain T) (op : BinaryOp) : List T → Option T
  | [] => none
  | first :: rest => some (rest.foldl (domain.binary op) first)

namespace Circuit

def parts? (circuit : Circuit) (op : BinaryOp) (atomic : Nat → Bool) (root id : Nat) :
    Option (Nat × Nat) :=
  if id ≠ root ∧ atomic id then none else (circuit.node? id).bind (·.operands? op)

variable {circuit : Circuit} {op : BinaryOp} {atomic : Nat → Bool} {root : Nat}

theorem parts?_eq_some {id left right : Nat} :
    circuit.parts? op atomic root id = some (left, right) ↔
      (id = root ∨ atomic id = false) ∧ circuit.node? id = some (.binary op left right) := by
  unfold parts?
  split
  · rename_i isAtomic
    simp [isAtomic]
  · rename_i isOpen
    simp only [Option.bind_eq_some_iff, Node.operands?_eq_some, exists_eq_right]
    grind

theorem parts?_eq_none {id : Nat} :
    circuit.parts? op atomic root id = none ↔
      (id ≠ root ∧ atomic id = true) ∨ ∀ left right, circuit.node? id ≠ some (.binary op left right) := by
  rw [Option.eq_none_iff_forall_ne_some, Prod.forall]
  simp only [ne_eq, parts?_eq_some]
  grind

-- The induction is on the bound; below `root` no node is `root`, so that atomic nodes are not split.
theorem chainBelow_unfolds (bound : Nat) {id : Nat} (below : id < bound) (notRoot : id < root)
    (rest : List Nat) :
    ∃ operands, circuit.chainBelow op atomic bound id rest = operands ++ rest ∧
      Unfolds (circuit.parts? op atomic root) id operands := by
  induction bound generalizing id rest with
  | zero => omega
  | succ bound ih =>
    unfold chainBelow
    by_cases isAtomic : atomic id
    · rw [if_pos isAtomic]
      exact ⟨[id], rfl, .leaf (parts?_eq_none.mpr (.inl ⟨Nat.ne_of_lt notRoot, isAtomic⟩))⟩
    · rw [if_neg isAtomic]
      have same : circuit.parts? op atomic root id = (circuit.node? id).bind (·.operands? op) := by
        simp [parts?, isAtomic]
      cases split : (circuit.node? id).bind (·.operands? op) with
      | none => exact ⟨[id], rfl, .leaf (same.trans split)⟩
      | some pair =>
        obtain ⟨left, right⟩ := pair
        obtain ⟨_, found⟩ := parts?_eq_some.mp (same.trans split)
        obtain ⟨leftLess, rightLess⟩ := operands_lt_of_node? found
        obtain ⟨after, afterEq, afterUnfolds⟩ := ih (by omega) (Nat.lt_trans rightLess notRoot) rest
        obtain ⟨before, beforeEq, beforeUnfolds⟩ :=
          ih (by omega) (Nat.lt_trans leftLess notRoot) (after ++ rest)
        refine ⟨before ++ after, ?_, .node (same.trans split) beforeUnfolds afterUnfolds⟩
        simp only [afterEq, beforeEq, List.append_assoc]

theorem chain?_unfolds (op : BinaryOp) (atomic : Nat → Bool) (inRange : root < circuit.size) :
    ∃ operands, circuit.chain? op atomic root = some operands ∧
      Unfolds (circuit.parts? op atomic root) root operands := by
  obtain ⟨node, found⟩ := node?_of_lt_size inRange
  have same : circuit.parts? op atomic root root = node.operands? op := by
    simp [parts?, found]
  cases split : node.operands? op with
  | none =>
    refine ⟨[root], ?_, .leaf (same.trans split)⟩
    simp [chain?, found, split]
  | some pair =>
    obtain ⟨left, right⟩ := pair
    obtain rfl := Node.operands?_eq_some.mp split
    obtain ⟨leftLess, rightLess⟩ := operands_lt_of_node? found
    obtain ⟨after, afterEq, afterUnfolds⟩ := @chainBelow_unfolds circuit op atomic root root right
      rightLess rightLess []
    obtain ⟨before, beforeEq, beforeUnfolds⟩ := @chainBelow_unfolds circuit op atomic root root left
      leftLess leftLess after
    rw [List.append_nil] at afterEq
    refine ⟨before ++ after, ?_, .node (same.trans split) beforeUnfolds afterUnfolds⟩
    simp [chain?, found, split, afterEq, beforeEq]

end Circuit

structure Splitter where
  stack : List Nat
  operands : List Nat

namespace Splitter

def turn (circuit : Circuit) (op : BinaryOp) (atomic : Nat → Bool) (root : Nat) (splitter : Splitter) :
    Option (Except Error Unit × Splitter) :=
  match splitter.stack with
  | [] => some (.ok (), splitter)
  | id :: below =>
    if id ≠ root ∧ atomic id then some (.ok (), ⟨below, splitter.operands ++ [id]⟩)
    else
      (circuit.node? id).map fun node =>
        match node.operands? op with
        | some (left, right) => (.ok (), { splitter with stack := left :: right :: below })
        | none => (.ok (), ⟨below, splitter.operands ++ [id]⟩)

variable {circuit : Circuit} {op : BinaryOp} {atomic : Nat → Bool} {root : Nat}

theorem turn_of_parts {id left right : Nat}
    (parts : circuit.parts? op atomic root id = some (left, right)) (below operands : List Nat) :
    turn circuit op atomic root ⟨id :: below, operands⟩ =
      some (.ok (), ⟨left :: right :: below, operands⟩) := by
  obtain ⟨isOpen, found⟩ := Circuit.parts?_eq_some.mp parts
  have split : ¬(id ≠ root ∧ atomic id = true) := by grind
  simp only [turn, if_neg split, found, Option.map_some, Node.operands?_eq_some.mpr rfl]

theorem turn_of_whole {id : Nat} (inRange : id < circuit.size)
    (whole : circuit.parts? op atomic root id = none) (below operands : List Nat) :
    turn circuit op atomic root ⟨id :: below, operands⟩ =
      some (.ok (), ⟨below, operands ++ [id]⟩) := by
  obtain ⟨node, found⟩ := Circuit.node?_of_lt_size inRange
  unfold turn
  unfold Circuit.parts? at whole
  split at whole
  · rename_i isAtomic
    simp only [if_pos isAtomic]
  · rename_i isOpen
    rw [found, Option.bind_some] at whole
    simp only [if_neg isOpen, found, Option.map_some, whole]

-- A node on top of any stack is replaced by its operands before anything below it is touched.
theorem unfolds_leads {id : Nat} {operands : List Nat}
    (unfolds : Unfolds (circuit.parts? op atomic root) id operands) (inRange : id < circuit.size)
    (below earlier : List Nat) :
    Leads (turn circuit op atomic root) ⟨id :: below, earlier⟩ (.ok ())
      ⟨below, earlier ++ operands⟩ := by
  induction unfolds generalizing below earlier with
  | leaf whole => exact leads_of_turn (turn_of_whole inRange whole below earlier)
  | @node id left right before after parts _ _ first second =>
    obtain ⟨_, found⟩ := Circuit.parts?_eq_some.mp parts
    obtain ⟨leftLess, rightLess⟩ := Circuit.operands_lt_of_node? found
    have leftLeads := first (Nat.lt_trans leftLess inRange) (right :: below) earlier
    have rightLeads := second (Nat.lt_trans rightLess inRange) below (earlier ++ before)
    rw [← List.append_assoc]
    exact leads_turn (turn_of_parts parts below earlier) (leftLeads.trans rightLeads)

end Splitter

namespace Circuit

variable {circuit : Circuit} {op : BinaryOp} {atomic : Nat → Bool} {root : Nat}

theorem chain_of_unfolds {id : Nat} {operands : List Nat}
    (unfolds : Unfolds (circuit.parts? op atomic root) id operands) :
    circuit.Chain op operands id := by
  induction unfolds with
  | leaf => exact .single _
  | node parts _ _ first second => exact .join (parts?_eq_some.mp parts).2 first second

end Circuit

section Values

variable {T : Type} {domain : Domain T} {op : BinaryOp}

theorem Domain.joined?_eq_some_iff [Semigroup T] (mulEq : ∀ x y : T, domain.binary op x y = x * y)
    {values : List T} {value : T} :
    domain.joined? op values = some value ↔
      (values.map fun x : T => (x : WithOne T)).prod = (value : WithOne T) := by
  cases values with
  | nil => simp [joined?, WithOne.one_ne_coe]
  | cons first rest =>
    have folded : ((rest.foldl (domain.binary op) first : T) : WithOne T) =
        (first : WithOne T) * (rest.map fun x : T => (x : WithOne T)).prod := by
      induction rest generalizing first with
      | nil => simp
      | cons second rest ih =>
        rw [List.foldl_cons, ih, mulEq, WithOne.coe_mul, List.map_cons, List.prod_cons, mul_assoc]
    rw [joined?, Option.some.injEq, List.map_cons, List.prod_cons, ← folded, WithOne.coe_inj]

theorem Circuit.Chain.eval?_iff {circuit : Circuit} {operands : List Nat} {root : Nat}
    (chain : circuit.Chain op operands root) (inRange : root < circuit.size)
    (associative : ∀ x y z,
      domain.binary op (domain.binary op x y) z = domain.binary op x (domain.binary op y z))
    (inputs : String → Option T) (value : T) :
    circuit.eval? domain inputs root = some (.ok value) ↔
      ∃ values, List.Forall₂ (fun operand value =>
        circuit.eval? domain inputs operand = some (.ok value)) operands values ∧
        domain.joined? op values = some value := by
  let _ : Semigroup T := { mul := domain.binary op, mul_assoc := associative }
  have hom : ∀ x y, (domain.binary op x y : WithOne T) = (x : WithOne T) * (y : WithOne T) :=
    fun x y => WithOne.coe_mul x y
  obtain ⟨formula, denotes⟩ := circuit.formula?_of_lt_size inRange
  obtain ⟨formulas, denote, formulaChain⟩ := chain.denotes denotes
  rw [eval?_of_denotes domain inputs denotes, Option.some.injEq]
  have joined := @Domain.joined?_eq_some_iff T domain op _ (fun _ _ => rfl)
  simp only [forall_eval?_iff denote, joined]
  constructor
  · intro evaluates
    obtain ⟨values, evaluate, valueEq⟩ := formulaChain.value_of_evaluates hom evaluates
    exact ⟨values, evaluate, valueEq.symm⟩
  · rintro ⟨values, evaluate, valueEq⟩
    obtain ⟨other, evaluates, otherEq⟩ := formulaChain.evaluates_of_values hom evaluate
    obtain rfl : other = value := WithOne.coe_inj.mp (otherEq.trans valueEq)
    exact evaluates

end Values

namespace Circuit

structure FallsInto (circuit : Circuit) (op : BinaryOp) (atomic : Nat → Bool) (root : Nat)
    (operands : List Nat) : Prop where
  listed : LeftToRight (circuit.parts? op atomic root) root operands
  sole : ∀ others, LeftToRight (circuit.parts? op atomic root) root others → others = operands
  whole : ∀ operand ∈ operands, (operand ≠ root ∧ atomic operand = true) ∨
    ∀ left right, circuit.node? operand ≠ some (.binary op left right)
  looped : Leads (Splitter.turn circuit op atomic root) ⟨[root], []⟩ (.ok ()) ⟨[], operands⟩
  evaluated : ∀ {T : Type} (domain : Domain T), (∀ x y z,
    domain.binary op (domain.binary op x y) z = domain.binary op x (domain.binary op y z)) →
    ∀ inputs value, circuit.eval? domain inputs root = some (.ok value) ↔
      ∃ values, List.Forall₂ (fun operand value =>
        circuit.eval? domain inputs operand = some (.ok value)) operands values ∧
        domain.joined? op values = some value

theorem chain?_fallsInto {circuit : Circuit} (op : BinaryOp) (atomic : Nat → Bool) {root : Nat}
    (inRange : root < circuit.size) :
    ∃ operands, circuit.chain? op atomic root = some operands ∧
      circuit.FallsInto op atomic root operands := by
  obtain ⟨operands, gives, unfolds⟩ := chain?_unfolds op atomic inRange
  refine ⟨operands, gives, unfolds.leftToRight, ?_, ?_, ?_, ?_⟩
  · exact fun others also => also.unique unfolds.leftToRight
  · exact fun operand member => parts?_eq_none.mp (unfolds.whole operand member)
  · exact Splitter.unfolds_leads unfolds inRange [] []
  · exact fun domain associative => (chain_of_unfolds unfolds).eval?_iff inRange associative

theorem chain?_fallsInto_others {circuit : Circuit} (op : BinaryOp) {root : Nat}
    (inRange : root < circuit.size) :
    ∃ operands, circuit.chain? op (fun _ => false) root = some operands ∧
      circuit.FallsInto op (fun _ => false) root operands ∧
      ∀ operand ∈ operands, ∀ left right, circuit.node? operand ≠ some (.binary op left right) := by
  obtain ⟨operands, gives, falls⟩ := chain?_fallsInto op (fun _ => false) inRange
  exact ⟨operands, gives, falls, fun operand member =>
    (falls.whole operand member).resolve_left fun isAtomic => nomatch isAtomic.2⟩

theorem operands_leftToRight (circuit : Circuit) {root : Nat} (inRange : root < circuit.size) :
    (∃ factors, circuit.factors? root = some factors ∧
      circuit.FallsInto .mul (fun _ => false) root factors ∧
      ∀ factor ∈ factors, ∀ left right, circuit.node? factor ≠ some (.product left right)) ∧
    (∀ fanOut : FanOut, ∃ factors, fanOut.factors? circuit root = some factors ∧
      circuit.FallsInto .mul fanOut.isShared root factors) ∧
    ∃ addends, circuit.addends? root = some addends ∧
      circuit.FallsInto .add (fun _ => false) root addends ∧
      ∀ addend ∈ addends, ∀ left right, circuit.node? addend ≠ some (.sum left right) :=
  ⟨chain?_fallsInto_others .mul inRange, fun fanOut => chain?_fallsInto .mul fanOut.isShared inRange,
    chain?_fallsInto_others .add inRange⟩

def squareTimesInput : Circuit where
  nodes := #[.input "x", .input "y", .product 0 1, .product 2 2, .product 3 0]
  earlier := by decide

def twoUsesOfProduct : FanOut := (FanOut.empty.addUse 2).addUse 2

theorem square_listed_with_and_without_sharing :
    squareTimesInput.factors? 4 = some [0, 1, 0, 1, 0] ∧
      LeftToRight (squareTimesInput.parts? .mul (fun _ => false) 4) 4 [0, 1, 0, 1, 0] ∧
      twoUsesOfProduct.factors? squareTimesInput 4 = some [2, 2, 0] ∧
      LeftToRight (squareTimesInput.parts? .mul twoUsesOfProduct.isShared 4) 4 [2, 2, 0] ∧
      squareTimesInput.eval? .words (List.lookup · [("x", 2), ("y", 3)]) 4 = some (.ok 72) := by
  obtain ⟨⟨factors, gives, falls, _⟩, shared, _⟩ :=
    operands_leftToRight squareTimesInput (show 4 < squareTimesInput.size by decide)
  obtain ⟨sharedFactors, sharedGive, sharedFall⟩ := shared twoUsesOfProduct
  have isShared : twoUsesOfProduct.isShared = fun id => decide (1 < [2].count id + [2].count id) := by
    funext id
    simp only [FanOut.isShared, twoUsesOfProduct, FanOut.usesOf_addUse]
    simp [FanOut.usesOf, FanOut.empty]
  have listed : squareTimesInput.factors? 4 = some [0, 1, 0, 1, 0] := rfl
  have sharedListed : twoUsesOfProduct.factors? squareTimesInput 4 = some [2, 2, 0] := by
    rw [FanOut.factors?, isShared]
    rfl
  obtain rfl := Option.some.inj (gives.symm.trans listed)
  obtain rfl := Option.some.inj (sharedGive.symm.trans sharedListed)
  refine ⟨gives, falls.listed, sharedGive, sharedFall.listed, ?_⟩
  refine (falls.evaluated .words UInt64.mul_assoc _ _).mpr ⟨[2, 3, 2, 3, 2], ?_, rfl⟩
  refine .cons ?_ (.cons ?_ (.cons ?_ (.cons ?_ (.cons ?_ .nil)))) <;>
    exact (eval?_of_denotes .words _ (show squareTimesInput.Denotes _ _ from rfl)).trans rfl

end Circuit

end ArithCircuit
