import ArithCircuit.GateCount
import ArithCircuit.Proofs.Products
import ArithCircuit.Proofs.Rewriting

set_option autoImplicit false

namespace ArithCircuit

namespace Node

theorem forall₂_mapChildren? {f : Nat → Option Nat} {node new : Node}
    (mapped : node.mapChildren? f = some new) :
    List.Forall₂ (fun child form => f child = some form) node.children new.children := by
  cases node with
  | constant | input =>
    obtain rfl := Option.some.inj mapped
    exact .nil
  | binary op left right =>
    simp only [mapChildren?, Option.bind_eq_bind, Option.bind_eq_some_iff] at mapped
    obtain ⟨first, leftFound, second, rightFound, same⟩ := mapped
    obtain rfl := Option.some.inj same
    exact .cons leftFound (.cons rightFound .nil)
  | shift direction operand amount =>
    simp only [mapChildren?, Option.bind_eq_bind, Option.bind_eq_some_iff] at mapped
    obtain ⟨form, found, same⟩ := mapped
    obtain rfl := Option.some.inj same
    exact .cons found .nil

theorem mapChildren?_binary {f : Nat → Option Nat} {op : BinaryOp} {left right : Nat} {new : Node}
    (mapped : (Node.binary op left right).mapChildren? f = some new) :
    ∃ first second, f left = some first ∧ f right = some second ∧ new = .binary op first second := by
  simp only [mapChildren?, Option.bind_eq_bind, Option.bind_eq_some_iff] at mapped
  obtain ⟨first, leftFound, second, rightFound, same⟩ := mapped
  exact ⟨first, second, leftFound, rightFound, (Option.some.inj same).symm⟩

theorem operands?_mapChildren? {f : Nat → Option Nat} {op : BinaryOp} {node new : Node}
    (mapped : node.mapChildren? f = some new) (other : node.operands? op = none) :
    new.operands? op = none := by
  cases node with
  | constant | input =>
    obtain rfl := Option.some.inj mapped
    exact other
  | binary =>
    obtain ⟨first, second, _, _, rfl⟩ := mapChildren?_binary mapped
    simpa [operands?] using other
  | shift =>
    simp only [mapChildren?, Option.bind_eq_bind, Option.bind_eq_some_iff] at mapped
    obtain ⟨form, _, same⟩ := mapped
    obtain rfl := Option.some.inj same
    rfl

theorem kind?_mapChildren? {f : Nat → Option Nat} {node new : Node}
    (mapped : node.mapChildren? f = some new) : new.kind? = node.kind? := by
  cases node with
  | constant | input =>
    obtain rfl := Option.some.inj mapped
    rfl
  | binary op left right =>
    simp only [mapChildren?, Option.bind_eq_bind, Option.bind_eq_some_iff] at mapped
    obtain ⟨first, _, second, _, same⟩ := mapped
    obtain rfl := Option.some.inj same
    rfl
  | shift direction operand amount =>
    simp only [mapChildren?, Option.bind_eq_bind, Option.bind_eq_some_iff] at mapped
    obtain ⟨form, _, same⟩ := mapped
    obtain rfl := Option.some.inj same
    rfl

end Node

inductive Circuit.Relinks (circuit : Circuit) (forms : Forms) (id : Nat) : Nat → Circuit → Prop where
  | unchanged {node : Node} (found : circuit.node? id = some node)
      (mapped : node.mapChildren? (fun child => forms[child]?) = some node) :
      Relinks circuit forms id id circuit
  | changed {node new : Node} (found : circuit.node? id = some node)
      (mapped : node.mapChildren? (fun child => forms[child]?) = some new) (different : new ≠ node)
      (bound : ∀ child ∈ new.children, child < circuit.size) :
      Relinks circuit forms id circuit.size (circuit.push new bound)

theorem Build.relinked_relinks {R : Formula → Formula → Prop} {circuit : Circuit} {forms : Forms}
    {id : Nat} {formula : Formula} (related : forms.Related R circuit)
    (denotes : circuit.Denotes id formula)
    (known : ∀ child ∈ circuit.children id, child ∈ forms) :
    Yields (relinked forms id) circuit fun form grown => circuit.Relinks forms id form grown := by
  obtain ⟨node, found, _⟩ := Circuit.denotes_iff.mp denotes
  obtain ⟨new, _, mapped, _⟩ := related.mapChildren? found denotes known
  have bound : ∀ child ∈ new.children, child < circuit.size := by
    intro child member
    obtain ⟨old, _, form⟩ := exists_of_mem_forall₂ (Node.forall₂_mapChildren? mapped) member
    obtain ⟨_, _, _, formDenotes, _⟩ := related old child form
    exact Circuit.lt_size_of_denotes formDenotes
  refine .after (node_eq found) (.after (lift_eq mapped circuit) ?_)
  by_cases unchanged : new = node
  · rw [if_pos unchanged]
    exact .intro rfl (.unchanged found (mapped.trans (congrArg some unchanged)))
  · rw [if_neg unchanged]
    exact .intro (append_eq bound) (.changed found mapped unchanged bound)

namespace Circuit

def isGate (circuit : Circuit) (kinds : GateSet) (id : Nat) : Bool :=
  (circuit.node? id).any kinds.admits

theorem isGate_of_extends {old new : Circuit} (extended : old.Extends new) (kinds : GateSet) {id : Nat}
    (inRange : id < old.size) : new.isGate kinds id = old.isGate kinds id := by
  rw [isGate, isGate, node?_of_extends extended inRange]

theorem countP_isGate_of_extends {old new : Circuit} (extended : old.Extends new) (kinds : GateSet)
    {ids : List Nat} (inRange : ∀ id ∈ ids, id < old.size) :
    ids.countP (new.isGate kinds) = ids.countP (old.isGate kinds) :=
  List.countP_congr fun id member => by rw [isGate_of_extends extended kinds (inRange id member)]

theorem countP_isGate_of_products {circuit : Circuit} (kinds : GateSet) {ids : List Nat}
    (products : ∀ id ∈ ids, ∃ left right, circuit.node? id = some (.product left right)) :
    ids.countP (circuit.isGate kinds) = if kinds.contains (.binary .mul) then ids.length else 0 := by
  have each : ∀ id ∈ ids, circuit.isGate kinds id = kinds.contains (.binary .mul) := by
    intro id member
    obtain ⟨left, right, found⟩ := products id member
    rw [isGate, found]
    rfl
  by_cases admitted : kinds.contains (.binary .mul)
  · rw [if_pos admitted]
    exact List.countP_eq_length.mpr fun id member => (each id member).trans admitted
  · rw [if_neg admitted]
    exact List.countP_eq_zero.mpr fun id member gate => admitted ((each id member).symm.trans gate)

theorem isGate_of_mapChildren? {circuit : Circuit} {f : Nat → Option Nat} {id : Nat} {node new : Node}
    (found : circuit.node? id = some node) (mapped : node.mapChildren? f = some new)
    (changed : new ≠ node) : circuit.isGate .all id = true := by
  rw [isGate, found]
  cases node with
  | constant | input => exact absurd (Option.some.inj mapped).symm changed
  | binary | shift => rfl

-- The gates that a circuit has gained in place of others stand over each other and over forms.
structure Trades (old new : Circuit) (forms : Forms) (gates : List Nat) : Prop where
  counts : ∀ kinds : GateSet,
    (old.gained new).countP (new.isGate kinds) ≤ gates.countP (old.isGate kinds)
  gates : ∀ id ∈ old.gained new, new.isGate .all id = true
  edges : ∀ id ∈ old.gained new, ∀ child ∈ new.children id,
    child ∈ old.gained new ∨ ∃ node : Nat, forms[node]? = some child

theorem Trades.unchanged (circuit : Circuit) (forms : Forms) (gates : List Nat) :
    circuit.Trades circuit forms gates where
  counts := by simp [gained_self]
  gates := by simp [gained_self]
  edges := by simp [gained_self]

theorem Trades.of_within {old new : Circuit} {forms larger : Forms} {gates : List Nat}
    (trades : old.Trades new forms gates) (within : forms.Within larger) :
    old.Trades new larger gates where
  counts := trades.counts
  gates := trades.gates
  edges := by
    intro id member child childMember
    refine (trades.edges id member child childMember).imp_right fun formed => ?_
    obtain ⟨node, form⟩ := formed
    exact ⟨node, within node child form⟩

theorem Trades.of_perm {old new : Circuit} {forms : Forms} {gates others : List Nat}
    (trades : old.Trades new forms gates) (reordered : gates.Perm others) :
    old.Trades new forms others where
  counts := fun kinds => reordered.countP_eq (old.isGate kinds) ▸ trades.counts kinds
  gates := trades.gates
  edges := trades.edges

theorem Trades.trans {first second third : Circuit} {forms larger : Forms} {early late : List Nat}
    (extended : first.Extends second) (further : second.Extends third) (within : forms.Within larger)
    (inRange : ∀ gate ∈ late, gate < first.size) (start : first.Trades second forms early)
    (next : second.Trades third larger late) : first.Trades third larger (early ++ late) := by
  have earlyInRange : ∀ id ∈ first.gained second, id < second.size :=
    fun id member => (mem_gained.mp member).2
  have total := gained_append extended further
  constructor
  · intro kinds
    rw [← total, List.countP_append, List.countP_append,
      countP_isGate_of_extends further kinds earlyInRange,
      ← countP_isGate_of_extends extended kinds inRange]
    exact Nat.add_le_add (start.counts kinds) (next.counts kinds)
  · intro id member
    rw [← total, List.mem_append] at member
    cases member with
    | inl before => exact isGate_of_extends further .all (earlyInRange id before) ▸ start.gates id before
    | inr after => exact next.gates id after
  · intro id member child childMember
    rw [← total, List.mem_append] at member ⊢
    cases member with
    | inl before =>
      rw [children_of_extends further (earlyInRange id before)] at childMember
      exact ((start.of_within within).edges id before child childMember).imp_left .inl
    | inr after => exact (next.edges id after child childMember).imp_left .inr

theorem trades_of_relinked {circuit : Circuit} {forms : Forms} {id : Nat} {node new : Node}
    (found : circuit.node? id = some node)
    (mapped : node.mapChildren? (fun child => forms[child]?) = some new) (changed : new ≠ node)
    (bound : ∀ child ∈ new.children, child < circuit.size) :
    circuit.Trades (circuit.push new bound) forms [id] := by
  have made : (circuit.push new bound).node? circuit.size = some new := by
    rw [node?_push, if_pos rfl]
  have sameKind := Node.kind?_mapChildren? mapped
  have wasGate := isGate_of_mapChildren? found mapped changed
  constructor
  · intro kinds
    rw [gained_push, List.countP_singleton, List.countP_singleton, Circuit.isGate, Circuit.isGate,
      made, found]
    simp only [Option.any_some, GateSet.admits, sameKind]
    exact Nat.le_refl _
  · intro gained member
    obtain rfl := List.mem_singleton.mp (gained_push circuit new bound ▸ member)
    rw [Circuit.isGate, found] at wasGate
    rw [Circuit.isGate, made, Option.any_some, GateSet.admits, sameKind]
    exact wasGate
  · intro gained member child childMember
    obtain rfl := List.mem_singleton.mp (gained_push circuit new bound ▸ member)
    rw [children_of_node? made] at childMember
    obtain ⟨old, _, form⟩ := exists_of_mem_forall₂ (Node.forall₂_mapChildren? mapped) childMember
    exact .inr ⟨old, form⟩

theorem trades_of_joined {old new : Circuit} {forms : Forms} {gates factors operands : List Nat}
    {form : Nat} (joins : old.Joins new operands [form])
    (products : ∀ gate ∈ gates, ∃ left right, old.node? gate = some (.product left right))
    (cut : factors.length = gates.length + 1)
    (looked : List.Forall₂ (fun factor operand => forms[factor]? = some operand) factors operands) :
    old.Trades new forms gates where
  counts := by
    intro kinds
    have sameLength : (old.gained new).length = gates.length := by
      have joined := joins.length_eq
      rw [← looked.length_eq, cut, List.length_singleton] at joined
      omega
    rw [countP_isGate_of_products kinds joins.products, countP_isGate_of_products kinds products,
      sameLength]
  gates := by
    intro id member
    obtain ⟨left, right, found⟩ := joins.products id member
    rw [isGate, found]
    rfl
  edges := by
    intro id member child childMember
    have listed := joins.balanced.mem_iff.mpr
      (List.mem_append_right [form] (List.mem_flatMap.mpr ⟨id, member, childMember⟩))
    rcases List.mem_append.mp listed with gained | operand
    · exact .inl gained
    · obtain ⟨factor, _, form⟩ := exists_of_mem_forall₂ looked operand
      exact .inr ⟨factor, form⟩

end Circuit

end ArithCircuit
