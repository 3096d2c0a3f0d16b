import ArithCircuit.Proofs.Balance
import ArithCircuit.Proofs.Canonical
import ArithCircuit.Proofs.Outputs

set_option autoImplicit false

namespace ArithCircuit

namespace Circuit

theorem countP_appended (old new : Circuit) (kinds : GateSet) :
    (old.appended new).countP kinds.admits = (old.gained new).countP (new.isGate kinds) := by
  have same := congrArg (List.countP fun node => node.any kinds.admits) (map_node?_gained old new)
  rw [List.countP_map, List.countP_map] at same
  exact same.symm

theorem Trades.appended_gates {old new : Circuit} {forms : Forms} {gates : List Nat}
    (trades : old.Trades new forms gates) : ∀ node ∈ old.appended new, node.isTerminal = false := by
  intro node member
  have listed : some node ∈ (old.gained new).map new.node? := by
    rw [map_node?_gained]
    exact List.mem_map_of_mem member
  obtain ⟨id, gained, found⟩ := List.mem_map.mp listed
  have isGate := trades.gates id gained
  rw [Circuit.isGate, found] at isGate
  cases kind : node.kind? with
  | none => simp [GateSet.admits, kind] at isGate
  | some _ => simp [Node.isTerminal, kind]

end Circuit

namespace Balancer

theorem Accounts.counts_le {start circuit : Circuit} {counted : FanOut} {root : Nat}
    {known forms : Forms} {tops splits users : List Nat}
    (accounts : Accounts start counted root known circuit forms tops splits)
    (counts : FanOut.Counts start counted users) (rootCounted : root ∈ users) (kinds : GateSet) :
    ∃ gates, start.gateCount? [root] kinds = some gates ∧
      (start.gained circuit).countP (circuit.isGate kinds) ≤ gates := by
  have inRange := counts.inRange root rootCounted
  obtain ⟨gates, counted, atMost⟩ := Circuit.countP_le_gateCount?
    (List.forall_mem_singleton.mpr inRange) (accounts.nodup counts rootCounted)
    (fun gate member => ⟨root, List.mem_singleton_self root, accounts.gates_reached gate member⟩)
    kinds
  exact ⟨gates, counted, Nat.le_trans (accounts.trades.counts kinds) atMost⟩

theorem reduce_counts {circuit : Circuit} {balancer : Balancer} (right : Right circuit balancer)
    {users : List Nat} (counts : FanOut.Counts circuit balancer.memory.fanOut users) {root : Nat}
    (inRange : root < circuit.size) :
    Yields (reduce root balancer) circuit fun reply grown =>
      circuit.Extends grown ∧ ∃ fresh counted,
        FanOut.Counts circuit counted (fresh ++ users) ∧ root ∈ fresh ++ users ∧
        (∀ id ∈ fresh, circuit.Reaches root id) ∧
        (∀ id, counted.usesOf id = balancer.memory.fanOut.usesOf id + circuit.usesBy fresh id) ∧
        Working circuit counted root balancer.forms grown reply.2 ∧
        reply.2.forms[root]? = some reply.1 := by
  refine (reduce_yields right inRange).mono ?_
  intro reply grown finished
  obtain ⟨extended, counted, counting, working, found⟩ := finished
  obtain ⟨fresh, countsLater, rootCounted, reached, uses⟩ :=
    FanOut.count?_counts counts inRange counting
  exact ⟨extended, fresh, counted, countsLater, rootCounted, reached, uses, working, found⟩

theorem product_counts {circuit : Circuit} {balancer : Balancer} (right : Right circuit balancer)
    {users : List Nat} (counts : FanOut.Counts circuit balancer.memory.fanOut users)
    {factors : List Nat} (inRange : ∀ factor ∈ factors, factor < circuit.size) :
    Yields (product factors balancer) circuit fun reply grown =>
      Right grown reply.2 ∧ FanOut.Counts grown reply.2.memory.fanOut users := by
  refine (Rewriter.inMemory_yields
    (withDepths_yields (Build.balancedProduct_yields right.depths inRange))).mono ?_
  intro reply grown finished
  obtain ⟨form, forms, memory⟩ := reply
  obtain ⟨sameForms, sameFan, _, balances, depths⟩ := finished
  dsimp only at sameForms sameFan depths
  subst sameForms
  exact ⟨⟨Forms.related_of_extends balances.extended right.improved, depths⟩,
    sameFan.symm ▸ counts.of_extends balances.extended⟩

inductive History (log : Log) : Circuit → Balancer → Prop where
  | start (circuit : Circuit) : History log circuit (fresh log)
  | grow {circuit larger : Circuit} {balancer : Balancer} (before : History log circuit balancer)
      (extended : circuit.Extends larger) : History log larger balancer
  | reduce {circuit grown : Circuit} {balancer next : Balancer} {root form : Nat}
      (before : History log circuit balancer) (inRange : root < circuit.size)
      (gives : Balancer.reduce root balancer circuit = some ((form, next), grown)) :
      History log grown next
  | product {circuit grown : Circuit} {balancer next : Balancer} {factors : List Nat} {form : Nat}
      (before : History log circuit balancer) (inRange : ∀ factor ∈ factors, factor < circuit.size)
      (gives : Balancer.product factors balancer circuit = some ((form, next), grown)) :
      History log grown next

theorem History.counts {log : Log} {circuit : Circuit} {balancer : Balancer}
    (history : History log circuit balancer) :
    Right circuit balancer ∧ ∃ users, FanOut.Counts circuit balancer.memory.fanOut users := by
  induction history with
  | start circuit => exact ⟨fresh_right log circuit, [], FanOut.empty_counts circuit⟩
  | grow _ extended ih =>
    obtain ⟨right, users, counts⟩ := ih
    exact ⟨right_of_extends extended right, users, counts.of_extends extended⟩
  | reduce _ inRange gives ih =>
    obtain ⟨right, users, counts⟩ := ih
    obtain ⟨reply, _, also, extended, fresh, counted, countsLater, _, _, _, working, _⟩ :=
      reduce_counts right counts inRange
    obtain ⟨rfl, rfl⟩ := Prod.mk.inj (Option.some.inj (gives.symm.trans also))
    exact ⟨⟨working.improved, working.depths⟩, fresh ++ users,
      (countsLater.of_extends extended).of_inherits working.inherits⟩
  | product _ inRange gives ih =>
    obtain ⟨right, users, counts⟩ := ih
    obtain ⟨reply, _, also, later⟩ := product_counts right counts inRange
    obtain ⟨rfl, rfl⟩ := Prod.mk.inj (Option.some.inj (gives.symm.trans also))
    exact ⟨later.1, users, later.2⟩

theorem reduce_appends (log : Log) {circuit : Circuit} {balancer : Balancer}
    (history : History log circuit balancer) {root : Nat} (inRange : root < circuit.size) :
    ∃ form later grown appended, reduce root balancer circuit = some ((form, later), grown) ∧
      grown.toNodes = circuit.toNodes ++ appended ∧
      (∀ node ∈ appended, node.isTerminal = false) ∧
      ∀ kinds : GateSet, ∃ gates, circuit.gateCount? [root] kinds = some gates ∧
        appended.countP kinds.admits ≤ gates := by
  obtain ⟨right, users, counts⟩ := history.counts
  obtain ⟨⟨form, later⟩, grown, gives, extended, fresh, counted, countsLater, rootCounted, _, _,
    working, _⟩ := reduce_counts right counts inRange
  obtain ⟨tops, splits, accounts⟩ := working.accounts
  refine ⟨form, later, grown, circuit.appended grown, gives, Circuit.toNodes_eq_append extended,
    accounts.trades.appended_gates, fun kinds => ?_⟩
  rw [Circuit.countP_appended]
  exact accounts.counts_le countsLater rootCounted kinds

def squaringTower : Circuit where
  nodes := #[.input "x", .product 0 0, .product 1 1, .product 2 2]
  earlier := by decide

theorem reduce_squaring_tower :
    ∃ form later grown appended,
      reduce 3 (fresh .off) squaringTower = some ((form, later), grown) ∧
        grown.toNodes = squaringTower.toNodes ++ appended ∧ appended.length ≤ 3 := by
  obtain ⟨form, later, grown, appended, gives, listed, gates, counts⟩ :=
    reduce_appends .off (.start squaringTower) (show 3 < squaringTower.size by decide)
  refine ⟨form, later, grown, appended, gives, listed, ?_⟩
  obtain ⟨count, counted, atMost⟩ := counts .all
  have few : count ≤ 3 := @Circuit.gateCount?_le _ _ _ _ 4 (by decide) (by decide) counted
  have all : appended.countP GateSet.all.admits = appended.length := by
    refine List.countP_eq_length.mpr fun node member => ?_
    cases node with
    | constant | input => exact absurd (gates _ member) (by simp [Node.isTerminal, Node.kind?])
    | binary | shift => rfl
  omega

end Balancer

end ArithCircuit
