import ArithCircuit.Proofs.Appended
import ArithCircuit.Proofs.Loops

set_option autoImplicit false

namespace ArithCircuit

namespace Balancer

def rebalanceOver (factors : List Nat) (forms : Forms) (id : Nat) : StateT BalancerMemory Build Nat := do
  let operands ← factors.mapM fun factor => (forms[factor]? : Option Nat)
  let old ← withDepths (Build.depth id)
  let new := balancedDepth (← withDepths (operands.mapM Build.depth))
  if new < old then
    record (.rebalanced id operands.length old new)
    withDepths (Build.balancedProduct operands)
  else
    record (.kept id operands.length old)
    return id

def keptFactors (kept : Option (List Nat)) (id : Nat) : StateT BalancerMemory Build (List Nat) := do
  match kept with
  | some factors => return factors
  | none =>
    let fanOut := (← get).fanOut
    let circuit ← getThe Circuit
    fanOut.factors? circuit id

def rebalanceKept (kept : Option (List Nat)) (forms : Forms) (id : Nat) :
    StateT BalancerMemory Build Nat := do
  let factors ← keptFactors kept id
  rebalanceOver factors forms id

def rebuildOver (kept : Option (List Nat)) (forms : Forms) (id : Nat) :
    StateT BalancerMemory Build Nat := do
  let node ← Build.node id
  let form ←
    if (node.operands? .mul).isSome then rebalanceKept kept forms id
    else Build.relinked forms id
  modify fun memory => { memory with fanOut := memory.fanOut.inherit id form }
  return form

theorem rebalance_eq (forms : Forms) (id : Nat) (memory : BalancerMemory) (circuit : Circuit) :
    rebalance forms id memory circuit = (memory.fanOut.factors? circuit id).bind fun factors =>
      rebalanceOver factors forms id memory circuit := by
  have looked : ∀ looks : Option (List Nat), memory.fanOut.factors? circuit id = looks →
      rebalance forms id memory circuit = looks.bind fun factors =>
        rebalanceOver factors forms id memory circuit := by
    intro looks same
    have start : rebalance forms id memory circuit =
        ((liftM (memory.fanOut.factors? circuit id) : StateT BalancerMemory Build (List Nat)) >>=
          fun factors => rebalanceOver factors forms id) memory circuit := rfl
    rw [start, same]
    cases looks <;> rfl
  exact looked _ rfl

theorem keptFactors_eq {kept : Option (List Nat)} {id : Nat} {memory : BalancerMemory}
    {circuit : Circuit}
    (right : ∀ factors, kept = some factors → memory.fanOut.factors? circuit id = some factors) :
    keptFactors kept id memory circuit =
      (memory.fanOut.factors? circuit id).map fun factors => ((factors, memory), circuit) := by
  cases kept with
  | some factors =>
    rw [right factors rfl]
    rfl
  | none =>
    change (liftM (memory.fanOut.factors? circuit id) : StateT BalancerMemory Build (List Nat)) memory
      circuit = _
    cases memory.fanOut.factors? circuit id <;> rfl

theorem rebuildOver_eq {kept : Option (List Nat)} {forms : Forms} {id : Nat} {memory : BalancerMemory}
    {circuit : Circuit}
    (right : ∀ factors, kept = some factors → memory.fanOut.factors? circuit id = some factors) :
    rebuildOver kept forms id memory circuit = rebuild forms id memory circuit := by
  have same : rebalanceKept kept forms id memory circuit = rebalance forms id memory circuit := by
    rw [rebalance_eq]
    change (keptFactors kept id memory circuit).bind _ = _
    rw [keptFactors_eq right]
    cases memory.fanOut.factors? circuit id <;> rfl
  unfold rebuildOver rebuild
  change Option.bind ((liftM (Build.node id) : StateT BalancerMemory Build Node) memory circuit) _ =
    Option.bind ((liftM (Build.node id) : StateT BalancerMemory Build Node) memory circuit) _
  cases found : circuit.node? id with
  | none =>
    have missing : (liftM (Build.node id) : StateT BalancerMemory Build Node) memory circuit = none := by
      change ((circuit.node? id).bind _).bind _ = _
      rw [found]
      rfl
    rw [missing]
    rfl
  | some node =>
    rw [Build.memory_node_eq found memory]
    by_cases product : (node.operands? .mul).isSome
    · simp only [Option.bind_some, product, if_true]
      change (rebalanceKept kept forms id memory circuit).bind _ =
        (rebalance forms id memory circuit).bind _
      rw [same]
    · simp only [Option.bind_some, product]
      rfl

structure Pass where
  chains : Std.HashMap Nat (List Nat)
  balancer : Balancer
  circuit : Circuit

-- A node that is no product has no chain, so there is nothing to remove for it.
def loop : WorkLoop Pass where
  known pass id := pass.balancer.forms.contains id
  dependencies id pass :=
    (pass.circuit.node? id).bind fun node =>
      if (node.operands? .mul).isSome then
        match pass.chains[id]? with
        | some factors => some (factors, pass)
        | none => (pass.balancer.memory.fanOut.factors? pass.circuit id).map fun factors =>
          (factors, { pass with chains := pass.chains.insert id factors })
      else some (node.children, pass)
  compute id pass :=
    (Rewriter.stepping (rebuildOver pass.chains[id]?) id (pass.balancer, pass.circuit)).map
      fun (outcome, balancer, grown) => (outcome, ⟨pass.chains.erase id, balancer, grown⟩)

def Pass.view (pass : Pass) : Balancer × Circuit := (pass.balancer, pass.circuit)

-- Sharing is only ever inherited by new nodes, so the factors that are kept stay those that a new look
-- would find.
structure Pass.Kept (start : Circuit) (counted : FanOut) (root : Nat) (known : Forms) (pass : Pass) :
    Prop where
  extended : start.Extends pass.circuit
  working : Working start counted root known pass.circuit pass.balancer
  chains : ∀ (id : Nat) (factors : List Nat), pass.chains[id]? = some factors →
    counted.factors? start id = some factors

section Loop

variable {start : Circuit} {counted : FanOut} {root : Nat} {known : Forms}

theorem Pass.Kept.factors_eq {pass : Pass} (kept : pass.Kept start counted root known) {id : Nat}
    (inRange : id < start.size) :
    pass.balancer.memory.fanOut.factors? pass.circuit id = counted.factors? start id :=
  FanOut.factors?_congr kept.extended inRange fun _ below => kept.working.inherits.isShared_eq below

theorem Called.lt_size {id : Nat} (called : Called start counted root id)
    (inRange : root < start.size) : id < start.size :=
  Nat.lt_of_le_of_lt called.reached.le inRange

theorem Pass.Kept.asks {pass : Pass} (kept : pass.Kept start counted root known) {id : Nat}
    (inRange : id < start.size) :
    ∃ next, loop.dependencies id pass = some (dependencies start counted id, next) ∧
      next.Kept start counted root known ∧ next.view = pass.view := by
  obtain ⟨node, found⟩ := Circuit.node?_of_lt_size inRange
  have present := kept.extended id node found
  cases split : node.operands? .mul with
  | none =>
    refine ⟨pass, ?_, kept, rfl⟩
    simp [loop, present, split, dependencies_of_other found split, Circuit.children_of_node? found]
  | some pair =>
    obtain rfl := Node.operands?_eq_some.mp split
    obtain ⟨factors, factored, _⟩ := @FanOut.factors?_of_product counted _ _ _ _ found
    rw [dependencies_of_product found factored]
    cases cached : pass.chains[id]? with
    | some already =>
      obtain rfl := Option.some.inj ((kept.chains id already cached).symm.trans factored)
      refine ⟨pass, ?_, kept, rfl⟩
      simp [loop, present, split, cached]
    | none =>
      refine ⟨{ pass with chains := pass.chains.insert id factors }, ?_,
        ⟨kept.extended, kept.working, ?_⟩, rfl⟩
      · simp [loop, present, split, cached, kept.factors_eq inRange, factored]
      · intro other looked entry
        rcases found_in_insert entry with ⟨rfl, rfl⟩ | older
        · exact factored
        · exact kept.chains other looked older

theorem Pass.Kept.computes {pass : Pass} (kept : pass.Kept start counted root known) {id : Nat}
    (called : Called start counted root id) (inRange : root < start.size)
    (isOpen : pass.balancer.forms.contains id = false)
    (ready : ∀ dependency ∈ dependencies start counted id,
      pass.balancer.forms.contains dependency = true) :
    ∃ next, loop.compute id pass = some (.ok (), next) ∧
      Rewriter.stepping rebuild id pass.view = some (.ok (), next.view) ∧
      next.Kept start counted root known ∧
      ∀ other, next.balancer.forms.contains other = true ↔
        pass.balancer.forms.contains other = true ∨ other = id := by
  obtain ⟨⟨form, memory⟩, grown, gives, further, working⟩ := rebuild_working kept.extended
    (called.lt_size inRange) called (Forms.getElem?_of_unknown isOpen)
    (fun dependency member => Std.HashMap.contains_iff_mem.mp (ready dependency member)) kept.working
  have same : rebuildOver pass.chains[id]? pass.balancer.forms id pass.balancer.memory pass.circuit =
      rebuild pass.balancer.forms id pass.balancer.memory pass.circuit :=
    rebuildOver_eq fun factors cached =>
      (kept.factors_eq (called.lt_size inRange)).trans (kept.chains id factors cached)
  refine ⟨⟨pass.chains.erase id, ⟨pass.balancer.forms.insert id form, memory⟩, grown⟩, ?_,
    Rewriter.step_of_rebuilt gives, ⟨Circuit.extends_trans kept.extended further, working, ?_⟩,
    fun _ => contains_insert_iff⟩
  · exact congrArg (Option.map _) (Rewriter.step_of_rebuilt (same.trans gives))
  · intro other factors entry
    rw [Std.HashMap.getElem?_erase] at entry
    split at entry
    · contradiction
    · exact kept.chains other factors entry

theorem loop_follows (inRange : root < start.size) :
    loop.Follows Pass.view (Rewriter.stepping rebuild) (dependencies start counted)
      (Called start counted root) (Pass.Kept start counted root known) where
  earlier := dependencies_earlier start counted
  inherited _ called _ member := called.dependency member
  asks id pass called kept _ := by
    obtain ⟨next, asked, nextKept, same⟩ := kept.asks (called.lt_size inRange)
    obtain ⟨sameBalancer, _⟩ := Prod.mk.inj same
    exact ⟨next, asked, nextKept, same, fun other => congrArg (·.forms.contains other) sameBalancer⟩
  computes id pass called kept isOpen ready := by
    obtain ⟨next, computes, stepped, nextKept, contents⟩ := kept.computes called inRange isOpen ready
    exact ⟨.ok (), next, computes, stepped, fun _ => ⟨nextKept, contents⟩⟩

end Loop

-- Factors are kept only for products that are still on the stack.
def Waiting (frame : WorkLoop.Frame Pass) : Prop :=
  ∀ id ∈ frame.state.chains, id ∈ frame.stack ∧ loop.known frame.state id = false

theorem dependencies_keep {pass next : Pass} {id : Nat} {needed : List Nat}
    (asked : loop.dependencies id pass = some (needed, next)) :
    next.balancer = pass.balancer ∧ ∀ other ∈ next.chains, other ∈ pass.chains ∨ other = id := by
  obtain ⟨node, _, rest⟩ := Option.bind_eq_some_iff.mp asked
  split at rest
  · split at rest
    · cases rest
      exact ⟨rfl, fun _ member => .inl member⟩
    · obtain ⟨factors, _, same⟩ := Option.map_eq_some_iff.mp rest
      cases same
      refine ⟨rfl, fun other member => ?_⟩
      rcases Std.HashMap.mem_insert.mp member with same | older
      · exact .inr (beq_iff_eq.mp same).symm
      · exact .inl older
  · cases rest
    exact ⟨rfl, fun _ member => .inl member⟩

theorem compute_keeps {pass next : Pass} {id : Nat} {outcome : Except Error Unit}
    (computes : loop.compute id pass = some (outcome, next)) :
    next.chains = pass.chains.erase id ∧
      ∃ form, next.balancer.forms = pass.balancer.forms.insert id form := by
  obtain ⟨⟨_, balancer, grown⟩, stepped, same⟩ := Option.map_eq_some_iff.mp computes
  cases same
  obtain ⟨⟨later, circuit⟩, steps, same⟩ := Option.map_eq_some_iff.mp stepped
  cases same
  obtain ⟨⟨⟨form, memory⟩, after⟩, _, same⟩ := Option.bind_eq_some_iff.mp steps
  cases same
  exact ⟨rfl, form, rfl⟩

theorem turn_waiting (frame next : WorkLoop.Frame Pass) (waiting : Waiting frame)
    (gives : loop.turn frame = some (.ok (), next)) : Waiting next := by
  cases WorkLoop.turned_of_turn gives with
  | idle => exact waiting
  | pop known =>
    intro other cached
    obtain ⟨member, unknown⟩ := waiting other cached
    refine ⟨(List.mem_cons.mp member).resolve_left ?_, unknown⟩
    rintro rfl
    dsimp only at unknown
    rw [known] at unknown
    contradiction
  | push unknown asked =>
    obtain ⟨sameBalancer, cachedBefore⟩ := dependencies_keep asked
    intro other cached
    have sameKnown := fun other => congrArg (·.forms.contains other) sameBalancer
    rcases cachedBefore other cached with older | rfl
    · obtain ⟨member, isOpen⟩ := waiting other older
      exact ⟨List.mem_append_right _ member, (sameKnown other).trans isOpen⟩
    · exact ⟨by simp, (sameKnown other).trans unknown⟩
  | compute unknown asked computes =>
    obtain ⟨sameBalancer, cachedBefore⟩ := dependencies_keep asked
    obtain ⟨sameChains, form, sameForms⟩ := compute_keeps computes
    intro other cached
    dsimp only at cached
    rw [sameChains, Std.HashMap.mem_erase, beq_eq_false_iff_ne] at cached
    obtain ⟨different, stays⟩ := cached
    have older := (cachedBefore other stays).resolve_right fun same => different same.symm
    obtain ⟨member, isOpen⟩ := waiting other older
    refine ⟨(List.mem_cons.mp member).resolve_left fun same => different same.symm, ?_⟩
    rw [Bool.eq_false_iff]
    intro isKnown
    change _ = true at isKnown
    simp only [loop, sameForms] at isKnown
    rcases contains_insert_iff.mp isKnown with before | same
    · rw [sameBalancer] at before
      exact absurd before (Bool.eq_false_iff.mp isOpen)
    · exact different same.symm

theorem waiting_empty {final : WorkLoop.Frame Pass} (waiting : Waiting final)
    (empty : final.stack = []) : final.state.chains.isEmpty = true := by
  rw [Std.HashMap.isEmpty_iff_forall_not_mem]
  intro id cached
  obtain ⟨member, _⟩ := waiting id cached
  rw [empty] at member
  contradiction

def Pass.withFanOut (pass : Pass) (fanOut : FanOut) : Pass :=
  { pass with balancer := ⟨pass.balancer.forms, { pass.balancer.memory with fanOut }⟩ }

inductive PassHistory (log : Log) : Pass → Prop where
  | start (circuit : Circuit) : PassHistory log ⟨∅, fresh log, circuit⟩
  | grow {pass : Pass} {larger : Circuit} (before : PassHistory log pass)
      (extended : pass.circuit.Extends larger) : PassHistory log { pass with circuit := larger }
  | reduce {pass : Pass} {next : Balancer} {grown : Circuit} {root form : Nat} {counted : FanOut}
      {final : WorkLoop.Frame Pass} (before : PassHistory log pass)
      (inRange : root < pass.circuit.size)
      (gives : Balancer.reduce root pass.balancer pass.circuit = some ((form, next), grown))
      (leads : Leads loop.turn ⟨[root], [], pass.withFanOut counted⟩ (.ok ()) final)
      (empty : final.stack = []) : PassHistory log ⟨final.state.chains, next, grown⟩
  | product {pass : Pass} {next : Balancer} {grown : Circuit} {factors : List Nat} {form : Nat}
      (before : PassHistory log pass) (inRange : ∀ factor ∈ factors, factor < pass.circuit.size)
      (gives : Balancer.product factors pass.balancer pass.circuit = some ((form, next), grown)) :
      PassHistory log { pass with balancer := next, circuit := grown }

theorem leads_chains_empty {pass : Pass} (none : pass.chains.isEmpty = true) {root : Nat}
    {counted : FanOut} {final : WorkLoop.Frame Pass}
    (leads : Leads loop.turn ⟨[root], [], pass.withFanOut counted⟩ (.ok ()) final)
    (empty : final.stack = []) : final.state.chains.isEmpty = true := by
  have waiting : Waiting ⟨[root], [], pass.withFanOut counted⟩ := fun id cached =>
    absurd cached (Std.HashMap.not_mem_of_isEmpty none)
  exact waiting_empty (leads.invariant turn_waiting waiting) empty

theorem PassHistory.chains_empty {log : Log} {pass : Pass} (history : PassHistory log pass) :
    pass.chains.isEmpty = true := by
  induction history with
  | start => exact Std.HashMap.isEmpty_empty
  | grow _ _ ih => exact ih
  | reduce _ _ _ leads empty ih => exact leads_chains_empty ih leads empty
  | product _ _ _ ih => exact ih

theorem PassHistory.calls {log : Log} {pass : Pass} (history : PassHistory log pass) :
    History log pass.circuit pass.balancer := by
  induction history with
  | start circuit => exact .start circuit
  | grow _ extended ih => exact .grow ih extended
  | reduce _ inRange gives _ _ ih => exact .reduce ih inRange gives
  | product _ inRange gives ih => exact .product ih inRange gives

theorem reduce_ends {log : Log} {pass : Pass} (history : PassHistory log pass) {root : Nat}
    (inRange : root < pass.circuit.size) :
    ∃ counted form later grown final,
      pass.balancer.memory.fanOut.count? pass.circuit root = some counted ∧
      reduce root pass.balancer pass.circuit = some ((form, later), grown) ∧
      loop.Ends [root] (pass.withFanOut counted) (.ok ()) final ∧
      final.state.chains.isEmpty = true ∧ final.state.balancer.forms = later.forms ∧
      final.state.circuit = grown := by
  obtain ⟨right, _⟩ := history.calls.counts
  obtain ⟨counted, counting⟩ := pass.balancer.memory.fanOut.exists_count? inRange
  have ready : Right pass.circuit (pass.withFanOut counted).balancer := ⟨right.improved, right.depths⟩
  have kept : (pass.withFanOut counted).Kept pass.circuit counted root pass.balancer.forms := by
    refine ⟨pass.circuit.extends_refl, start_working ready rfl root, fun id factors cached => ?_⟩
    change pass.chains[id]? = some factors at cached
    simp [Std.HashMap.getElem?_of_isEmpty history.chains_empty] at cached
  obtain ⟨outcome, final, ends, works, well⟩ := (loop_follows inRange).ends
    (called_root pass.circuit counted root) (pass.withFanOut counted) kept
  obtain ⟨rfl, form, found, gives⟩ := Rewriter.run_of_works works fun ok => (well ok).2
  obtain ⟨finalKept, _⟩ := well rfl
  obtain ⟨formula, rootDenotes⟩ := pass.circuit.formula?_of_lt_size inRange
  obtain ⟨_, result, _, formDenotes, _⟩ := finalKept.working.related root form found
  obtain ⟨reply, _, reduces, rfl, _, sameForms, _⟩ := reduce_of_run counting gives
    finalKept.working.depths (Circuit.denotes_of_extends finalKept.extended rootDenotes) formDenotes
  exact ⟨counted, reply.1, reply.2, final.state.circuit, final, counting, reduces, ends,
    leads_chains_empty history.chains_empty ends.leads (ends.empty rfl), sameForms.symm, rfl⟩

end Balancer

end ArithCircuit
