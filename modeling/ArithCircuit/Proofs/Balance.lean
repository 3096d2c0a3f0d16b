import ArithCircuit.Proofs.Gathering
import ArithCircuit.Proofs.Needs

set_option autoImplicit false

namespace ArithCircuit

namespace Balancer

theorem withDepths_yields {α : Type} {step : StateT DepthTable Build α} {memory : BalancerMemory}
    {circuit : Circuit} {post : α × DepthTable → Circuit → Prop}
    (yields : Yields (step memory.depths) circuit post) :
    Yields (withDepths step memory) circuit fun reply grown =>
      reply.2.fanOut = memory.fanOut ∧ reply.2.log = memory.log ∧
        post (reply.1, reply.2.depths) grown :=
  yields.bind fun _ _ holds => .intro rfl ⟨rfl, rfl, holds⟩

theorem record_yields (event : Event) (memory : BalancerMemory) (circuit : Circuit) :
    Yields (record event memory) circuit fun reply grown =>
      grown = circuit ∧ reply.2.depths = memory.depths ∧ reply.2.fanOut = memory.fanOut ∧
        reply.2.log = memory.log.record event :=
  .intro rfl ⟨rfl, rfl, rfl, rfl⟩

def Rebalanced (old : Circuit) (counted : FanOut) (forms : Forms) (new : Circuit) (id form : Nat) :
    Prop :=
  ∃ factors operands leaves, counted.factors? old id = some factors ∧
    old.Chain .mul factors id ∧ factors.mapM (fun factor => forms[factor]?) = some operands ∧
    leaves.Perm operands ∧ new.Chain .mul leaves form

-- How the form of a node was decided on. A product is replaced by a tree over the forms of its factors
-- if that is strictly shallower, another node only if one of its children has been replaced.
inductive Decided (start : Circuit) (counted : FanOut) (forms : Forms) (circuit : Circuit)
    (id form : Nat) : Prop where
  | product {left right depth : Nat} {factors operands depths : List Nat}
      (found : start.node? id = some (.product left right))
      (split : counted.factors? start id = some factors) (chain : start.Chain .mul factors id)
      (looked : factors.mapM (fun factor => forms[factor]?) = some operands)
      (hasDepth : circuit.HasDepth id depth)
      (haveDepths : List.Forall₂ circuit.HasDepth operands depths)
      (outcome : form = id ∧ depth ≤ balancedDepth depths ∨ circuit.TreeOver .mul operands form ∧
        circuit.HasDepth form (balancedDepth depths) ∧ balancedDepth depths < depth)
  | other (unsplit : ∀ left right, start.node? id ≠ some (.product left right))
      (moved : (∀ child ∈ start.children id, ∀ next, forms[child]? = some next → next = child) →
        form = id)

theorem Decided.mono {start middle new : Circuit} {counted : FanOut} {forms larger : Forms}
    {id form : Nat} (extended : middle.Extends new) (kept : forms.Within larger)
    (decided : Decided start counted forms middle id form) :
    Decided start counted larger new id form := by
  cases decided with
  | product found split chain looked hasDepth haveDepths outcome =>
    refine .product found split chain (mapM_of_lookup kept looked) (hasDepth.of_extends extended)
      (haveDepths.imp fun _ _ known => known.of_extends extended) (outcome.imp_right ?_)
    rintro ⟨tree, formDepth, shallower⟩
    exact ⟨tree.of_extends extended, formDepth.of_extends extended, shallower⟩
  | other unsplit moved =>
    exact .other unsplit fun same => moved fun child member next found =>
      same child member next (kept child next found)

theorem Decided.rebalanced {start new : Circuit} {counted : FanOut} {forms : Forms}
    {id form left right : Nat} (decided : Decided start counted forms new id form)
    (isProduct : start.node? id = some (.product left right)) (moved : form ≠ id) :
    Rebalanced start counted forms new id form := by
  cases decided with
  | product _ split chain looked _ _ outcome =>
    obtain ⟨splits, leaves, cut, _, reordered⟩ := (outcome.resolve_left fun kept => moved kept.1).1
    exact ⟨_, _, leaves, split, chain, looked, reordered, cut.chain⟩
  | other unsplit => exact absurd isProduct (unsplit left right)

abbrev Reduces : Formula → Formula → Prop := Formula.Refines (Domain.Commutative .mul)

theorem reduces_congruence : Formula.Congruence Reduces := Formula.refines_congruence

theorem reduces_of_perm {operands forms leaves : List Formula} {formula form : Formula}
    (chain : Formula.Chain .mul operands formula) (reduced : List.Forall₂ Reduces operands forms)
    (reordered : leaves.Perm forms) (rebuilt : Formula.Chain .mul leaves form) :
    Reduces formula form := by
  intro T domain commutative inputs value evaluates
  refine chain.evaluates_of_perm commutative (reduced.imp ?_) reordered rebuilt evaluates
  intro operand result reduces value operandEvaluates
  exact reduces T domain commutative inputs value operandEvaluates

-- What every new form is: a refinement of the old one that is no deeper and needs the same inputs.
structure Improves (formula form : Formula) : Prop where
  reduces : Reduces formula form
  noDeeper : form.depth ≤ formula.depth
  retains : Formula.Retains formula form

theorem improves_congruence : Formula.Congruence Improves := by
  intro formula form layer
  refine ⟨reduces_congruence (layer.mono fun _ _ improves => improves.reduces), ?_,
    Formula.retains_congruence (layer.mono fun _ _ improves => improves.retains)⟩
  cases layer with
  | constant => exact Nat.le_refl _
  | input => exact Nat.le_refl _
  | binary op left right =>
    have leftLess := left.2
    have rightLess := right.2
    cases op <;> simp only [Formula.depth] <;> omega
  | shift _ _ operand => exact operand.2

theorem refines_of_improves (formula form : Formula) (improves : Improves formula form) :
    Formula.Refines Domain.IsSemiring formula form :=
  improves.1.mono fun _ semiring => semiring.commutative .mul

structure Formed (start : Circuit) (counted : FanOut) (forms : Forms) (circuit : Circuit)
    (memory : BalancerMemory) (id : Nat) (formula : Formula) (form : Nat) (later : BalancerMemory)
    (grown : Circuit) : Prop where
  extended : circuit.Extends grown
  fanOut : later.fanOut = memory.fanOut
  depths : later.depths.Right grown
  isNew : form = id ∨ circuit.size ≤ form
  decided : Decided start counted forms grown id form
  kept : form = id → grown = circuit ∧ Keeps start forms id
  changed : form ≠ id → start.isGate .all id = true
  trades : ∃ splits, Gathers start counted id splits ∧
    circuit.Trades grown forms (id :: splits)
  improves : ∃ result, grown.Denotes form result ∧ Improves formula result

structure Prepared (start circuit : Circuit) (counted : FanOut) (forms : Forms) (id : Nat)
    (formula : Formula) (factors operands : List Nat) (results : List Formula) : Prop where
  product : ∃ left right, start.node? id = some (.product left right)
  split : counted.factors? start id = some factors
  chain : start.Chain .mul factors id
  denotes : circuit.Denotes id formula
  looked : factors.mapM (fun factor => forms[factor]?) = some operands
  operandsDenote : List.Forall₂ circuit.Denotes operands results
  improve : ∃ formulas, Formula.Chain .mul formulas formula ∧
    List.Forall₂ Improves formulas results
  several : 2 ≤ operands.length

theorem exists_prepared {start circuit : Circuit} {counted : FanOut} {forms : Forms}
    {id left right : Nat} {formula : Formula} (extended : start.Extends circuit)
    (related : forms.Related Improves circuit)
    (found : start.node? id = some (.product left right)) (denotes : circuit.Denotes id formula)
    (known : ∀ dependency ∈ dependencies start counted id, dependency ∈ forms) :
    ∃ factors operands results,
      Prepared start circuit counted forms id formula factors operands results := by
  obtain ⟨factors, split, chain, several, _⟩ := @FanOut.factors?_of_product counted _ _ _ _ found
  rw [dependencies_of_product found split] at known
  obtain ⟨formulas, factorsDenote, formulaChain⟩ := (chain.of_extends extended).denotes denotes
  obtain ⟨operands, results, looked, operandsDenote, improve⟩ :=
    related.forms_of_mem factorsDenote known
  have enough : 2 ≤ operands.length := by
    rw [operandsDenote.length_eq, ← improve.length_eq, ← factorsDenote.length_eq]
    exact several
  exact ⟨factors, operands, results, ⟨left, right, found⟩, split, chain, denotes, looked,
    operandsDenote, ⟨formulas, formulaChain, improve⟩, enough⟩

section Products

variable {start circuit : Circuit} {counted : FanOut} {forms : Forms} {id : Nat} {formula : Formula}
  {factors operands : List Nat} {results : List Formula} {memory later : BalancerMemory}

theorem Prepared.formed_of_kept
    (prepared : Prepared start circuit counted forms id formula factors operands results)
    (noBetter : formula.depth ≤ balancedDepth (results.map Formula.depth))
    (fanOut : later.fanOut = memory.fanOut) (depths : later.depths.Right circuit) :
    Formed start counted forms circuit memory id formula id later circuit := by
  obtain ⟨left, right, found⟩ := prepared.product
  obtain ⟨splits, _, gathers⟩ := gathers_of_product found prepared.split
  exact {
    extended := circuit.extends_refl
    fanOut, depths
    isNew := .inl rfl
    decided := .product found prepared.split prepared.chain prepared.looked
      ⟨formula, prepared.denotes, rfl⟩ (Circuit.forall_hasDepth prepared.operandsDenote)
      (.inl ⟨rfl, noBetter⟩)
    kept := fun _ => ⟨rfl, fun single => absurd found (single left right)⟩
    changed := fun moved => absurd rfl moved
    trades := ⟨splits, gathers, .unchanged _ _ _⟩
    improves := ⟨formula, prepared.denotes, improves_congruence.refl formula⟩ }

theorem Prepared.formed_of_balances {grown : Circuit} {form : Nat}
    (prepared : Prepared start circuit counted forms id formula factors operands results)
    (extended : start.Extends circuit) (balances : circuit.Balances grown operands form)
    (shallower : balancedDepth (results.map Formula.depth) < formula.depth)
    (fanOut : later.fanOut = memory.fanOut) (depths : later.depths.Right grown) :
    Formed start counted forms circuit memory id formula form later grown := by
  obtain ⟨left, right, found⟩ := prepared.product
  obtain ⟨splits, splitLength, gathers⟩ := gathers_of_product found prepared.split
  obtain ⟨formulas, formulaChain, improve⟩ := prepared.improve
  have filled : operands ≠ [] :=
    List.ne_nil_of_length_pos (Nat.lt_of_lt_of_le Nat.two_pos prepared.several)
  have isNew := balances.isNew prepared.several
  obtain ⟨leaves, reordered, formChain⟩ := balances.product.chain prepared.several
  obtain ⟨result, formDenotes, depthEq⟩ :=
    balances.hasDepth _ (Circuit.forall_hasDepth prepared.operandsDenote)
  have stillDenote := Circuit.forall_denotes_of_extends balances.extended prepared.operandsDenote
  obtain ⟨moved, movedPerm, movedChain⟩ := formChain.denotes_of_perm reordered stillDenote formDenotes
  have products : ∀ gate ∈ id :: splits,
      ∃ left right, circuit.node? gate = some (.product left right) := by
    intro gate member
    rcases List.mem_cons.mp member with rfl | below
    · exact ⟨left, right, extended _ _ found⟩
    · obtain ⟨first, second, splitFound⟩ := gathers.products gate below
      exact ⟨first, second, extended _ _ splitFound⟩
  have improves : Improves formula result := {
    reduces := reduces_of_perm formulaChain (improve.imp fun _ _ improves => improves.reduces)
      movedPerm movedChain
    noDeeper := depthEq ▸ Nat.le_of_lt shallower
    retains := formulaChain.retains_of_perm (improve.imp fun _ _ improves => improves.retains)
      movedPerm movedChain }
  exact {
    extended := balances.extended
    fanOut, depths
    isNew := .inr isNew
    decided := .product found prepared.split prepared.chain prepared.looked
      ⟨formula, Circuit.denotes_of_extends balances.extended prepared.denotes, rfl⟩
      (Circuit.forall_hasDepth stillDenote)
      (.inr ⟨balances.treeOver filled, ⟨result, formDenotes, depthEq⟩, shallower⟩)
    kept := fun same => absurd (Circuit.lt_size_of_denotes prepared.denotes)
      (Nat.not_lt_of_le (same ▸ isNew))
    changed := fun _ => by
      rw [Circuit.isGate, found]
      rfl
    trades := ⟨splits, gathers, Circuit.trades_of_joined (balances.joins filled) products splitLength
      (forall₂_of_mapM_eq_some prepared.looked)⟩
    improves := ⟨result, formDenotes, improves⟩ }

end Products

def announcement (id count old new : Nat) : Event :=
  if new < old then .rebalanced id count old new else .kept id count old

def Announced (start : Circuit) (counted : FanOut) (forms : Forms) (circuit : Circuit) (id : Nat)
    (event : Event) : Prop :=
  ∃ factors operands old depths, counted.factors? start id = some factors ∧
    factors.mapM (fun factor => forms[factor]?) = some operands ∧ circuit.HasDepth id old ∧
    List.Forall₂ circuit.HasDepth operands depths ∧
    event = announcement id operands.length old (balancedDepth depths)

inductive Reported (start : Circuit) (counted : FanOut) (forms : Forms) (circuit : Circuit) (id : Nat)
    (log : Log) : Log → Prop where
  | product {left right : Nat} {event : Event} (found : start.node? id = some (.product left right))
      (announced : Announced start counted forms circuit id event) :
      Reported start counted forms circuit id log (log.record event)
  | other (unsplit : ∀ left right, start.node? id ≠ some (.product left right)) :
      Reported start counted forms circuit id log log

theorem rebalance_yields {start circuit : Circuit} {counted : FanOut} {forms : Forms}
    {memory : BalancerMemory} {id left right : Nat} {formula : Formula}
    (extended : start.Extends circuit) (related : forms.Related Improves circuit)
    (depths : memory.depths.Right circuit)
    (shared : ∀ other < start.size, memory.fanOut.isShared other = counted.isShared other)
    (found : start.node? id = some (.product left right)) (denotes : circuit.Denotes id formula)
    (known : ∀ dependency ∈ dependencies start counted id, dependency ∈ forms) :
    Yields (rebalance forms id memory) circuit fun reply grown =>
      Formed start counted forms circuit memory id formula reply.1 reply.2 grown ∧
        Reported start counted forms grown id memory.log reply.2.log := by
  obtain ⟨factors, operands, results, prepared⟩ :=
    exists_prepared extended related found denotes known
  have sameSplit : memory.fanOut.factors? circuit id = some factors := by
    rw [FanOut.factors?_congr extended (Circuit.lt_size_of_node? found) shared, prepared.split]
  unfold rebalance
  refine .memory_after rfl (.memory_after rfl ?_)
  refine .memory_after (Yields.memory_lookup sameSplit memory circuit) ?_
  refine .memory_after (Yields.memory_lookups prepared.looked memory circuit) ?_
  refine .memory_bind (withDepths_yields (Build.depth_yields depths denotes)) ?_
  intro oldDepth first next finished
  obtain ⟨firstFan, firstLog, rfl, sameDepth, firstDepths⟩ := finished
  refine .memory_bind (withDepths_yields (Build.depths_yield firstDepths prepared.operandsDenote)) ?_
  intro newDepths second next finished
  obtain ⟨secondFan, secondLog, rfl, sameDepths, secondDepths⟩ := finished
  dsimp only at sameDepth sameDepths firstLog secondLog
  subst sameDepth sameDepths
  have reports : ∀ {grown : Circuit} {event : Event}, next.Extends grown →
      event = announcement id operands.length formula.depth
        (balancedDepth (results.map Formula.depth)) →
      Reported start counted forms grown id memory.log (second.log.record event) := by
    intro grown event further same
    rw [secondLog, firstLog]
    refine .product found ⟨factors, operands, formula.depth, _, prepared.split, prepared.looked,
      ⟨formula, Circuit.denotes_of_extends further prepared.denotes, rfl⟩, ?_, same⟩
    exact Circuit.forall_hasDepth (Circuit.forall_denotes_of_extends further prepared.operandsDenote)
  by_cases shallower : balancedDepth (results.map Formula.depth) < formula.depth
  · simp only [if_pos shallower]
    refine .memory_bind (record_yields _ second next) ?_
    intro _ recorded next finished
    obtain ⟨rfl, sameDepths, sameFan, recordedLog⟩ := finished
    rw [← sameDepths] at secondDepths
    have inRange : ∀ operand ∈ operands, operand < next.size := fun operand member =>
      Circuit.lt_size_of_mem prepared.operandsDenote member
    refine (withDepths_yields (Build.balancedProduct_yields secondDepths inRange)).mono ?_
    intro reply grown finished
    obtain ⟨form, last⟩ := reply
    obtain ⟨lastFan, lastLog, balances, lastDepths⟩ := finished
    refine ⟨prepared.formed_of_balances extended balances shallower
      (lastFan.trans (sameFan.trans (secondFan.trans firstFan))) lastDepths, ?_⟩
    rw [lastLog, recordedLog]
    exact reports balances.extended (if_pos shallower).symm
  · simp only [if_neg shallower]
    refine .memory_bind (record_yields _ second next) ?_
    intro _ recorded next finished
    obtain ⟨rfl, sameDepths, sameFan, recordedLog⟩ := finished
    rw [← sameDepths] at secondDepths
    refine .intro rfl ⟨prepared.formed_of_kept (Nat.le_of_not_lt shallower)
      (sameFan.trans (secondFan.trans firstFan)) secondDepths, ?_⟩
    rw [recordedLog]
    exact reports next.extends_refl (if_neg shallower).symm

theorem not_product_of_operands? {circuit : Circuit} {id : Nat} {node : Node}
    (found : circuit.node? id = some node) (split : node.operands? .mul = none) (left right : Nat) :
    circuit.node? id ≠ some (.product left right) := by
  intro isProduct
  obtain rfl := Option.some.inj (found.symm.trans isProduct)
  contradiction

theorem formed_of_relinked {start circuit grown : Circuit} {counted : FanOut} {forms : Forms}
    {memory : BalancerMemory} {id form : Nat} {node : Node} {formula result : Formula}
    (found : start.node? id = some node) (split : node.operands? .mul = none)
    (extended : start.Extends circuit) (depths : memory.depths.Right circuit)
    (relinks : circuit.Relinks forms id form grown) (gains : circuit.Gains grown form result)
    (improves : Improves formula result) :
    Formed start counted forms circuit memory id formula form memory grown := by
  have present := extended id node found
  have unsplit := not_product_of_operands? found split
  have gathers : Gathers start counted id [] := gathers_of_other found split
  cases relinks with
  | unchanged also mapped =>
    obtain rfl := Option.some.inj (present.symm.trans also)
    have keeps : Keeps start forms id := by
      intro _ child member
      rw [Circuit.children_of_node? found] at member
      exact List.forall₂_same.mp (Node.forall₂_mapChildren? mapped) child member
    exact {
      extended := circuit.extends_refl
      fanOut := rfl
      depths
      isNew := .inl rfl
      decided := .other unsplit fun _ => rfl
      kept := fun _ => ⟨rfl, keeps⟩
      changed := fun moved => absurd rfl moved
      trades := ⟨[], gathers, .unchanged _ _ _⟩
      improves := ⟨result, gains.denotes, improves⟩ }
  | changed also mapped different bound =>
    obtain rfl := Option.some.inj (present.symm.trans also)
    have moved : ¬∀ child ∈ start.children id, ∀ next, forms[child]? = some next → next = child := by
      intro same
      rw [Circuit.children_of_node? found] at same
      have stays := Node.mapChildren?_of_kept fun child member => by
        obtain ⟨next, _, looked⟩ :=
          exists_of_mem_forall₂ (Node.forall₂_mapChildren? mapped).flip member
        exact same child member next looked ▸ looked
      exact different (Option.some.inj (mapped.symm.trans stays))
    exact {
      extended := gains.extended
      fanOut := rfl
      depths := DepthTable.right_of_extends gains.extended depths
      isNew := .inr (Nat.le_refl _)
      decided := .other unsplit fun same => absurd same moved
      kept := fun same => absurd (Circuit.lt_size_of_node? present) (same ▸ Nat.lt_irrefl _)
      changed := fun _ => Circuit.isGate_of_mapChildren? found mapped different
      trades := ⟨[], gathers, Circuit.trades_of_relinked also mapped different bound⟩
      improves := ⟨result, gains.denotes, improves⟩ }

theorem rebuild_yields {start circuit : Circuit} {counted : FanOut} {forms : Forms}
    {memory : BalancerMemory} {id : Nat} {formula : Formula} (inRange : id < start.size)
    (extended : start.Extends circuit) (related : forms.Related Improves circuit)
    (depths : memory.depths.Right circuit)
    (shared : ∀ other < start.size, memory.fanOut.isShared other = counted.isShared other)
    (denotes : circuit.Denotes id formula)
    (known : ∀ dependency ∈ dependencies start counted id, dependency ∈ forms) :
    Yields (rebuild forms id memory) circuit fun reply grown =>
      ∃ later, Formed start counted forms circuit memory id formula reply.1 later grown ∧
        Reported start counted forms grown id memory.log later.log ∧
        reply.2 = { later with fanOut := later.fanOut.inherit id reply.1 } := by
  obtain ⟨node, found⟩ := Circuit.node?_of_lt_size inRange
  refine .memory_after (Build.memory_node_eq (extended id node found) memory) ?_
  cases split : node.operands? .mul with
  | some pair =>
    obtain rfl := Node.operands?_eq_some.mp split
    have formed := rebalance_yields extended related depths shared found denotes known
    refine .memory_bind formed ?_
    intro form later grown holds
    exact .intro rfl ⟨later, holds.1, holds.2, rfl⟩
  | none =>
    have children := known
    rw [dependencies_of_other found split, ← Circuit.children_of_extends extended inRange]
      at children
    have formed := (Build.relinked_yields related denotes children).both
      (Build.relinked_relinks related denotes children)
    refine .memory_lift_bind formed ?_
    intro form grown finished
    obtain ⟨⟨_, result, gains, layer⟩, relinks⟩ := finished
    exact .intro rfl ⟨memory, formed_of_relinked found split extended depths relinks gains
      (improves_congruence layer), .other (not_product_of_operands? found split), rfl⟩

-- What a run keeps: `counted` is the sharing before it and `known` are the forms from earlier runs.
structure Working (start : Circuit) (counted : FanOut) (root : Nat) (known : Forms)
    (circuit : Circuit) (balancer : Balancer) : Prop where
  improved : balancer.forms.Related Improves circuit
  depths : balancer.memory.depths.Right circuit
  inherits : FanOut.Inherits start.size counted balancer.memory.fanOut
  kept : known.Within balancer.forms
  decided : ∀ id form : Nat, known[id]? = none → balancer.forms[id]? = some form →
    Decided start counted balancer.forms circuit id form
  accounts : ∃ tops splits,
    Accounts start counted root known circuit balancer.forms tops splits

theorem Working.related {start circuit : Circuit} {counted : FanOut} {root : Nat} {known : Forms}
    {balancer : Balancer} (working : Working start counted root known circuit balancer) :
    balancer.forms.Related Reduces circuit :=
  fun id form found => (working.improved id form found).mono fun _ _ improves => improves.1

theorem Working.rebalanced {start circuit : Circuit} {counted : FanOut} {root : Nat} {known : Forms}
    {balancer : Balancer} (working : Working start counted root known circuit balancer)
    (id form left right : Nat) (absent : known[id]? = none)
    (found : balancer.forms[id]? = some form)
    (isProduct : start.node? id = some (.product left right)) (moved : form ≠ id) :
    Rebalanced start counted balancer.forms circuit id form :=
  (working.decided id form absent found).rebalanced isProduct moved

theorem rebuild_working {start circuit : Circuit} {counted : FanOut} {root : Nat} {known : Forms}
    {balancer : Balancer} {id : Nat} (extended : start.Extends circuit) (inRange : id < start.size)
    (called : Called start counted root id) (isOpen : balancer.forms[id]? = none)
    (ready : ∀ dependency ∈ dependencies start counted id, dependency ∈ balancer.forms)
    (working : Working start counted root known circuit balancer) :
    Yields (rebuild balancer.forms id balancer.memory) circuit fun reply grown =>
      circuit.Extends grown ∧
        Working start counted root known grown ⟨balancer.forms.insert id reply.1, reply.2⟩ := by
  have present := Nat.lt_of_lt_of_le inRange (Circuit.size_le_of_extends extended)
  obtain ⟨formula, denotes⟩ := circuit.formula?_of_lt_size present
  have rebuilt := rebuild_yields inRange extended working.improved working.depths
    (fun _ below => working.inherits.isShared_eq below) denotes ready
  refine rebuilt.mono ?_
  intro reply grown finished
  obtain ⟨form, last⟩ := reply
  obtain ⟨later, formed, _, same⟩ := finished
  dsimp only at formed same ⊢
  subst same
  obtain ⟨result, formDenotes, improves⟩ := formed.improves
  have grows := Forms.within_insert isOpen form
  have isNew : form = id ∨ start.size ≤ form :=
    formed.isNew.imp_right (Nat.le_trans (Circuit.size_le_of_extends extended))
  refine ⟨formed.extended, ?_, formed.depths, ?_, working.kept.trans grows, ?_, ?_⟩
  · exact Forms.insert_related (Forms.related_of_extends formed.extended working.improved)
      ⟨formula, result, Circuit.denotes_of_extends formed.extended denotes, formDenotes, improves⟩
  · have unchanged := working.inherits
    rw [← formed.fanOut] at unchanged
    exact unchanged.trans (FanOut.inherit_inherits isNew)
  · intro other value absent found
    rcases found_in_insert found with ⟨rfl, rfl⟩ | older
    · exact formed.decided.mono grown.extends_refl grows
    · exact (working.decided other value absent older).mono formed.extended grows
  · obtain ⟨tops, splits, accounts⟩ := working.accounts
    by_cases same : form = id
    · obtain ⟨rfl, keeps⟩ := formed.kept same
      subst same
      exact ⟨tops, splits, accounts.keep isOpen called keeps⟩
    · obtain ⟨gathered, gathers, trades⟩ := formed.trades
      exact ⟨id :: tops, gathered ++ splits, accounts.replace extended formed.extended isOpen
        working.kept called inRange (isNew.resolve_left same) (formed.changed same) gathers trades⟩

-- What holds between calls.
structure Right (circuit : Circuit) (balancer : Balancer) : Prop where
  improved : balancer.forms.Related Improves circuit
  depths : balancer.memory.depths.Right circuit

theorem fresh_right (log : Log) (circuit : Circuit) : Right circuit (fresh log) :=
  ⟨Forms.empty_related circuit, DepthTable.empty_right circuit⟩

theorem right_of_extends {old new : Circuit} {balancer : Balancer} (extended : old.Extends new)
    (right : Right old balancer) : Right new balancer :=
  ⟨Forms.related_of_extends extended right.improved,
    DepthTable.right_of_extends extended right.depths⟩

theorem countUses_eq {circuit : Circuit} {balancer : Balancer} {root : Nat} {counted : FanOut}
    (counting : balancer.memory.fanOut.count? circuit root = some counted) :
    Rewriter.inMemory (countUses root) balancer circuit =
      some (((), ⟨balancer.forms, { balancer.memory with fanOut := counted }⟩), circuit) := by
  change (((balancer.memory.fanOut.count? circuit root).bind _).bind _).bind _ = _
  rw [counting]
  rfl

theorem start_working {circuit : Circuit} {counted : FanOut} {balancer : Balancer}
    (right : Right circuit balancer) (counting : balancer.memory.fanOut = counted) (root : Nat) :
    Working circuit counted root balancer.forms circuit balancer := by
  refine ⟨right.improved, right.depths, counting ▸ .refl _ _, Forms.within_refl _, ?_,
    [], [], start_accounts circuit counted root balancer.forms⟩
  intro id form absent found
  rw [absent] at found
  contradiction

theorem run_working {circuit : Circuit} {counted : FanOut} {balancer : Balancer}
    (right : Right circuit balancer) (counting : balancer.memory.fanOut = counted) {root : Nat}
    (inRange : root < circuit.size) :
    Yields (Rewriter.run (dependencies circuit counted) rebuild root balancer) circuit
      fun reply grown => circuit.Extends grown ∧
        Working circuit counted root balancer.forms grown reply.2 ∧
        reply.2.forms[root]? = some reply.1 :=
  Rewriter.run_yields (dependencies_earlier circuit counted)
    (fun _ called _ member => called.dependency member) (called_root circuit counted root)
    (fun _ _ _ extended called isOpen ready working =>
      rebuild_working extended (Nat.lt_of_le_of_lt called.reached.le inRange) called isOpen ready
        working) (start_working right counting root)

theorem report_yields {circuit : Circuit} {memory : BalancerMemory} {root form : Nat}
    {formula result : Formula} (depths : memory.depths.Right circuit)
    (rootDenotes : circuit.Denotes root formula) (formDenotes : circuit.Denotes form result) :
    Yields ((do
      let oldDepth ← withDepths (Build.depth root)
      let newDepth ← withDepths (Build.depth form)
      record (.reduced root oldDepth form newDepth) : StateT BalancerMemory Build Unit) memory)
      circuit fun reply grown => grown = circuit ∧ reply.2.depths.Right circuit ∧
        reply.2.fanOut = memory.fanOut ∧
        reply.2.log = memory.log.record (.reduced root formula.depth form result.depth) := by
  refine .memory_bind (withDepths_yields (Build.depth_yields depths rootDenotes)) ?_
  intro oldDepth first next finished
  obtain ⟨firstFan, firstLog, rfl, sameOld, firstDepths⟩ := finished
  refine .memory_bind (withDepths_yields (Build.depth_yields firstDepths formDenotes)) ?_
  intro newDepth second next finished
  obtain ⟨secondFan, secondLog, rfl, sameNew, secondDepths⟩ := finished
  dsimp only at firstLog sameOld secondLog sameNew
  subst sameOld sameNew
  exact .intro rfl ⟨rfl, secondDepths, secondFan.trans firstFan,
    congrArg (Log.record · _) (secondLog.trans firstLog)⟩

theorem reduce_of_run {circuit grown : Circuit} {balancer last : Balancer} {counted : FanOut}
    {root form : Nat} {formula result : Formula}
    (counting : balancer.memory.fanOut.count? circuit root = some counted)
    (ran : Rewriter.run (dependencies circuit counted) rebuild root
      ⟨balancer.forms, { balancer.memory with fanOut := counted }⟩ circuit =
        some ((form, last), grown))
    (depths : last.memory.depths.Right grown) (rootDenotes : grown.Denotes root formula)
    (formDenotes : grown.Denotes form result) :
    Yields (reduce root balancer) circuit fun reply after => after = grown ∧ reply.1 = form ∧
      reply.2.forms = last.forms ∧ reply.2.memory.depths.Right grown ∧
      reply.2.memory.fanOut = last.memory.fanOut ∧
      reply.2.memory.log = last.memory.log.record (.reduced root formula.depth form result.depth) := by
  refine .memory_after (countUses_eq counting) (.memory_after rfl (.memory_after rfl
    (.memory_after ran ?_)))
  refine .memory_bind (Rewriter.inMemory_yields (report_yields depths rootDenotes formDenotes)) ?_
  intro _ reply after finished
  obtain ⟨sameForms, sameCircuit, laterDepths, sameFan, log⟩ := finished
  exact .intro rfl ⟨sameCircuit, rfl, sameForms, laterDepths, sameFan, log⟩

theorem reduce_yields {circuit : Circuit} {balancer : Balancer} (right : Right circuit balancer)
    {root : Nat} (inRange : root < circuit.size) :
    Yields (reduce root balancer) circuit fun reply grown =>
      circuit.Extends grown ∧ ∃ counted, balancer.memory.fanOut.count? circuit root = some counted ∧
        Working circuit counted root balancer.forms grown reply.2 ∧
        reply.2.forms[root]? = some reply.1 := by
  obtain ⟨counted, counts⟩ := balancer.memory.fanOut.exists_count? inRange
  have ready : Right circuit ⟨balancer.forms, { balancer.memory with fanOut := counted }⟩ :=
    ⟨right.improved, right.depths⟩
  obtain ⟨⟨form, last⟩, grown, ran, extended, working, found⟩ := run_working ready rfl inRange
  dsimp only at working found
  obtain ⟨formula, rootDenotes⟩ := circuit.formula?_of_lt_size inRange
  obtain ⟨_, result, _, formDenotes, _⟩ := working.related root form found
  refine (reduce_of_run counts ran working.depths (Circuit.denotes_of_extends extended rootDenotes)
    formDenotes).mono ?_
  intro reply after finished
  obtain ⟨reduced, forms, memory⟩ := reply
  obtain ⟨rfl, rfl, sameForms, depths, sameFan, _⟩ := finished
  dsimp only at sameForms depths sameFan
  subst sameForms
  exact ⟨extended, counted, counts, ⟨working.improved, depths, sameFan.symm ▸ working.inherits,
    working.kept, working.decided, working.accounts⟩, found⟩

theorem reduce_rewrites {circuit : Circuit} {balancer : Balancer} (right : Right circuit balancer)
    {root : Nat} (inRange : root < circuit.size) :
    Yields (reduce root balancer) circuit fun reply grown =>
      circuit.Rewrites Improves grown root reply.1 ∧ Right grown reply.2 := by
  refine (reduce_yields right inRange).mono ?_
  intro reply grown finished
  obtain ⟨extended, counted, _, working, found⟩ := finished
  exact ⟨⟨extended, inRange, working.improved root _ found⟩, working.improved, working.depths⟩

theorem session_right {log : Log} {circuit : Circuit} {balancer : Balancer}
    (session : Session reduce (fresh log) circuit balancer) : Right circuit balancer := by
  refine session.invariant (fresh_right log) (fun _ _ _ => right_of_extends) ?_
  intro circuit balancer root inRange right
  exact (reduce_rewrites right inRange).mono fun _ _ holds => holds.2

theorem reduce_preserves_values (log : Log) {circuit : Circuit} {balancer : Balancer}
    (session : Session reduce (fresh log) circuit balancer) {root : Nat}
    (inRange : root < circuit.size) :
    ∃ form later grown, reduce root balancer circuit = some ((form, later), grown) ∧
      circuit.Extends grown ∧
      (∀ (T : Type) (domain : Domain T), domain.Commutative .mul → ∀ inputs value,
        circuit.eval? domain inputs root = some (.ok value) →
          grown.eval? domain inputs form = some (.ok value)) ∧
      ∃ counted, balancer.memory.fanOut.count? circuit root = some counted ∧
        ∀ id new left right : Nat, balancer.forms[id]? = none → later.forms[id]? = some new →
          circuit.node? id = some (.product left right) → new ≠ id →
          ∃ factors operands leaves, counted.factors? circuit id = some factors ∧
            circuit.Chain .mul factors id ∧
            factors.mapM (fun factor => later.forms[factor]?) = some operands ∧
            leaves.Perm operands ∧ grown.Chain .mul leaves new := by
  obtain ⟨⟨form, later⟩, grown, gives, extended, counted, counts, working, found⟩ :=
    reduce_yields (session_right session) inRange
  refine ⟨form, later, grown, gives, extended, ?_, counted, counts, working.rebalanced⟩
  intro T domain commutative inputs value evaluates
  have rewrites : circuit.Rewrites Reduces grown root form :=
    ⟨extended, inRange, working.related root form found⟩
  exact rewrites.preserves commutative evaluates

def leaningProduct : Circuit where
  nodes := #[.input "a", .input "b", .input "c", .input "d", .product 0 1, .product 4 2,
    .product 5 3]
  earlier := by decide

theorem reduce_leaning_product :
    ∃ form later grown, reduce 6 (fresh .off) leaningProduct = some ((form, later), grown) ∧
      grown.eval? .words (List.lookup · [("a", 2), ("b", 3), ("c", 5), ("d", 7)]) form =
        some (.ok 210) := by
  obtain ⟨form, later, grown, gives, _, same, _⟩ :=
    reduce_preserves_values .off (.start leaningProduct) (show 6 < leaningProduct.size by decide)
  refine ⟨form, later, grown, gives, same UInt64 .words ⟨UInt64.mul_assoc, UInt64.mul_comm⟩ _ _ ?_⟩
  rw [Circuit.eval?_of_denotes .words _ (show leaningProduct.Denotes 6 _ from rfl)]
  rfl

end Balancer

end ArithCircuit
