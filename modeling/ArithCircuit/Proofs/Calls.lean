import ArithCircuit.Proofs.Growth
import ArithCircuit.Proofs.Lifts
import ArithCircuit.Proofs.Pipeline

set_option autoImplicit false

namespace ArithCircuit

structure Tools where
  equality : EqualityTable
  depths : DepthTable
  merger : Merger
  balancer : Balancer
  factorizer : Factorizer
  distributor : Distributor
  log : Log

namespace Tools

def fresh (log : Log) : Tools :=
  ⟨.empty, .empty, .empty, .fresh log, .fresh log, .fresh log, log⟩

structure Right (circuit : Circuit) (tools : Tools) : Prop where
  equality : tools.equality.Right circuit
  depths : tools.depths.Right circuit
  merger : tools.merger.Right circuit
  balancer : tools.balancer.Right circuit
  factorizer : tools.factorizer.Right circuit
  distributor : tools.distributor.Right circuit

theorem fresh_right (log : Log) (circuit : Circuit) : Right circuit (fresh log) where
  equality := EqualityTable.empty_right circuit
  depths := DepthTable.empty_right circuit
  merger := Merger.empty_right circuit
  balancer := Balancer.fresh_right log circuit
  factorizer := Factorizer.fresh_right log circuit
  distributor := Distributor.fresh_right log circuit

theorem right_of_extends {old new : Circuit} {tools : Tools} (extended : old.Extends new)
    (right : Right old tools) : Right new tools where
  equality := EqualityTable.right_of_extends extended right.equality
  depths := DepthTable.right_of_extends extended right.depths
  merger := Merger.right_of_extends extended right.merger
  balancer := Balancer.right_of_extends extended right.balancer
  factorizer := Factorizer.right_of_extends extended right.factorizer
  distributor := Forms.related_of_extends extended right.distributor

end Tools

namespace Circuit

inductive Call : Type 1 where
  | constant (value : UInt64)
  | input (name : String)
  | binary (op : BinaryOp) (left right : Nat)
  | shift (direction : Direction) (operand : Nat) (amount : UInt64)
  | inputs (name : String) (length : Nat)
  | inputRows (name : String) (rows width : Nat)
  | children (id : Nat)
  | reachable (roots : List Nat)
  | factors (root : Nat)
  | render (root : Nat)
  | equal (left right : Nat)
  | depth (root : Nat)
  | maxDepth (roots : List Nat)
  | gateCount (roots : List Nat) (kinds : GateSet)
  | stats (roots : List Nat)
  | evaluateAll {T : Type} (domain : Domain T) (bound : String → Option T) (roots : List Nat)
  | evaluateEach {T : Type} (domain : Domain T) (bound : String → Option T) (roots : List Nat)
  | merge (root : Nat)
  | mergeAll (roots : List Nat)
  | reduce (root : Nat)
  | reduceAll (roots : List Nat)
  | product (factors : List Nat)
  | simplify (root : Nat)
  | expand (root : Nat)
  | distribute (root : Nat)
  | scale (factor term : Nat)
  | pipeline (passes : Pipeline) (roots : List Nat)

namespace Call

def nodes : Call → List Nat
  | constant _ | input _ | inputs _ _ | inputRows _ _ _ => []
  | binary _ left right | equal left right => [left, right]
  | shift _ operand _ => [operand]
  | children root | factors root | render root | depth root | merge root | reduce root
  | simplify root | expand root | distribute root => [root]
  | reachable roots | maxDepth roots | gateCount roots _ | stats roots | evaluateAll _ _ roots
  | evaluateEach _ _ roots | mergeAll roots | reduceAll roots | product roots
  | pipeline _ roots => roots
  | scale factor term => [factor, term]

def ask {α : Type} (answer : Circuit → Option α) : Build α := do
  let circuit ← get
  answer circuit

def run : Call → StateT Tools Build (List Nat)
  | constant value => do return [← (Build.constant value : Build Nat)]
  | input name => do return [← (Build.input name : Build Nat)]
  | binary op left right => do return [← (Build.binary op left right : Build Nat)]
  | shift direction operand amount => do
    return [← (Build.shift direction operand amount : Build Nat)]
  | inputs name length => Build.inputs name length
  | inputRows name rows width => do
    return (← (Build.inputRows name rows width : Build (List (List Nat)))).flatten
  | children id => do return (← (Build.node id : Build Node)).children
  | reachable roots => ask (·.reachable? roots)
  | factors root => ask (·.factors? root)
  | render root => do
    let _ ← (ask (·.render? root) : Build String)
    return []
  | equal left right => fun tools => do
    let circuit ← get
    let (_, equality) ← EqualityTable.equal circuit left right tools.equality
    return ([], { tools with equality })
  | depth root => fun tools => do
    let (_, depths) ← Build.depth root tools.depths
    return ([], { tools with depths })
  | maxDepth roots => do
    let _ ← (ask (·.maxDepth? roots) : Build Nat)
    return []
  | gateCount roots kinds => do
    let _ ← (ask (·.gateCount? roots kinds) : Build Nat)
    return []
  | stats roots => do
    let _ ← (ask (Stats.of? · roots) : Build Stats)
    return []
  | @evaluateAll T domain bound roots => do
    let _ ← (ask fun circuit => (Evaluator.evalAll domain bound circuit roots).run .empty :
      Build (Except Error (List T) × Evaluator T))
    return []
  | @evaluateEach T domain bound roots => do
    let _ ← (ask fun circuit =>
      (roots.mapM fun root => (Evaluator.eval domain bound circuit root).run) .empty :
        Build (List (Except Error T) × Evaluator T))
    return []
  | merge root => fun tools => do
    let (form, merger) ← Merger.merge root tools.merger
    return ([form], { tools with merger })
  | mergeAll roots => fun tools => do
    let (forms, log) ← Build.mergeAll roots tools.log
    return (forms, { tools with log })
  | reduce root => fun tools => do
    let (form, balancer) ← Balancer.reduce root tools.balancer
    return ([form], { tools with balancer })
  | reduceAll roots => fun tools => do
    let (forms, log) ← Pipeline.reduceAll roots tools.log
    return (forms, { tools with log })
  | product operands => fun tools => do
    let (form, balancer) ← Balancer.product operands tools.balancer
    return ([form], { tools with balancer })
  | simplify root => fun tools => do
    let (form, factorizer) ← Factorizer.simplify root tools.factorizer
    return ([form], { tools with factorizer })
  | expand root => fun tools => do
    let (form, distributor) ← Distributor.expand root tools.distributor
    return ([form], { tools with distributor })
  | distribute root => do return (← (Build.distributed? root : Build (Option Nat))).toList
  | scale factor term => do return [← (Build.scaled factor term : Build Nat)]
  | pipeline passes roots => fun tools => do
    let (forms, log) ← passes.run roots tools.log
    return (forms, { tools with log })

structure Answered (circuit : Circuit) (reply : List Nat × Tools) (grown : Circuit) : Prop where
  extended : circuit.Extends grown
  named : ∀ id ∈ reply.1, id < grown.size
  right : reply.2.Right grown

variable {circuit : Circuit} {tools : Tools} {α : Type}

theorem lifted (right : tools.Right circuit) {step : Build α} {named : α → List Nat}
    (yields : Yields step circuit fun result grown =>
      circuit.Extends grown ∧ ∀ id ∈ named result, id < grown.size) :
    Yields ((do return named (← (step : Build α)) : StateT Tools Build (List Nat)) tools) circuit
      (Answered circuit) := by
  refine .memory_lift_bind yields ?_
  rintro result grown ⟨extended, inRange⟩
  exact .intro rfl ⟨extended, inRange, Tools.right_of_extends extended right⟩

theorem listed (right : tools.Right circuit) {step : Build (List Nat)}
    (yields : Yields step circuit fun ids grown =>
      circuit.Extends grown ∧ ∀ id ∈ ids, id < grown.size) :
    Yields ((step : StateT Tools Build (List Nat)) tools) circuit (Answered circuit) := by
  refine (Yields.memory_lift yields tools).mono ?_
  rintro ⟨ids, _⟩ grown ⟨rfl, extended, inRange⟩
  exact ⟨extended, inRange, Tools.right_of_extends extended right⟩

theorem ask_yields {answer : Circuit → Option α} {found : α} (gives : answer circuit = some found) :
    Yields (ask answer) circuit fun result grown => grown = circuit ∧ result = found :=
  .after rfl (.intro (Build.lift_eq gives circuit) ⟨rfl, rfl⟩)

theorem built (right : tools.Right circuit) {step : Build Nat} {formula : Formula}
    (yields : Yields step circuit fun id grown => circuit.Gains grown id formula) :
    Yields ((do return [← (step : Build Nat)] : StateT Tools Build (List Nat)) tools) circuit
      (Answered circuit) :=
  lifted right (yields.mono fun _ _ gains =>
    ⟨gains.extended, List.forall_mem_singleton.mpr (lt_size_of_denotes gains.denotes)⟩)

theorem asked (right : tools.Right circuit) {answer : Circuit → Option α} {found : α}
    (gives : answer circuit = some found) :
    Yields ((do
        let _ ← (ask answer : Build α)
        return [] : StateT Tools Build (List Nat)) tools) circuit (Answered circuit) := by
  refine lifted right ((ask_yields gives).mono ?_)
  rintro _ _ ⟨rfl, _⟩
  exact ⟨extends_refl _, nofun⟩

theorem replaced (right : tools.Right circuit) {grown : Circuit} {roots forms : List Nat} {log : Log}
    (replaces : circuit.Replaces grown roots forms) :
    Answered circuit (forms, { tools with log }) grown where
  extended := replaces.extended
  named := replaces.forms_in_range
  right := { Tools.right_of_extends replaces.extended right with }

theorem rewritten {σ : Type} (put : σ → Tools) {pass : Build (Nat × σ)}
    {R : Formula → Formula → Prop} {RightFor : Circuit → σ → Prop} {root : Nat}
    (yields : Yields pass circuit fun reply grown =>
      circuit.Rewrites R grown root reply.1 ∧ RightFor grown reply.2)
    (puts : ∀ grown next, circuit.Extends grown → RightFor grown next → (put next).Right grown) :
    Yields (do
        let (form, next) ← pass
        return ([form], put next)) circuit (Answered circuit) := by
  refine yields.bind ?_
  rintro reply grown ⟨rewrites, kept⟩
  exact .intro rfl ⟨rewrites.extended, List.forall_mem_singleton.mpr rewrites.form_lt_size,
    puts grown reply.2 rewrites.extended kept⟩

theorem run_answers {call : Call} (inRange : ∀ id ∈ call.nodes, id < circuit.size)
    (right : tools.Right circuit) : Yields (call.run tools) circuit (Answered circuit) := by
  have denoted : ∀ id ∈ call.nodes, ∃ formula, circuit.Denotes id formula :=
    fun id member => circuit.formula?_of_lt_size (inRange id member)
  cases call with
  | constant value => exact built right (Build.constant_yields circuit value)
  | input name => exact built right (Build.input_yields circuit name)
  | binary op a b =>
    obtain ⟨first, leftDenotes⟩ := denoted a List.mem_cons_self
    obtain ⟨second, rightDenotes⟩ := denoted b (List.mem_pair.mpr (.inr rfl))
    cases op with
    | add => exact built right (Build.add_yields leftDenotes rightDenotes)
    | mul => exact built right (Build.mul_yields leftDenotes rightDenotes)
  | shift direction operand amount =>
    obtain ⟨inner, denotes⟩ := denoted operand List.mem_cons_self
    exact built right (Build.shift_yields direction amount denotes)
  | inputs name length =>
    refine listed right ((Build.inputs_yields name length circuit).mono ?_)
    rintro ids grown ⟨extended, denote⟩
    exact ⟨extended, fun id member => lt_size_of_mem denote member⟩
  | inputRows name rows width =>
    refine lifted right ((Build.inputRows_yields name rows width circuit).mono ?_)
    rintro grid grown ⟨extended, denote⟩
    refine ⟨extended, List.forall_mem_flatten.mpr fun row present id member => ?_⟩
    obtain ⟨_, _, rowDenotes⟩ := exists_of_mem_forall₂ denote.flip present
    exact lt_size_of_mem rowDenotes member
  | children id =>
    obtain ⟨node, found⟩ := node?_of_lt_size (inRange id List.mem_cons_self)
    refine lifted right (.intro (Build.node_eq found) ⟨circuit.extends_refl, ?_⟩)
    exact fun child member => Nat.lt_trans (child_lt_of_node? found member) (lt_size_of_node? found)
  | reachable roots =>
    have rootsInRange : ∀ root ∈ roots, root < circuit.size := inRange
    obtain ⟨ids, found, _, reached⟩ := reachable?_eq rootsInRange
    refine listed right ((ask_yields found).mono ?_)
    rintro _ _ ⟨rfl, rfl⟩
    refine ⟨extends_refl _, fun id member => ?_⟩
    obtain ⟨root, isRoot, reaches⟩ := (reached id).mp member
    exact Nat.lt_of_le_of_lt reaches.le (rootsInRange root isRoot)
  | factors root =>
    obtain ⟨formula, denotes⟩ := denoted root List.mem_cons_self
    obtain ⟨operands, found, operandsDenote⟩ := chain?_denotes .mul denotes
    refine listed right ((ask_yields found).mono ?_)
    rintro _ _ ⟨rfl, rfl⟩
    exact ⟨extends_refl _, fun operand member => lt_size_of_mem operandsDenote member⟩
  | render root =>
    obtain ⟨formula, denotes⟩ := denoted root List.mem_cons_self
    have found : circuit.render? root = some formula.text := by
      rw [render?_eq, denotes]
      rfl
    exact asked right found
  | maxDepth roots =>
    obtain ⟨formulas, _, denote⟩ := exists_mapM_eq_some denoted
    exact asked right (maxDepth?_eq denote)
  | gateCount roots kinds =>
    obtain ⟨count, found⟩ := gateCount?_of_in_range inRange kinds
    exact asked right found
  | stats roots =>
    obtain ⟨figures, found⟩ := Stats.of?_of_in_range inRange
    exact asked right found
  | evaluateAll domain bound roots =>
    obtain ⟨formulas, _, denote⟩ := exists_mapM_eq_some denoted
    have start : Evaluator.Right domain bound circuit .empty := Evaluator.empty_right
    obtain ⟨reply, last, gives, _⟩ := Evaluator.evalAll_yields start denote
    exact asked right gives
  | evaluateEach domain bound roots =>
    obtain ⟨replies, last, gives, _⟩ := Evaluator.evals_exact domain bound inRange
    exact asked right gives
  | equal a b =>
    obtain ⟨first, leftDenotes⟩ := denoted a List.mem_cons_self
    obtain ⟨second, rightDenotes⟩ := denoted b (List.mem_pair.mpr (.inr rfl))
    obtain ⟨verdict, equality, gives, _, kept⟩ :=
      EqualityTable.equal_yields right.equality leftDenotes rightDenotes
    refine .after rfl (.after (Build.lift_eq gives circuit) (.intro rfl ?_))
    exact ⟨circuit.extends_refl, nofun, { right with equality := kept }⟩
  | depth root =>
    obtain ⟨formula, denotes⟩ := denoted root List.mem_cons_self
    refine (Build.depth_yields right.depths denotes).bind ?_
    rintro reply _ ⟨rfl, _, kept⟩
    exact .intro rfl ⟨extends_refl _, nofun, { right with depths := kept }⟩
  | merge root =>
    have here := inRange root List.mem_cons_self
    refine (Merger.merge_yields right.merger here).bind ?_
    rintro reply grown ⟨grows, kept, ⟨_, _, _, formDenotes, _⟩, _⟩
    exact .intro rfl ⟨grows.extended, List.forall_mem_singleton.mpr (lt_size_of_denotes formDenotes),
      { Tools.right_of_extends grows.extended right with merger := kept }⟩
  | reduce root =>
    have here := inRange root List.mem_cons_self
    exact rewritten (fun balancer => { tools with balancer })
      (Balancer.reduce_rewrites right.balancer here)
      fun _ _ extended kept => { Tools.right_of_extends extended right with balancer := kept }
  | simplify root =>
    have here := inRange root List.mem_cons_self
    exact rewritten (fun factorizer => { tools with factorizer })
      (Factorizer.simplify_yields right.factorizer here)
      fun _ _ extended kept => { Tools.right_of_extends extended right with factorizer := kept }
  | expand root =>
    have here := inRange root List.mem_cons_self
    exact rewritten (fun distributor => { tools with distributor })
      (Distributor.expand_yields right.distributor here)
      fun _ _ extended kept => { Tools.right_of_extends extended right with distributor := kept }
  | product operands =>
    refine (Rewriter.inMemory_yields (Balancer.withDepths_yields
      (Build.balancedProduct_yields right.balancer.depths inRange))).bind ?_
    rintro ⟨form, forms, memory⟩ grown ⟨rfl, _, _, balances, kept⟩
    have later := Tools.right_of_extends balances.extended right
    exact .intro rfl ⟨balances.extended, List.forall_mem_singleton.mpr balances.inRange,
      { later with balancer := ⟨later.balancer.improved, kept⟩ }⟩
  | mergeAll roots =>
    refine (Build.mergeAll_yields inRange tools.log).bind fun reply grown replaces => ?_
    exact .intro rfl (replaced right replaces)
  | reduceAll roots =>
    refine (Pipeline.reduceAll_yields inRange tools.log).bind fun reply grown replaces => ?_
    exact .intro rfl (replaced right replaces)
  | pipeline passes roots =>
    refine (Pipeline.run_yields passes inRange tools.log).bind fun reply grown replaces => ?_
    exact .intro rfl (replaced right replaces)
  | distribute root =>
    obtain ⟨formula, denotes⟩ := denoted root List.mem_cons_self
    refine lifted right ((Build.distributed?_yields denotes).mono ?_)
    rintro reply grown ⟨extended, form, _⟩
    refine ⟨extended, ?_⟩
    generalize formula.distributed? = expected at form
    cases form with
    | none => exact nofun
    | some formDenotes => exact List.forall_mem_singleton.mpr (lt_size_of_denotes formDenotes)
  | scale factor term =>
    obtain ⟨first, factorDenotes⟩ := denoted factor List.mem_cons_self
    obtain ⟨second, termDenotes⟩ := denoted term (List.mem_pair.mpr (.inr rfl))
    exact built right (Build.scaled_yields factorDenotes termDenotes)

end Call

end Circuit

end ArithCircuit
