import ArithCircuit.Proofs.Depth
import ArithCircuit.Proofs.Evaluation
import ArithCircuit.Proofs.Expand
import ArithCircuit.Proofs.Factor
import ArithCircuit.Proofs.Merge
import ArithCircuit.Proofs.WorkStack

set_option autoImplicit false

namespace ArithCircuit

theorem Circuit.ask_children {S : Type} {circuit : Circuit} {id : Nat} (inRange : id < circuit.size)
    (state : S) : (circuit.node? id).map (fun node => (node.children, state)) =
      some (circuit.children id, state) := by
  obtain ⟨node, found⟩ := node?_of_lt_size inRange
  rw [found, children_of_node? found]
  rfl

theorem contains_insert_iff {V : Type} {table : Std.HashMap Nat V} {id other : Nat} {value : V} :
    (table.insert id value).contains other = true ↔ table.contains other = true ∨ other = id := by
  rw [Std.HashMap.contains_insert, Bool.or_eq_true, beq_iff_eq, or_comm, eq_comm (a := id)]

theorem exists_of_contains {V : Type} {table : Std.HashMap Nat V} {id : Nat}
    (known : table.contains id = true) : ∃ value, table[id]? = some value :=
  ⟨_, Std.HashMap.getElem?_eq_some_getElem (Std.HashMap.contains_iff_mem.mp known)⟩

namespace DepthTable

variable {circuit : Circuit} {table : DepthTable} {root : Nat}

def loop (circuit : Circuit) : WorkLoop DepthTable where
  known table id := table.depths.contains id
  dependencies id table := (circuit.node? id).map fun node => (node.children, table)
  compute id table := (enter circuit table id).map (.ok (), ·)

theorem enter_gives {id : Nat} (inRange : id < circuit.size)
    (known : ∀ child ∈ circuit.children id, table.depths.contains child = true) :
    ∃ depth, enter circuit table id = some ⟨table.depths.insert id depth⟩ := by
  obtain ⟨node, found⟩ := Circuit.node?_of_lt_size inRange
  rw [Circuit.children_of_node? found] at known
  obtain ⟨below, looked, _⟩ := exists_mapM_eq_some fun child member =>
    exists_of_contains (known child member)
  exact ⟨gateDepth node below, by simp [enter, found, looked]⟩

theorem loop_follows (circuit : Circuit) :
    (loop circuit).Follows id (fun id table => (enter circuit table id).map (.ok (), ·))
      circuit.children (· < circuit.size) fun _ => True where
  earlier _ _ := circuit.lt_of_mem_children
  inherited _ below _ member := Nat.lt_trans (circuit.lt_of_mem_children member) below
  asks _ table inRange _ _ := ⟨table, Circuit.ask_children inRange table, trivial, rfl, fun _ => rfl⟩
  computes id table inRange _ _ known := by
    obtain ⟨depth, entered⟩ := enter_gives inRange known
    have computed : (enter circuit table id).map (Except.ok (ε := Error) (), ·) = _ :=
      congrArg (Option.map _) entered
    exact ⟨.ok (), _, computed, computed, fun _ => ⟨trivial, fun _ => contains_insert_iff⟩⟩

-- The table is arbitrary: a wrong entry is used, but it does not lead astray.
theorem depth_ends (table : DepthTable) (inRange : root < circuit.size) :
    ∃ depth next final, DepthTable.depth circuit root table = some (depth, next) ∧
      (loop circuit).Ends [root] table (.ok ()) final ∧ final.state = next := by
  obtain ⟨outcome, final, ends, works, well⟩ := (loop_follows circuit).ends inRange table trivial
  rw [WorkLoop.workAll_eq_foldlM, Option.map_eq_some_iff] at works
  obtain ⟨next, folded, same⟩ := works
  obtain ⟨rfl, rfl⟩ := Prod.mk.inj same
  obtain ⟨depth, found⟩ := exists_of_contains (well rfl).2
  refine ⟨depth, final.state, final, ?_, ends, rfl⟩
  have entered : (schedule circuit.children table.depths.contains root).foldlM (enter circuit) table =
    some final.state := folded
  simp [DepthTable.depth, entered, found]

end DepthTable

namespace Evaluator

variable {T : Type} {domain : Domain T} {inputs : String → Option T} {circuit : Circuit}
  {evaluator : Evaluator T} {root : Nat}

def loop (domain : Domain T) (inputs : String → Option T) (circuit : Circuit) :
    WorkLoop (Evaluator T) where
  known evaluator id := evaluator.values.contains id
  dependencies id evaluator := (circuit.node? id).map fun node => (node.children, evaluator)
  compute id evaluator := (compute domain inputs circuit id).run evaluator

theorem compute_gives {id : Nat} (inRange : id < circuit.size)
    (known : ∀ child ∈ circuit.children id, evaluator.values.contains child = true) :
    ∃ outcome next, (compute domain inputs circuit id).run evaluator = some (outcome, next) ∧
      (outcome = .ok () → ∀ other, next.values.contains other = true ↔
        evaluator.values.contains other = true ∨ other = id) := by
  obtain ⟨node, found⟩ := Circuit.node?_of_lt_size inRange
  have start : (get : Run T (Evaluator T)).run evaluator = some (.ok evaluator, evaluator) := rfl
  rw [Circuit.children_of_node? found] at known
  unfold compute
  rw [run_after start, run_after (run_lookup evaluator found)]
  cases node with
  | constant value => exact ⟨.ok (), _, rfl, fun _ _ => contains_insert_iff⟩
  | input name =>
    cases bound : inputs name with
    | some value => exact ⟨.ok (), _, by simp only [bound]; rfl, fun _ _ => contains_insert_iff⟩
    | none => exact ⟨.error (.missingInput name), evaluator, by simp only [bound]; rfl, nofun⟩
  | binary op left right =>
    obtain ⟨x, leftFound⟩ := exists_of_contains (known left (by simp [Node.children]))
    obtain ⟨y, rightFound⟩ := exists_of_contains (known right (by simp [Node.children]))
    exact ⟨.ok (), _, (run_after (run_lookup evaluator leftFound)).trans
      (run_after (run_lookup evaluator rightFound)), fun _ _ => contains_insert_iff⟩
  | shift direction operand amount =>
    obtain ⟨x, operandFound⟩ := exists_of_contains (known operand (by simp [Node.children]))
    exact ⟨.ok (), _, run_after (run_lookup evaluator operandFound), fun _ _ => contains_insert_iff⟩

theorem loop_follows (domain : Domain T) (inputs : String → Option T) (circuit : Circuit) :
    (loop domain inputs circuit).Follows id (fun id => (compute domain inputs circuit id).run)
      circuit.children (· < circuit.size) fun _ => True where
  earlier _ _ := circuit.lt_of_mem_children
  inherited _ below _ member := Nat.lt_trans (circuit.lt_of_mem_children member) below
  asks _ evaluator inRange _ _ :=
    ⟨evaluator, Circuit.ask_children inRange evaluator, trivial, rfl, fun _ => rfl⟩
  computes _ _ inRange _ _ known := by
    obtain ⟨outcome, next, computes, contents⟩ := compute_gives inRange known
    exact ⟨outcome, next, computes, computes, fun well => ⟨trivial, contents well⟩⟩

theorem forM_run (order : List Nat) (evaluator : Evaluator T) :
    (order.forM (compute domain inputs circuit)).run evaluator =
      WorkLoop.workAll (fun id => (compute domain inputs circuit id).run) order evaluator := by
  induction order generalizing evaluator with
  | nil => rfl
  | cons id rest ih =>
    rw [WorkLoop.workAll]
    change (compute domain inputs circuit id >>= fun _ =>
      rest.forM (compute domain inputs circuit)).run evaluator = _
    cases computes : (compute domain inputs circuit id).run evaluator with
    | none =>
      rw [ExceptT.run_bind]
      change Option.bind ((compute domain inputs circuit id).run evaluator) _ = _
      rw [computes]
      rfl
    | some reply =>
      obtain ⟨outcome, next⟩ := reply
      cases outcome with
      | error error => exact run_after_error computes
      | ok => exact (run_after computes).trans (ih next)

theorem eval_ends (domain : Domain T) (inputs : String → Option T) (evaluator : Evaluator T)
    (inRange : root < circuit.size) :
    ∃ reply next final, (eval domain inputs circuit root).run evaluator = some (reply, next) ∧
      (loop domain inputs circuit).Ends [root] evaluator (reply.map fun _ => ()) final ∧
      final.state = next := by
  obtain ⟨outcome, final, ends, works, well⟩ := (loop_follows domain inputs circuit).ends inRange
    evaluator trivial
  have start : (get : Run T (Evaluator T)).run evaluator = some (.ok evaluator, evaluator) := rfl
  change WorkLoop.workAll _ (schedule circuit.children evaluator.values.contains root) evaluator = _
    at works
  rw [← forM_run] at works
  unfold eval
  rw [run_after start]
  cases outcome with
  | error error => exact ⟨.error error, _, final, run_after_error works, ends, rfl⟩
  | ok =>
    obtain ⟨value, found⟩ := exists_of_contains (well rfl).2
    have again : (get : Run T (Evaluator T)).run final.state = some (.ok final.state, final.state) :=
      rfl
    refine ⟨.ok value, final.state, final, (run_after works).trans ?_, ends, rfl⟩
    exact (run_after again).trans (run_lookup final.state found)

end Evaluator

namespace Rewriter

variable {σ : Type} {rebuild : Forms → Nat → StateT σ Build Nat} {start : Circuit}

def stepping (rebuild : Forms → Nat → StateT σ Build Nat) (id : Nat) (state : Rewriter σ × Circuit) :
    Option (Except Error Unit × (Rewriter σ × Circuit)) :=
  (step rebuild state.1 id state.2).map (.ok (), ·)

-- The dependencies are those of the node in the circuit as it has grown so far.
def loop (rebuild : Forms → Nat → StateT σ Build Nat) : WorkLoop (Rewriter σ × Circuit) where
  known state id := state.1.forms.contains id
  dependencies id state := (state.2.node? id).map fun node => (node.children, state)
  compute := stepping rebuild

theorem workAll_stepping {order : List Nat} {rewriter : Rewriter σ} {circuit : Circuit} :
    WorkLoop.workAll (stepping rebuild) order (rewriter, circuit) =
      (order.foldlM (step rebuild) rewriter circuit).map (.ok (), ·) := by
  induction order generalizing rewriter circuit with
  | nil => rfl
  | cons id rest ih =>
    rw [WorkLoop.workAll, stepping, List.foldlM_cons]
    change _ = Option.map _ ((step rebuild rewriter id circuit).bind _)
    cases step rebuild rewriter id circuit with
    | none => rfl
    | some next => exact ih

theorem run_of_works {dependencies : Nat → List Nat} {root : Nat} {rewriter next : Rewriter σ}
    {grown : Circuit} {outcome : Except Error Unit}
    (works : WorkLoop.workAll (stepping rebuild)
      (schedule dependencies rewriter.forms.contains root) (rewriter, start) =
        some (outcome, (next, grown)))
    (well : outcome = .ok () → next.forms.contains root = true) :
    outcome = .ok () ∧ ∃ form, next.forms[root]? = some form ∧
      run dependencies rebuild root rewriter start = some ((form, next), grown) := by
  rw [workAll_stepping, Option.map_eq_some_iff] at works
  obtain ⟨reached, folded, same⟩ := works
  obtain ⟨rfl, rfl⟩ := Prod.mk.inj same
  obtain ⟨form, found⟩ := exists_of_contains (well rfl)
  obtain ⟨_, _, gives, rfl, rfl⟩ : Yields (run dependencies rebuild root rewriter) start
      fun reply after => reply = (form, next) ∧ after = grown :=
    .after folded (.after (Build.lift_eq found grown) (.intro rfl ⟨rfl, rfl⟩))
  exact ⟨rfl, form, found, gives⟩

theorem step_of_rebuilt {rewriter : Rewriter σ} {id : Nat} {circuit grown : Circuit} {form : Nat}
    {memory : σ} (gives : rebuild rewriter.forms id rewriter.memory circuit =
      some ((form, memory), grown)) :
    stepping rebuild id (rewriter, circuit) =
      some (.ok (), (⟨rewriter.forms.insert id form, memory⟩, grown)) := by
  change Option.map _ ((rebuild rewriter.forms id rewriter.memory circuit).bind _) = _
  rw [gives]
  rfl

theorem loop_follows {Inv : Circuit → Rewriter σ → Prop}
    (keeps : RebuildKeeps start start.children (· < start.size) Inv rebuild) :
    (loop rebuild).Follows id (stepping rebuild) start.children (· < start.size)
      fun state => start.Extends state.2 ∧ Inv state.2 state.1 where
  earlier _ _ := start.lt_of_mem_children
  inherited _ below _ member := Nat.lt_trans (start.lt_of_mem_children member) below
  asks id state inRange holds _ := by
    have present := Nat.lt_of_lt_of_le inRange (Circuit.size_le_of_extends holds.1)
    refine ⟨state, ?_, holds, rfl, fun _ => rfl⟩
    rw [← Circuit.children_of_extends holds.1 inRange]
    exact Circuit.ask_children present state
  computes id state inRange holds unknown known := by
    obtain ⟨rewriter, circuit⟩ := state
    obtain ⟨⟨form, memory⟩, grown, gives, further, kept⟩ := keeps circuit rewriter id holds.1 inRange
      (Forms.getElem?_of_unknown unknown)
      (fun child member => Std.HashMap.contains_iff_mem.mp (known child member)) holds.2
    have stepped := step_of_rebuilt gives
    exact ⟨.ok (), _, stepped, stepped, fun _ =>
      ⟨⟨Circuit.extends_trans holds.1 further, kept⟩, fun _ => contains_insert_iff⟩⟩

theorem run_ends {Inv : Circuit → Rewriter σ → Prop}
    (keeps : RebuildKeeps start start.children (· < start.size) Inv rebuild)
    {root : Nat} (inRange : root < start.size) {rewriter : Rewriter σ} (holds : Inv start rewriter) :
    ∃ form next grown final,
      run start.children rebuild root rewriter start = some ((form, next), grown) ∧
        (loop rebuild).Ends [root] (rewriter, start) (.ok ()) final ∧ final.state = (next, grown) := by
  obtain ⟨outcome, final, ends, works, well⟩ := (loop_follows keeps).ends inRange
    (rewriter, start) ⟨start.extends_refl, holds⟩
  obtain ⟨rfl, form, _, gives⟩ := run_of_works works fun ok => (well ok).2
  exact ⟨form, _, _, final, gives, ends, rfl⟩

end Rewriter

namespace Distributor

theorem expand_ends {log : Log} {circuit : Circuit} {distributor : Distributor}
    (session : Session expand (fresh log) circuit distributor) {root : Nat}
    (inRange : root < circuit.size) :
    ∃ form later grown final, expand root distributor circuit = some ((form, later), grown) ∧
      (Rewriter.loop rebuild).Ends [root] (distributor, circuit) (.ok ()) final ∧
      final.state.1.forms = later.forms ∧ final.state.2 = grown := by
  obtain ⟨form, next, grown, final, gives, ends, same⟩ := Rewriter.run_ends
    (rebuild_expands.keeps circuit) inRange ⟨session_right session, trivial⟩
  obtain ⟨reply, after, expands, sameForms, rfl⟩ : Yields (expand root distributor) circuit
      fun reply after => reply.2.forms = next.forms ∧ after = grown :=
    .memory_after rfl (.memory_after gives (.memory_after rfl (.intro rfl ⟨rfl, rfl⟩)))
  exact ⟨reply.1, reply.2, after, final, expands, ends, by rw [same, sameForms], by rw [same]⟩

end Distributor

namespace Factorizer

theorem simplify_ends {log : Log} {circuit : Circuit} {factorizer : Factorizer}
    (session : Session simplify (fresh log) circuit factorizer) {root : Nat}
    (inRange : root < circuit.size) :
    ∃ counted form later grown final,
      factorizer.memory.fanOut.count? circuit root = some counted ∧
      simplify root factorizer circuit = some ((form, later), grown) ∧
      (Rewriter.loop rebuild).Ends [root]
        (⟨factorizer.forms, { factorizer.memory with fanOut := counted }⟩, circuit) (.ok ()) final ∧
      final.state.1.forms = later.forms ∧ final.state.2 = grown := by
  have right := session_right session
  obtain ⟨counted, counting⟩ := factorizer.memory.fanOut.exists_count? inRange
  have ready : Right circuit ⟨factorizer.forms, { factorizer.memory with fanOut := counted }⟩ :=
    ⟨right.related, right.memory.equality, right.memory.depths⟩
  obtain ⟨form, next, grown, final, gives, ends, same⟩ := Rewriter.run_ends
    (rebuild_restates.keeps circuit) inRange
    ⟨ready.related, ready.memory⟩
  obtain ⟨reply, after, simplifies, sameForms, rfl⟩ : Yields (simplify root factorizer) circuit
      fun reply after => reply.2.forms = next.forms ∧ after = grown :=
    .memory_after (countUses_eq counting) (.memory_after rfl (.memory_after gives
      (.memory_after rfl (.intro rfl ⟨rfl, rfl⟩))))
  exact ⟨counted, reply.1, reply.2, after, final, counting, simplifies, ends, by rw [same, sameForms],
    by rw [same]⟩

end Factorizer

namespace Merger

-- The nodes come in order and are not asked for dependencies; a child without a representative would
-- leave the loop without a result.
def loop : WorkLoop (Merger × Circuit) where
  known state id := state.1.canonical.contains id
  dependencies _ state := some ([], state)
  compute id state := (mergeNode id state.1 state.2).map fun (reply, grown) =>
    (.ok (), (reply.2, grown))

theorem sweep_leads {start : Circuit} {ready : Nat → Prop} {ids : List Nat}
    (inOrder : InOrder start.children ready ids) (inRange : ∀ id ∈ ids, id < start.size)
    {merger : Merger} {circuit : Circuit} (extended : start.Extends circuit)
    (right : Right circuit merger) (known : ∀ id, ready id → id ∈ merger.canonical)
    (computed : List Nat) :
    ∃ later grown fresh, ids.forM mergeNode merger circuit = some (((), later), grown) ∧
      Leads loop.turn ⟨ids, computed, (merger, circuit)⟩ (.ok ())
        ⟨[], fresh ++ computed, (later, grown)⟩ ∧
      fresh.Sublist ids.reverse ∧ (∀ id ∈ fresh, id ∉ merger.canonical) ∧
      ∀ id, id ∈ merger.canonical ∨ id ∈ ids → id ∈ later.canonical := by
  induction inOrder generalizing merger circuit computed with
  | nil ready =>
    exact ⟨merger, circuit, [], rfl, leads_refl _ _, .slnil, by simp, by simp⟩
  | cons ready id rest first _ ih =>
    have below := inRange id List.mem_cons_self
    have children : ∀ child ∈ circuit.children id, child ∈ merger.canonical := by
      rw [Circuit.children_of_extends extended below]
      exact fun child member => known child (first child member)
    obtain ⟨⟨_, next⟩, middle, merges, grows, nextRight, contents⟩ := mergeNode_yields right
      (Nat.lt_of_lt_of_le below (Circuit.size_le_of_extends extended)) children
    have again := @ih (fun other member => inRange other (List.mem_cons_of_mem id member)) next middle
      (Circuit.extends_trans extended grows.extended) nextRight
      fun other already => (contents other).mpr (already.imp_left (known other))
    have begins : (id :: rest).forM mergeNode merger circuit = rest.forM mergeNode next middle := by
      change (mergeNode id merger circuit).bind _ = _
      rw [merges]
      rfl
    by_cases already : merger.canonical.contains id
    · cases merges.symm.trans (mergeNode_of_known already circuit)
      obtain ⟨later, grown, fresh, sweeps, leads, sublist, absent, complete⟩ := again computed
      refine ⟨later, grown, fresh, begins.trans sweeps,
        leads_turn (WorkLoop.turn_of_known already) leads, ?_, absent,
        fun other member => complete other (listed_after contents member)⟩
      rw [List.reverse_cons]
      exact sublist.trans (List.sublist_append_left _ _)
    · obtain ⟨later, grown, fresh, sweeps, leads, sublist, absent, complete⟩ := again (id :: computed)
      have turned : loop.turn ⟨id :: rest, computed, (merger, circuit)⟩ =
          some (.ok (), ⟨rest, id :: computed, (next, middle)⟩) := by
        refine WorkLoop.turn_of_ready (Bool.not_eq_true _ ▸ already) rfl (by simp) ?_
        change Option.map _ (mergeNode id merger circuit) = _
        rw [merges]
        rfl
      refine ⟨later, grown, fresh ++ [id], begins.trans sweeps, leads_turn turned ?_, ?_, ?_,
        fun other member => complete other (listed_after contents member)⟩
      · rw [List.append_assoc]
        exact leads
      · rw [List.reverse_cons]
        exact sublist.append (List.Sublist.refl _)
      · intro other member isKnown
        rcases List.mem_append.mp member with before | last
        · exact absent other before ((contents other).mpr (.inl isKnown))
        · obtain rfl := List.mem_singleton.mp last
          exact already (Std.HashMap.contains_iff_mem.mpr isKnown)

theorem merge_ends {circuit : Circuit} {merger : Merger}
    (session : Session merge .empty circuit merger) {root : Nat} (inRange : root < circuit.size) :
    ∃ ids form later grown final, circuit.reachable? [root] = some ids ∧
      merge root merger circuit = some ((form, later), grown) ∧
      loop.Ends ids (merger, circuit) (.ok ()) final ∧ final.state = (later, grown) := by
  obtain ⟨ids, swept, inOrder, once, reached⟩ := sweep_in_order inRange
  obtain ⟨later, grown, fresh, sweeps, leads, sublist, absent, complete⟩ := sweep_leads inOrder
    (fun id member => Nat.lt_of_le_of_lt ((reached id).mp member).le inRange) circuit.extends_refl
    (session_right session) (fun _ => False.elim) []
  have found := Std.HashMap.getElem?_eq_some_getElem
    (complete root (.inr ((reached root).mpr (.refl root))))
  rw [List.append_nil] at leads
  obtain ⟨reply, after, merges, rfl, rfl⟩ : Yields (merge root merger) circuit
      fun reply after => reply.2 = later ∧ after = grown :=
    .memory_after rfl (.memory_after (Yields.memory_lookup swept merger circuit)
      (.memory_after sweeps (.memory_after rfl
        ⟨_, _, Yields.memory_lookup found later grown, rfl, rfl⟩)))
  refine ⟨ids, reply.1, reply.2, after, _, swept, merges, ⟨leads, fun _ => rfl, ?_, ?_⟩, rfl⟩
  · exact sublist.nodup (List.nodup_reverse.mpr once)
  · intro id member
    rw [Bool.eq_false_iff]
    exact fun isKnown => absent id member (Std.HashMap.contains_iff_mem.mp isKnown)

end Merger

end ArithCircuit
