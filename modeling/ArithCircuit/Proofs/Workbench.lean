import ArithCircuit.Proofs.Calls
import ArithCircuit.Proofs.Operators
import ArithCircuit.Proofs.Refusal

set_option autoImplicit false

namespace ArithCircuit

namespace Gadget

theorem Call.run_safe {used : Nat → Prop} {start : Workspace} {call : Call}
    (all : start.HasAll used call.wires) :
    Safe used call.run start fun outs next => next.HasAll used outs := by
  cases call with
  | equal xs ys =>
    obtain ⟨left, right⟩ := List.forall_mem_append.mp all
    exact (equal_safe left right).singleton
  | less xs ys =>
    obtain ⟨left, right⟩ := List.forall_mem_append.mp all
    exact (less_safe left right).singleton
  | select selector xs ys =>
    obtain ⟨selects, operands⟩ := List.forall_mem_cons.mp all
    obtain ⟨left, right⟩ := List.forall_mem_append.mp operands
    exact select_safe selects left right
  | sum xs ys =>
    obtain ⟨left, right⟩ := List.forall_mem_append.mp all
    exact sum_safe left right
  | weight bits => exact weight_safe all
  | weightByAdding bits => exact weightByAdding_safe all
  | sortByNetwork network elements =>
    exact (sortByNetwork_safe network (List.forall_mem_flatten.mp all)).flatten
  | sortByRank elements => exact (sortByRank_safe (List.forall_mem_flatten.mp all)).flatten
  | sortPacked elements => exact (sortPacked_safe (List.forall_mem_flatten.mp all)).flatten
  | packSlots wires slots => exact (packSlots_safe slots all).singleton

end Gadget

structure Workbench where
  workspace : Workspace
  tools : Nat × Nat → Tools

namespace Workbench

def start (log : Nat × Nat → Log) : Workbench := ⟨.start, fun place => .fresh (log place)⟩

inductive Operation : Type 1 where
  | load (nodes : List Node)
  | copy (index : Nat)
  | ask (index place : Nat) (call : Circuit.Call)
  | wire (call : Wiring.Call)
  | gadget (call : Gadget.Call)

def add (bench : Workbench) (circuit : Circuit) : Workbench :=
  { bench with workspace := ⟨bench.workspace.circuits.push circuit⟩ }

def perform (bench : Workbench) :
    Operation → Except Fault (Except Error (List Wire) × Workbench)
  | .load nodes =>
    match Circuit.ofNodes nodes with
    | .error refusal => .ok (.error refusal, bench)
    | .ok circuit => .ok (.ok [], bench.add circuit)
  | .copy index =>
    match bench.workspace.circuit? index with
    | none => .error .noSuchNode
    | some circuit => .ok (.ok [], bench.add circuit)
  | .ask index place call => do
    let ((ids, tools), workspace) ←
      Wiring.build index (call.run (bench.tools (index, place))) bench.workspace
    return (.ok (ids.map (⟨index, ·⟩)), ⟨workspace, Function.update bench.tools (index, place) tools⟩)
  | .wire call => do
    let (wires, workspace) ← call.run bench.workspace
    return (.ok wires, { bench with workspace })
  | .gadget call => do
    let (reply, workspace) ← call.run.run bench.workspace
    return (reply, { bench with workspace })

def Operation.wires : Operation → List Wire
  | load _ | copy _ => []
  | ask index _ call => call.nodes.map (⟨index, ·⟩)
  | wire call => call.wires
  | gadget call => call.wires

def Operation.circuits : Operation → List Nat
  | load _ => []
  | copy index | ask index _ _ => [index]
  | wire call => call.circuits
  | gadget call => call.wires.map Wire.circuit

structure Suits (bench : Workbench) (operation : Operation) : Prop where
  circuits : ∀ index ∈ operation.circuits, bench.workspace.Holds index
  wires : ∀ wire ∈ operation.wires, bench.workspace.Owns wire.circuit wire

inductive Leads : Workbench → Workbench → Prop where
  | refl (bench : Workbench) : Leads bench bench
  | step {first bench next : Workbench} {operation : Operation}
      {reply : Except Error (List Wire)} (before : Leads first bench)
      (performs : bench.perform operation = .ok (reply, next)) (suits : bench.Suits operation) :
      Leads first next

def Fit (bench : Workbench) : Prop :=
  ∀ index place circuit,
    (∀ held, bench.workspace.circuit? index = some held → held.Extends circuit) →
    (bench.tools (index, place)).Right circuit

theorem start_fit (log : Nat × Nat → Log) : (start log).Fit :=
  fun index place circuit _ => Tools.fresh_right (log (index, place)) circuit

variable {bench next : Workbench}

theorem fit_of_extends {workspace : Workspace} (extended : bench.workspace.Extends workspace)
    (fit : bench.Fit) : Fit { bench with workspace } := by
  intro index place circuit covers
  apply fit
  intro held here
  obtain ⟨grown, hereLater, further⟩ := extended index held here
  exact Circuit.extends_trans further (covers grown hereLater)

structure Leaves (bench : Workbench) (reply : Except Error (List Wire)) (next : Workbench) : Prop where
  extended : bench.workspace.Extends next.workspace
  fit : next.Fit
  named : ∀ wires, reply = .ok wires → ∀ wire ∈ wires, next.workspace.Owns wire.circuit wire

theorem add_leaves (fit : bench.Fit) (circuit : Circuit) :
    bench.Leaves (.ok []) (bench.add circuit) := by
  have extended : bench.workspace.Extends (bench.add circuit).workspace := by
    intro index held here
    obtain ⟨bound, _⟩ := Array.getElem?_eq_some_iff.mp here
    refine ⟨held, ?_, held.extends_refl⟩
    rw [← here]
    exact Array.getElem?_push.trans (if_neg (Nat.ne_of_lt bound))
  refine ⟨extended, fit_of_extends extended fit, ?_⟩
  rintro _ ⟨⟩ _ ⟨⟩

theorem leaves_of_extends {workspace : Workspace} {reply : Except Error (List Wire)} (fit : bench.Fit)
    (extended : bench.workspace.Extends workspace)
    (named : ∀ wires, reply = .ok wires → ∀ wire ∈ wires, workspace.Owns wire.circuit wire) :
    bench.Leaves reply { bench with workspace } :=
  ⟨extended, fit_of_extends extended fit, named⟩

theorem ask_leaves {index place : Nat} {circuit grown : Circuit} {ids : List Nat} {tools : Tools}
    (fit : bench.Fit) (held : bench.workspace.circuit? index = some circuit)
    (answered : Circuit.Call.Answered circuit (ids, tools) grown) :
    bench.Leaves (.ok (ids.map (⟨index, ·⟩)))
      ⟨bench.workspace.put index grown, Function.update bench.tools (index, place) tools⟩ := by
  have extended := Workspace.extends_put held answered.extended
  have heldLater : (bench.workspace.put index grown).circuit? index = some grown := by
    rw [Workspace.circuit?_put held, if_pos rfl]
  refine ⟨extended, ?_, ?_⟩
  · intro other another larger covers
    change (Function.update bench.tools (index, place) tools (other, another)).Right larger
    by_cases same : (other, another) = (index, place)
    · cases same
      rw [Function.update_self]
      exact Tools.right_of_extends (covers grown heldLater) answered.right
    · rw [Function.update_of_ne same]
      exact fit_of_extends extended fit other another larger covers
  · rintro _ ⟨⟩ wire member
    obtain ⟨id, present, rfl⟩ := List.mem_map.mp member
    exact ⟨rfl, grown, heldLater, answered.named id present⟩

theorem Operation.mem_circuits {operation : Operation} {wire : Wire}
    (member : wire ∈ operation.wires) : wire.circuit ∈ operation.circuits := by
  cases operation with
  | load | copy => cases member
  | ask index place call =>
    obtain ⟨_, _, rfl⟩ := List.mem_map.mp member
    exact List.mem_cons_self
  | wire call => exact call.mem_circuits member
  | gadget call => exact List.mem_map_of_mem member

theorem Suits.has {operation : Operation} (suits : bench.Suits operation) :
    bench.workspace.HasAll (· ∈ operation.circuits) operation.wires :=
  fun wire member => ⟨operation.mem_circuits member, suits.wires wire member⟩

theorem perform_leaves {operation : Operation} (fit : bench.Fit) (suits : bench.Suits operation) :
    (bench.perform operation = .error .differentCircuits ∧ Mixed (· ∈ operation.circuits)) ∨
      ∃ reply next, bench.perform operation = .ok (reply, next) ∧ bench.Leaves reply next := by
  cases operation with
  | load nodes =>
    right
    rw [perform]
    cases Circuit.ofNodes nodes with
    | error refusal =>
      exact ⟨_, _, rfl, leaves_of_extends fit bench.workspace.extends_refl nofun⟩
    | ok circuit => exact ⟨_, _, rfl, add_leaves fit circuit⟩
  | copy index =>
    right
    obtain ⟨circuit, held⟩ := suits.circuits index List.mem_cons_self
    rw [perform, held]
    exact ⟨_, _, rfl, add_leaves fit circuit⟩
  | ask index place call =>
    right
    obtain ⟨circuit, held⟩ := suits.circuits index List.mem_cons_self
    have inRange : ∀ id ∈ call.nodes, id < circuit.size := by
      intro id member
      obtain ⟨_, _, also, bound⟩ := suits.wires ⟨index, id⟩ (List.mem_map_of_mem member)
      cases held.symm.trans also
      exact bound
    have right : (bench.tools (index, place)).Right circuit := by
      apply fit
      intro other also
      cases held.symm.trans also
      exact circuit.extends_refl
    obtain ⟨⟨ids, tools⟩, grown, gives, answered⟩ := Circuit.Call.run_answers inRange right
    rw [perform, Wiring.build_eq held gives]
    exact ⟨_, _, rfl, ask_leaves fit held answered⟩
  | wire call =>
    have safe : Safe (· ∈ call.circuits) call.run bench.workspace
        fun outs next => next.HasAll (· ∈ call.circuits) outs :=
      Wiring.Call.run_safe (fun index member => ⟨member, suits.circuits index member⟩) suits.has
    obtain ⟨fault, mixed⟩ | ⟨wires, workspace, gives, extended, all⟩ := safe.wiring_ends
    · left
      rw [perform, fault]
      exact ⟨rfl, mixed⟩
    · right
      rw [perform, gives]
      refine ⟨_, _, rfl, leaves_of_extends fit extended ?_⟩
      rintro _ ⟨⟩ wire member
      exact (all wire member).2
  | gadget call =>
    obtain ⟨fault, mixed⟩ | ⟨reply, workspace, gives, extended, all⟩ :=
      (Gadget.Call.run_safe suits.has).gadget_ends
    · left
      rw [perform, fault]
      exact ⟨rfl, mixed⟩
    · right
      rw [perform, gives]
      exact ⟨_, _, rfl, leaves_of_extends fit extended fun wires answers wire member =>
        (all wires answers wire member).2⟩

theorem Leads.keeps {first : Workbench} (leads : first.Leads bench) (fit : first.Fit) :
    bench.Fit ∧ first.workspace.Extends bench.workspace := by
  induction leads with
  | refl => exact ⟨fit, first.workspace.extends_refl⟩
  | step _ performs suits ih =>
    obtain ⟨fitBefore, extended⟩ := ih
    obtain ⟨fault, _⟩ | ⟨_, _, gives, leaves⟩ := perform_leaves fitBefore suits
    · cases performs.symm.trans fault
    · cases performs.symm.trans gives
      exact ⟨leaves.fit, extended.trans leaves.extended⟩

theorem operations_keep_nodes {log : Nat × Nat → Log} {earlier now : Workbench}
    {operation : Operation} (reached : (start log).Leads earlier) (leads : earlier.Leads now)
    (suits : now.Suits operation) :
    (now.perform operation = .error .differentCircuits ∧
        ∃ i ∈ operation.circuits, ∃ j ∈ operation.circuits, i ≠ j) ∨
      ∃ reply next, now.perform operation = .ok (reply, next) ∧
        (∀ index circuit, now.workspace.circuit? index = some circuit →
          ∃ grown, next.workspace.circuit? index = some grown ∧
            circuit.toNodes <+: grown.toNodes) ∧
        (∀ index circuit, next.workspace.circuit? index = some circuit →
          ∀ id, ∀ child ∈ circuit.children id, child < id) ∧
        (∀ wires, reply = .ok wires → ∀ wire ∈ wires, ∃ circuit,
          next.workspace.circuit? wire.circuit = some circuit ∧ wire.node < circuit.size) ∧
        ∀ index circuit, earlier.workspace.circuit? index = some circuit →
          ∃ grown, next.workspace.circuit? index = some grown ∧
            ∀ id < circuit.size, circuit.SameAnswers grown id := by
  obtain ⟨fitEarlier, _⟩ := reached.keeps (start_fit log)
  obtain ⟨fit, untilNow⟩ := leads.keeps fitEarlier
  obtain ⟨fault, i, j, isFirst, isSecond, differ⟩ | ⟨reply, next, performs, leaves⟩ :=
    perform_leaves fit suits
  · exact .inl ⟨fault, i, isFirst, j, isSecond, differ⟩
  · refine .inr ⟨reply, next, performs, ?_, ?_, ?_, ?_⟩
    · intro index circuit held
      obtain ⟨grown, heldLater, extended⟩ := leaves.extended index circuit held
      exact ⟨grown, heldLater, Circuit.toNodes_prefix extended⟩
    · exact fun _ circuit _ id child member => circuit.lt_of_mem_children member
    · exact fun wires answers wire member => (leaves.named wires answers wire member).2
    · intro index circuit held
      obtain ⟨grown, heldLater, extended⟩ := untilNow.trans leaves.extended index circuit held
      exact ⟨grown, heldLater, fun id inRange => Circuit.sameAnswers_of_extends extended inRange⟩

def withProduct : Workbench := (start fun _ => .off).add Gadget.twoInputs.circuits[0]

def stoppedNetwork : Gadget.Call :=
  .sortByNetwork [(0, 1), (0, 2)] [[⟨1, 0⟩], [⟨1, 1⟩], [⟨1, 0⟩, ⟨1, 1⟩]]

theorem stoppedNetwork_keeps_nodes :
    (start fun _ => .off).perform (.load [.input "a", .input "b", .product 0 1]) =
      .ok (.ok [], withProduct) ∧
    ∃ reply next circuit grown, withProduct.perform (.gadget stoppedNetwork) = .ok (reply, next) ∧
      withProduct.workspace.circuit? 1 = some circuit ∧ next.workspace.circuit? 1 = some grown ∧
      circuit.toNodes <+: grown.toNodes ∧ circuit.SameAnswers grown 2 := by
  have loads : (start fun _ => .off).perform (.load [.input "a", .input "b", .product 0 1]) =
      .ok (.ok [], withProduct) := rfl
  have inOne : ∀ index ∈ (Operation.gadget stoppedNetwork).circuits, index = 1 := by decide
  have small : ∀ wire ∈ (Operation.gadget stoppedNetwork).wires,
      wire.circuit = 1 ∧ wire.node < 3 := by decide
  have suits : withProduct.Suits (.gadget stoppedNetwork) := by
    constructor
    · intro index member
      rw [inOne index member]
      exact ⟨_, rfl⟩
    · intro wire member
      obtain ⟨same, bound⟩ := small wire member
      rw [same]
      exact ⟨same, _, rfl, bound⟩
  obtain ⟨_, i, isFirst, j, isSecond, differ⟩ | ⟨reply, next, performs, grows, _, _, answers⟩ :=
    operations_keep_nodes (.step (.refl _) loads ⟨nofun, nofun⟩) (.refl _) suits
  · exact absurd ((inOne i isFirst).trans (inOne j isSecond).symm) differ
  obtain ⟨grown, heldLater, longer⟩ := grows 1 _ rfl
  obtain ⟨_, also, same⟩ := answers 1 _ rfl
  cases heldLater.symm.trans also
  exact ⟨loads, reply, next, _, grown, performs, rfl, heldLater, longer, same 2 (by decide)⟩

end Workbench

end ArithCircuit
