import ArithCircuit.Proofs.ChainCache
import ArithCircuit.Proofs.Marking
import ArithCircuit.Proofs.PairStack

set_option autoImplicit false

namespace ArithCircuit

-- Every call gives a result, and the loop behind it ends in the state that the call leaves. Depths,
-- values and verdicts may come from anywhere; the tables of a pass are those of its earlier calls.
structure Circuit.LoopsEnd (circuit : Circuit) : Prop where
  depth : ∀ (table : DepthTable) {root : Nat}, root < circuit.size → ∃ depth next final,
    DepthTable.depth circuit root table = some (depth, next) ∧
      (DepthTable.loop circuit).Ends [root] table (.ok ()) final ∧ final.state = next
  eval : ∀ {T : Type} (domain : Domain T) (inputs : String → Option T) (evaluator : Evaluator T)
    {root : Nat}, root < circuit.size → ∃ reply next final,
      (Evaluator.eval domain inputs circuit root).run evaluator = some (reply, next) ∧
        (Evaluator.loop domain inputs circuit).Ends [root] evaluator (reply.map fun _ => ()) final ∧
        final.state = next
  equal : ∀ (table : EqualityTable) {left right : Nat}, left < circuit.size → right < circuit.size →
    ∃ verdict next final, EqualityTable.equal circuit left right table = some (verdict, next) ∧
      Leads (EqualityTable.turn circuit) ⟨[(left, right)], [], table⟩ (.ok ()) final ∧
      final.stack = [] ∧ final.table = next ∧ final.table.known? left right = some verdict ∧
      final.compared.Nodup ∧ ∀ pair ∈ final.compared, pair ∉ table.verdicts
  mark : ∀ {roots : List Nat}, (∀ root ∈ roots, root < circuit.size) → ∃ marks,
    Leads circuit.marking.turn ⟨roots.reverse, unmarked roots⟩ (.ok ()) ⟨[], marks⟩ ∧
      circuit.reachable? roots = some (markedIds marks)
  scan : ∀ (fanOut : FanOut) {root : Nat}, root < circuit.size → ∃ counted final,
    fanOut.count? circuit root = some counted ∧
      Leads (FanOut.scan circuit).turn ⟨[root], fanOut⟩ (.ok ()) ⟨[], final⟩ ∧
      (∀ id, final.usesOf id = counted.usesOf id) ∧ ∀ id, id ∈ final.counted ↔ id ∈ counted.counted
  expand : ∀ {log : Log} {distributor : Distributor},
    Session Distributor.expand (Distributor.fresh log) circuit distributor →
    ∀ {root : Nat}, root < circuit.size → ∃ form later grown final,
      Distributor.expand root distributor circuit = some ((form, later), grown) ∧
        (Rewriter.loop Distributor.rebuild).Ends [root] (distributor, circuit) (.ok ()) final ∧
        final.state.1.forms = later.forms ∧ final.state.2 = grown
  simplify : ∀ {log : Log} {factorizer : Factorizer},
    Session Factorizer.simplify (Factorizer.fresh log) circuit factorizer →
    ∀ {root : Nat}, root < circuit.size → ∃ counted form later grown final,
      factorizer.memory.fanOut.count? circuit root = some counted ∧
        Factorizer.simplify root factorizer circuit = some ((form, later), grown) ∧
        (Rewriter.loop Factorizer.rebuild).Ends [root]
          (⟨factorizer.forms, { factorizer.memory with fanOut := counted }⟩, circuit) (.ok ()) final ∧
        final.state.1.forms = later.forms ∧ final.state.2 = grown
  reduce : ∀ {log : Log} {pass : Balancer.Pass}, Balancer.PassHistory log pass →
    pass.circuit = circuit → ∀ {root : Nat}, root < circuit.size → ∃ counted form later grown final,
      pass.balancer.memory.fanOut.count? circuit root = some counted ∧
        Balancer.reduce root pass.balancer circuit = some ((form, later), grown) ∧
        Balancer.loop.Ends [root] (pass.withFanOut counted) (.ok ()) final ∧
        final.state.chains.isEmpty = true ∧ final.state.balancer.forms = later.forms ∧
        final.state.circuit = grown
  merge : ∀ {merger : Merger}, Session Merger.merge .empty circuit merger →
    ∀ {root : Nat}, root < circuit.size → ∃ ids form later grown final,
      circuit.reachable? [root] = some ids ∧
        Merger.merge root merger circuit = some ((form, later), grown) ∧
        Merger.loop.Ends ids (merger, circuit) (.ok ()) final ∧ final.state = (later, grown)

theorem Circuit.loops_end (circuit : Circuit) : circuit.LoopsEnd where
  depth table _ inRange := DepthTable.depth_ends table inRange
  eval domain inputs evaluator _ inRange := Evaluator.eval_ends domain inputs evaluator inRange
  equal table _ _ leftInRange rightInRange :=
    EqualityTable.equal_ends table (.inr ⟨leftInRange, rightInRange⟩)
  mark inRange := Circuit.marking_ends inRange
  scan fanOut _ inRange := FanOut.scan_ends fanOut inRange
  expand session _ inRange := Distributor.expand_ends session inRange
  simplify session _ inRange := Factorizer.simplify_ends session inRange
  reduce history same _ inRange := by
    subst same
    exact Balancer.reduce_ends history inRange
  merge session _ inRange := Merger.merge_ends session inRange

theorem Balancer.leaning_product_reduced_twice :
    ∃ form later grown chains, reduce 5 (fresh .off) leaningProduct = some ((form, later), grown) ∧
      ∃ counted second last larger final, later.memory.fanOut.count? grown 6 = some counted ∧
        reduce 6 later grown = some ((second, last), larger) ∧
        loop.Ends [6] (Pass.withFanOut ⟨chains, later, grown⟩ counted) (.ok ()) final ∧
        final.state.chains.isEmpty = true ∧ final.state.circuit = larger := by
  have inRange : 5 < leaningProduct.size := by decide
  have start : PassHistory .off ⟨∅, fresh .off, leaningProduct⟩ := .start leaningProduct
  obtain ⟨_, form, later, grown, final, _, gives, ends, _, _, _⟩ :=
    (Circuit.loops_end leaningProduct).reduce start rfl inRange
  have history : PassHistory .off ⟨final.state.chains, later, grown⟩ :=
    .reduce start inRange gives ends.leads (ends.empty rfl)
  have session : Session reduce (fresh .off) leaningProduct (fresh .off) := .start leaningProduct
  have extended : leaningProduct.Extends grown := by
    obtain ⟨_, _, givesAlso, rewrites, _⟩ := reduce_rewrites (session_right session) inRange
    cases gives.symm.trans givesAlso
    exact rewrites.extended
  obtain ⟨counted, second, last, larger, lastFinal, counts, givesAgain, endsAgain, empty, _, same⟩ :=
    (Circuit.loops_end grown).reduce history rfl
      (Nat.lt_of_lt_of_le (show 6 < leaningProduct.size by decide) (Circuit.size_le_of_extends extended))
  exact ⟨form, later, grown, final.state.chains, gives, counted, second, last, larger, lastFinal, counts,
    givesAgain, endsAgain, empty, same⟩

end ArithCircuit
