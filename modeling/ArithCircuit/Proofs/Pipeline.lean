import ArithCircuit.Pipeline.Run
import ArithCircuit.Proofs.Balance
import ArithCircuit.Proofs.Canonical
import ArithCircuit.Proofs.Expand
import ArithCircuit.Proofs.Factor

set_option autoImplicit false

namespace ArithCircuit

structure Circuit.Replaces (old new : Circuit) (roots forms : List Nat) : Prop where
  extended : old.Extends new
  relates : List.Forall₂ (new.Relates (Formula.Refines Domain.IsSemiring)) roots forms

namespace Circuit.Replaces

variable {old middle new : Circuit} {roots forms outputs : List Nat}

theorem refl (inRange : ∀ root ∈ roots, root < old.size) : old.Replaces old roots roots := by
  refine ⟨old.extends_refl, List.forall₂_same.mpr fun root member => ?_⟩
  obtain ⟨formula, denotes⟩ := old.formula?_of_lt_size (inRange root member)
  exact ⟨formula, formula, denotes, denotes, Formula.refines_congruence.refl formula⟩

theorem trans (first : old.Replaces middle roots forms) (second : middle.Replaces new forms outputs) :
    old.Replaces new roots outputs := by
  refine ⟨extends_trans first.extended second.extended, ?_⟩
  have kept := first.relates.imp fun _ _ relates => relates.of_extends second.extended
  exact forall₂_trans (fun _ _ _ start next =>
    start.trans (fun _ _ _ => Formula.Refines.trans) next) kept second.relates

theorem forms_in_range (replaces : old.Replaces new roots forms) : ∀ form ∈ forms, form < new.size :=
  Circuit.forms_in_range replaces.relates

end Circuit.Replaces

theorem Build.mapM_relates {σ : Type} {call : Nat → StateT σ Build Nat}
    (Right : Circuit → σ → Prop) (R : Formula → Formula → Prop)
    (each : ∀ circuit state root, Right circuit state → root < circuit.size →
      Yields (call root state) circuit fun reply grown =>
        circuit.Rewrites R grown root reply.1 ∧ Right grown reply.2)
    {circuit : Circuit} {state : σ} (right : Right circuit state) {roots : List Nat}
    (inRange : ∀ root ∈ roots, root < circuit.size) :
    Yields (roots.mapM call state) circuit fun reply grown =>
      circuit.Extends grown ∧ List.Forall₂ (grown.Relates R) roots reply.1 := by
  have passes := @Yields.memory_mapM Circuit σ Nat Nat call
    (fun _ circuit _ grown => circuit.Extends grown) (fun state circuit => Right circuit state)
    (fun root form _ circuit => circuit.Relates R root form) (fun _ => Circuit.extends_refl)
    Circuit.extends_trans (fun extended relates => relates.of_extends extended) roots state circuit
    right ?_
  · refine passes.mono ?_
    intro reply grown finished
    obtain ⟨extended, _, relates⟩ := finished
    exact ⟨extended, relates⟩
  · intro root member current middle extended currentRight
    have present := Nat.lt_of_lt_of_le (inRange root member) (Circuit.size_le_of_extends extended)
    refine (each middle current root currentRight present).mono ?_
    intro reply grown finished
    obtain ⟨rewrites, kept⟩ := finished
    exact ⟨rewrites.extended, kept, rewrites.relates⟩

theorem Build.mapM_rewrites {σ : Type} {call : Nat → StateT σ Build Nat}
    (Right : Circuit → σ → Prop) (R : Formula → Formula → Prop)
    (each : ∀ circuit state root, Right circuit state → root < circuit.size →
      Yields (call root state) circuit fun reply grown =>
        circuit.Rewrites R grown root reply.1 ∧ Right grown reply.2)
    (refines : ∀ formula result, R formula result →
      Formula.Refines Domain.IsSemiring formula result)
    {circuit : Circuit} {state : σ} (right : Right circuit state) {roots : List Nat}
    (inRange : ∀ root ∈ roots, root < circuit.size) :
    Yields (roots.mapM call state) circuit fun reply grown =>
      circuit.Replaces grown roots reply.1 := by
  refine (mapM_relates Right R each right inRange).mono ?_
  intro reply grown finished
  obtain ⟨extended, relates⟩ := finished
  exact ⟨extended, relates.imp fun _ _ here => here.mono refines⟩

namespace Pipeline

variable {circuit : Circuit} {roots : List Nat}

theorem expandAll_yields (inRange : ∀ root ∈ roots, root < circuit.size) (log : Log) :
    Yields (expandAll roots log) circuit fun reply grown =>
      circuit.Replaces grown roots reply.1 := by
  have passes := Build.mapM_rewrites Distributor.Right Distributor.Expands
    (fun _ _ _ right => Distributor.expand_yields right) Distributor.refines_of_expands
    (Distributor.fresh_right log circuit) inRange
  exact passes.bind fun _ _ replaces => .intro rfl replaces

theorem simplifyAll_yields (inRange : ∀ root ∈ roots, root < circuit.size) (log : Log) :
    Yields (simplifyAll roots log) circuit fun reply grown =>
      circuit.Replaces grown roots reply.1 := by
  have passes := Build.mapM_rewrites Factorizer.Right Factorizer.Simplifies
    (fun _ _ _ right => Factorizer.simplify_yields right) (fun _ _ simplifies => simplifies)
    (Factorizer.fresh_right log circuit) inRange
  exact passes.bind fun _ _ replaces => .intro rfl replaces

theorem reduceAll_improves (inRange : ∀ root ∈ roots, root < circuit.size) (log : Log) :
    Yields (reduceAll roots log) circuit fun reply grown =>
      circuit.Extends grown ∧ List.Forall₂ (grown.Relates Balancer.Improves) roots reply.1 := by
  have passes := Build.mapM_relates Balancer.Right Balancer.Improves
    (fun _ _ _ right => Balancer.reduce_rewrites right) (Balancer.fresh_right log circuit) inRange
  exact passes.bind fun _ _ improved => .intro rfl improved

theorem reduceAll_yields (inRange : ∀ root ∈ roots, root < circuit.size) (log : Log) :
    Yields (reduceAll roots log) circuit fun reply grown =>
      circuit.Replaces grown roots reply.1 := by
  refine (reduceAll_improves inRange log).mono ?_
  intro reply grown finished
  obtain ⟨extended, improved⟩ := finished
  exact ⟨extended, improved.imp fun _ _ here => here.mono Balancer.refines_of_improves⟩

end Pipeline

theorem Stats.of?_of_in_range {circuit : Circuit} {roots : List Nat}
    (inRange : ∀ root ∈ roots, root < circuit.size) :
    ∃ stats, Stats.of? circuit roots = some stats := by
  obtain ⟨formulas, _, denote⟩ := exists_mapM_eq_some fun root member =>
    circuit.formula?_of_lt_size (inRange root member)
  obtain ⟨gates, gatesCounted⟩ := Circuit.gateCount?_of_in_range inRange .arithmetic
  obtain ⟨products, productsCounted⟩ :=
    Circuit.gateCount?_of_in_range inRange (.single (.binary .mul))
  refine ⟨⟨(formulas.map Formula.depth).foldl max 0, gates, products⟩, ?_⟩
  simp [Stats.of?, Circuit.maxDepth?_eq denote, gatesCounted, productsCounted]

theorem Build.mergeAll_yields {circuit : Circuit} {roots : List Nat}
    (inRange : ∀ root ∈ roots, root < circuit.size) (log : Log) :
    Yields (mergeAll roots log) circuit fun reply grown =>
      circuit.Replaces grown roots reply.1 := by
  refine (mergeAll_merges inRange log).mono ?_
  intro reply grown merged
  exact ⟨merged.extended, merged.similar.imp fun _ _ here => here.mono fun _ _ => Formula.Similar.refines⟩

namespace Pipeline

variable {circuit : Circuit} {roots : List Nat}

def stage (enabled : Bool) (pass : List Nat → StateT Log Build (List Nat)) (roots : List Nat) :
    StateT Log Build (List Nat) :=
  if enabled then pass roots else pure roots

theorem runPasses_eq (pipeline : Pipeline) (roots : List Nat) :
    pipeline.runPasses roots = (do
      let expanded ← stage pipeline.expand expandAll roots
      let simplified ← stage pipeline.simplify simplifyAll expanded
      let reduced ← stage pipeline.reduceDepth reduceAll simplified
      stage pipeline.dedup Build.mergeAll reduced) := by
  obtain ⟨expand, simplify, reduceDepth, dedup⟩ := pipeline
  cases expand <;> cases simplify <;> cases reduceDepth <;> rfl

theorem stage_yields {pass : List Nat → StateT Log Build (List Nat)}
    (yields : ∀ circuit roots log, (∀ root ∈ roots, root < Circuit.size circuit) →
      Yields (pass roots log) circuit fun reply grown => circuit.Replaces grown roots reply.1)
    (enabled : Bool) (inRange : ∀ root ∈ roots, root < circuit.size) (log : Log) :
    Yields (stage enabled pass roots log) circuit fun reply grown =>
      circuit.Replaces grown roots reply.1 := by
  cases enabled with
  | true => exact yields circuit roots log inRange
  | false => exact .intro rfl (.refl inRange)

theorem runPasses_yields (pipeline : Pipeline) (inRange : ∀ root ∈ roots, root < circuit.size)
    (log : Log) :
    Yields (pipeline.runPasses roots log) circuit fun reply grown =>
      circuit.Replaces grown roots reply.1 := by
  rw [runPasses_eq]
  refine .memory_bind (stage_yields (fun _ _ log holds => expandAll_yields holds log) _ inRange log) ?_
  intro expanded log₁ grown₁ first
  refine .memory_bind (stage_yields (fun _ _ log holds => simplifyAll_yields holds log) _
    first.forms_in_range log₁) ?_
  intro simplified log₂ grown₂ second
  have twice := first.trans second
  refine .memory_bind (stage_yields (fun _ _ log holds => reduceAll_yields holds log) _
    twice.forms_in_range log₂) ?_
  intro reduced log₃ grown₃ third
  have thrice := twice.trans third
  refine (stage_yields (fun _ _ log holds => Build.mergeAll_yields holds log) _
    thrice.forms_in_range log₃).mono ?_
  intro reply grown last
  exact thrice.trans last

theorem stats_yields (inRange : ∀ root ∈ roots, root < circuit.size) :
    Yields (stats roots) circuit fun _ grown => grown = circuit := by
  obtain ⟨figures, found⟩ := Stats.of?_of_in_range inRange
  exact .after rfl (.intro (Build.lift_eq found circuit) rfl)

theorem run_of_passes {pipeline : Pipeline} {post : List Nat → Circuit → Prop}
    (passes : ∀ log, Yields (pipeline.runPasses roots log) circuit fun reply grown =>
      post reply.1 grown)
    (inRange : ∀ root ∈ roots, root < circuit.size)
    (formsInRange : ∀ forms grown, post forms grown → ∀ form ∈ forms, form < grown.size) (log : Log) :
    Yields (pipeline.run roots log) circuit fun reply grown => post reply.1 grown := by
  refine .memory_after rfl ?_
  by_cases logged : log.admits .debug
  · simp only [logged]
    refine .memory_lift_bind (stats_yields inRange) ?_
    rintro before _ rfl
    refine .memory_bind (passes _) ?_
    intro forms later grown holds
    refine .memory_lift_bind (stats_yields (formsInRange forms grown holds)) ?_
    rintro after _ rfl
    exact .memory_after rfl (.intro rfl holds)
  · simp only [logged]
    exact passes log

theorem run_yields (pipeline : Pipeline) (inRange : ∀ root ∈ roots, root < circuit.size)
    (log : Log) :
    Yields (pipeline.run roots log) circuit fun reply grown =>
      circuit.Replaces grown roots reply.1 :=
  @run_of_passes circuit roots pipeline (fun forms grown => circuit.Replaces grown roots forms)
    (runPasses_yields pipeline inRange) inRange (fun _ _ replaces => replaces.forms_in_range) log

theorem run_preserves_values (pipeline : Pipeline) (log : Log)
    (inRange : ∀ root ∈ roots, root < circuit.size) :
    ∃ forms later grown, pipeline.run roots log circuit = some ((forms, later), grown) ∧
      circuit.Extends grown ∧ forms.length = roots.length ∧
      List.Forall₂ (fun root form =>
        ∀ (T : Type) [CommSemiring T] (domain : Domain T), domain.OverSemiring → ∀ inputs value,
          circuit.eval? domain inputs root = some (.ok value) →
            grown.eval? domain inputs form = some (.ok value) ∧
              grown.eval? domain inputs root = some (.ok value)) roots forms := by
  obtain ⟨⟨forms, later⟩, grown, gives, extended, relates⟩ := run_yields pipeline inRange log
  refine ⟨forms, later, grown, gives, extended, relates.length_eq.symm, ?_⟩
  have both := (List.forall₂_and_left roots forms).mpr ⟨inRange, relates⟩
  refine both.imp ?_
  intro root form here T semiring domain laws inputs value evaluates
  obtain ⟨rootInRange, relates⟩ := here
  have rewrites : circuit.Rewrites (Formula.Refines Domain.IsSemiring) grown root form :=
    ⟨extended, rootInRange, relates⟩
  refine ⟨rewrites.preserves ⟨semiring, laws⟩ evaluates, ?_⟩
  rw [Circuit.eval?_of_extends domain inputs extended rootInRange]
  exact evaluates

theorem run_common_factor_sum :
    ∃ first second third later grown,
      run ⟨true, true, true, true⟩ [5, 3, 5] .off Factorizer.commonFactorSum =
        some (([first, second, third], later), grown) ∧
      [first, second, third].map
        (grown.eval? .words (List.lookup · [("a", 2), ("b", 3), ("c", 5)])) =
        [some (.ok 21), some (.ok 6), some (.ok 21)] := by
  have evaluates : [5, 3, 5].map (Factorizer.commonFactorSum.eval? .words
      (List.lookup · [("a", 2), ("b", 3), ("c", 5)])) =
      [some (.ok 21), some (.ok 6), some (.ok 21)] := by
    simp only [List.map_cons, List.map_nil]
    rw [Circuit.eval?_of_denotes _ _ (show Factorizer.commonFactorSum.Denotes 5 _ from rfl),
      Circuit.eval?_of_denotes _ _ (show Factorizer.commonFactorSum.Denotes 3 _ from rfl)]
    rfl
  simp only [List.map_cons, List.map_nil, List.cons.injEq, and_true] at evaluates
  obtain ⟨atFirst, atSecond, atThird⟩ := evaluates
  obtain ⟨forms, later, grown, gives, _, _, preserved⟩ :=
    @run_preserves_values Factorizer.commonFactorSum [5, 3, 5] ⟨true, true, true, true⟩ .off
      (by decide)
  obtain _ | ⟨first, _ | ⟨second, _ | ⟨third, ⟨⟩⟩⟩⟩ := preserved
  have words := @Domain.words_over_semiring
  refine ⟨_, _, _, later, grown, gives, ?_⟩
  simp only [List.map_cons, List.map_nil, List.cons.injEq, and_true]
  exact ⟨(@first UInt64 UInt64.instCommRing.toCommSemiring .words words _ _ atFirst).1,
    (@second UInt64 UInt64.instCommRing.toCommSemiring .words words _ _ atSecond).1,
    (@third UInt64 UInt64.instCommRing.toCommSemiring .words words _ _ atThird).1⟩

end Pipeline

end ArithCircuit
