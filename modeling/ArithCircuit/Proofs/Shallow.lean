import ArithCircuit.Proofs.Likeness
import ArithCircuit.Proofs.Pipeline

set_option autoImplicit false

namespace ArithCircuit

namespace Formula

def NoDeeper (formula form : Formula) : Prop := form.depth ≤ formula.depth

end Formula

def Circuit.Shallows (old new : Circuit) (root form : Nat) : Prop :=
  ∃ before after, old.depth? root = some before ∧ new.depth? form = some after ∧ after ≤ before

theorem Circuit.shallows_of_relates {old new : Circuit} (extended : old.Extends new)
    {root form : Nat} (inRange : root < old.size)
    (relates : new.Relates Formula.NoDeeper root form) : old.Shallows new root form := by
  obtain ⟨formula, denotes⟩ := old.formula?_of_lt_size inRange
  obtain ⟨result, formDenotes, noDeeper⟩ :=
    relates.result_of_denotes (denotes_of_extends extended denotes)
  exact ⟨formula.depth, result.depth, HasDepth.depth?_eq ⟨formula, denotes, rfl⟩,
    HasDepth.depth?_eq ⟨result, formDenotes, rfl⟩, noDeeper⟩

namespace Pipeline

variable {circuit : Circuit} {roots : List Nat}

theorem default_runPasses (roots : List Nat) :
    default.runPasses roots = reduceAll roots >>= Build.mergeAll := rfl

theorem default_runPasses_shallows (inRange : ∀ root ∈ roots, root < circuit.size) (log : Log) :
    Yields (default.runPasses roots log) circuit fun reply grown =>
      circuit.Extends grown ∧ List.Forall₂ (grown.Relates Formula.NoDeeper) roots reply.1 := by
  rw [default_runPasses]
  refine .memory_bind (reduceAll_improves inRange log) ?_
  intro reduced later middle finished
  obtain ⟨extended, improved⟩ := finished
  refine (Build.mergeAll_merges (Circuit.forms_in_range improved) later).mono ?_
  intro reply grown merged
  refine ⟨Circuit.extends_trans extended merged.extended, ?_⟩
  have kept := improved.imp fun _ _ here => here.of_extends merged.extended
  refine forall₂_trans (fun root middle form first second => ?_) kept merged.similar
  refine first.trans (fun formula between result improves similar => ?_) second
  unfold Formula.NoDeeper
  rw [← similar.depth_eq]
  exact improves.2

theorem default_run_shallows (inRange : ∀ root ∈ roots, root < circuit.size) (log : Log) :
    Yields (default.run roots log) circuit fun reply grown =>
      circuit.Extends grown ∧ List.Forall₂ (grown.Relates Formula.NoDeeper) roots reply.1 :=
  @run_of_passes circuit roots default
    (fun forms grown =>
      circuit.Extends grown ∧ List.Forall₂ (grown.Relates Formula.NoDeeper) roots forms)
    (default_runPasses_shallows inRange) inRange
    (fun _ _ finished => Circuit.forms_in_range finished.2) log

end Pipeline

theorem Balancer.depth_never_grows (log : Log) :
    (∀ {circuit : Circuit} {balancer : Balancer}, Session reduce (fresh log) circuit balancer →
      ∀ root < circuit.size, ∃ form later grown,
        reduce root balancer circuit = some ((form, later), grown) ∧
          circuit.Extends grown ∧ circuit.Shallows grown root form) ∧
    ∀ {circuit : Circuit} {roots : List Nat}, (∀ root ∈ roots, root < circuit.size) →
      ∃ forms later grown, Pipeline.default.run roots log circuit = some ((forms, later), grown) ∧
        circuit.Extends grown ∧ List.Forall₂ (circuit.Shallows grown) roots forms := by
  constructor
  · intro circuit balancer session root inRange
    obtain ⟨⟨form, later⟩, grown, gives, rewrites, _⟩ :=
      reduce_rewrites (session_right session) inRange
    exact ⟨form, later, grown, gives, rewrites.extended,
      Circuit.shallows_of_relates rewrites.extended inRange
        (rewrites.relates.mono fun _ _ improves => improves.2)⟩
  · intro circuit roots inRange
    obtain ⟨⟨forms, later⟩, grown, gives, extended, relates⟩ :=
      Pipeline.default_run_shallows inRange log
    refine ⟨forms, later, grown, gives, extended, ?_⟩
    have both := (List.forall₂_and_left roots forms).mpr ⟨inRange, relates⟩
    exact both.imp fun _ _ here => Circuit.shallows_of_relates extended here.1 here.2

theorem Balancer.leaning_product_no_deeper :
    (∃ form later grown, reduce 6 (fresh .off) leaningProduct = some ((form, later), grown) ∧
      ∃ depth, grown.depth? form = some depth ∧ depth ≤ 3) ∧
    ∃ first second later grown,
      Pipeline.default.run [6, 5] .off leaningProduct = some (([first, second], later), grown) ∧
        ∃ depth, grown.depth? second = some depth ∧ depth ≤ 2 := by
  have before : leaningProduct.depth? 6 = some 3 := Circuit.HasDepth.depth?_eq ⟨_, rfl, rfl⟩
  have beforeInner : leaningProduct.depth? 5 = some 2 := Circuit.HasDepth.depth?_eq ⟨_, rfl, rfl⟩
  constructor
  · obtain ⟨form, later, grown, gives, _, old, new, oldDepth, newDepth, noDeeper⟩ :=
      (depth_never_grows .off).1 (.start leaningProduct) 6 (by decide)
    cases before.symm.trans oldDepth
    exact ⟨form, later, grown, gives, new, newDepth, noDeeper⟩
  · obtain ⟨forms, later, grown, gives, _, shallows⟩ :=
      (depth_never_grows .off).2 (show ∀ root ∈ [6, 5], root < leaningProduct.size by decide)
    obtain _ | ⟨_, _ | ⟨⟨old, new, oldDepth, newDepth, noDeeper⟩, ⟨⟩⟩⟩ := shallows
    cases beforeInner.symm.trans oldDepth
    exact ⟨_, _, later, grown, gives, new, newDepth, noDeeper⟩

end ArithCircuit
