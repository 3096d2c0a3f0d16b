import ArithCircuit.Proofs.Balance
import ArithCircuit.Proofs.Expand
import ArithCircuit.Proofs.Factor
import ArithCircuit.Proofs.Merge

set_option autoImplicit false

namespace ArithCircuit

namespace Circuit

structure SameInputs (old new : Circuit) (root form : Nat) : Prop where
  needs : ∀ name, new.Needs form name ↔ old.Needs root name
  misses : ∀ (T : Type) (domain : Domain T) (inputs : String → Option T),
    new.Misses domain inputs form ↔ old.Misses domain inputs root

structure NoNewInputs (old new : Circuit) (root form : Nat) : Prop where
  needs : ∀ name, new.Needs form name → old.Needs root name
  evaluates : ∀ (T : Type) (domain : Domain T) (inputs : String → Option T) (value : T),
    old.eval? domain inputs root = some (.ok value) →
      ∃ result, new.eval? domain inputs form = some (.ok result)

variable {R : Formula → Formula → Prop} {old new : Circuit} {root form : Nat}

theorem Rewrites.sameInputs
    (same : ∀ formula result, R formula result → ∀ name, result.Needs name ↔ formula.Needs name)
    (rewrites : old.Rewrites R new root form) : old.SameInputs new root form := by
  obtain ⟨formula, rootDenotes⟩ := old.formula?_of_lt_size rewrites.inRange
  obtain ⟨result, formDenotes, holds⟩ :=
    rewrites.relates.result_of_denotes (denotes_of_extends rewrites.extended rootDenotes)
  have needs : ∀ name, new.Needs form name ↔ old.Needs root name := by
    intro name
    rw [needs_iff formDenotes, needs_iff rootDenotes]
    exact same formula result holds name
  refine ⟨needs, fun T domain inputs => ?_⟩
  simp only [misses_iff formDenotes, misses_iff rootDenotes, needs]

theorem Rewrites.noNewInputs
    (fewer : ∀ formula result, R formula result → ∀ name, result.Needs name → formula.Needs name)
    (rewrites : old.Rewrites R new root form) : old.NoNewInputs new root form := by
  obtain ⟨formula, rootDenotes⟩ := old.formula?_of_lt_size rewrites.inRange
  obtain ⟨result, formDenotes, holds⟩ :=
    rewrites.relates.result_of_denotes (denotes_of_extends rewrites.extended rootDenotes)
  constructor
  · intro name needed
    rw [needs_iff formDenotes] at needed
    exact (needs_iff rootDenotes).mpr (fewer formula result holds name needed)
  · intro T domain inputs value evaluates
    rw [eval?_of_denotes domain inputs rootDenotes] at evaluates
    rw [eval?_of_denotes domain inputs formDenotes]
    have bound : ∀ name, result.Needs name → ∃ x, inputs name = some x := fun name needed =>
      Formula.bound_of_evaluates (Option.some.inj evaluates) (fewer formula result holds name needed)
    obtain ⟨other, resultEvaluates⟩ := Formula.evaluates_of_bound_needs bound
    exact ⟨other, congrArg some resultEvaluates⟩

end Circuit

theorem Balancer.Improves.needs_iff {formula form : Formula} (improves : Improves formula form)
    (name : String) : form.Needs name ↔ formula.Needs name :=
  ⟨improves.reduces.needs ⟨UInt64.mul_assoc, UInt64.mul_comm⟩, improves.retains name⟩

theorem Factorizer.Restates.needs_iff {formula form : Formula} (restates : Restates formula form)
    (name : String) : form.Needs name ↔ formula.Needs name :=
  ⟨restates.simplifies.needs ⟨_, Domain.words_over_semiring⟩, restates.retains name⟩

theorem Distributor.needs_of_expands {formula form : Formula} (expands : Expands formula form)
    (name : String) (needed : form.Needs name) : formula.Needs name :=
  (refines_of_expands formula form expands).needs ⟨_, Domain.words_over_semiring⟩ needed

def EveryCall {σ : Type} (pass : Nat → StateT σ Build Nat) (initial : σ)
    (gives : Circuit → Circuit → Nat → Nat → Prop) : Prop :=
  ∀ (circuit : Circuit) (state : σ), Session pass initial circuit state →
    ∀ root < circuit.size, ∃ form later grown,
      pass root state circuit = some ((form, later), grown) ∧ gives circuit grown root form

theorem merge_keeps_inputs : EveryCall Merger.merge .empty Circuit.SameInputs := by
  intro circuit merger session root inRange
  obtain ⟨⟨form, later⟩, grown, gives, grows, _, relates, _⟩ :=
    Merger.merge_yields (Merger.session_right session) inRange
  have rewrites : circuit.Rewrites Formula.Similar grown root form :=
    ⟨grows.extended, inRange, relates⟩
  exact ⟨form, later, grown, gives, rewrites.sameInputs fun _ _ similar => similar.needs_iff⟩

theorem reduce_keeps_inputs (log : Log) :
    EveryCall Balancer.reduce (Balancer.fresh log) Circuit.SameInputs := by
  intro circuit balancer session root inRange
  obtain ⟨⟨form, later⟩, grown, gives, rewrites, _⟩ :=
    Balancer.reduce_rewrites (Balancer.session_right session) inRange
  exact ⟨form, later, grown, gives, rewrites.sameInputs fun _ _ improves => improves.needs_iff⟩

theorem simplify_keeps_inputs (log : Log) :
    EveryCall Factorizer.simplify (Factorizer.fresh log) Circuit.SameInputs := by
  intro circuit factorizer session root inRange
  obtain ⟨⟨form, later⟩, grown, gives, rewrites, _⟩ :=
    Factorizer.simplify_restates (Factorizer.session_right session) inRange
  exact ⟨form, later, grown, gives, rewrites.sameInputs fun _ _ restates => restates.needs_iff⟩

theorem expand_adds_no_inputs (log : Log) :
    EveryCall Distributor.expand (Distributor.fresh log) Circuit.NoNewInputs := by
  intro circuit distributor session root inRange
  obtain ⟨⟨form, later⟩, grown, gives, rewrites, _⟩ :=
    Distributor.expand_yields (Distributor.session_right session) inRange
  exact ⟨form, later, grown, gives,
    rewrites.noNewInputs fun _ _ => Distributor.needs_of_expands⟩

theorem passes_keep_inputs (log : Log) :
    EveryCall Merger.merge .empty Circuit.SameInputs ∧
      EveryCall Balancer.reduce (Balancer.fresh log) Circuit.SameInputs ∧
      EveryCall Factorizer.simplify (Factorizer.fresh log) Circuit.SameInputs ∧
      EveryCall Distributor.expand (Distributor.fresh log) Circuit.NoNewInputs :=
  ⟨merge_keeps_inputs, reduce_keeps_inputs log, simplify_keeps_inputs log,
    expand_adds_no_inputs log⟩

theorem common_factor_sum_misses :
    ∃ form later grown,
      Factorizer.simplify 5 (Factorizer.fresh .off) Factorizer.commonFactorSum =
        some ((form, later), grown) ∧
      grown.Misses .words (List.lookup · [("a", 2), ("c", 5)]) form := by
  obtain ⟨form, later, grown, gives, same⟩ :=
    (passes_keep_inputs .off).2.2.1 _ _ (.start Factorizer.commonFactorSum) 5 (by decide)
  refine ⟨form, later, grown, gives, (same.misses UInt64 .words _).mpr ⟨"b", ?_⟩⟩
  rw [Circuit.eval?_of_denotes _ _ (show Factorizer.commonFactorSum.Denotes 5 _ from rfl)]
  rfl

end ArithCircuit
