import ArithCircuit.GateCount
import ArithCircuit.Proofs.Depth
import ArithCircuit.Proofs.Merge

set_option autoImplicit false

namespace ArithCircuit

namespace Merger

variable {circuit : Circuit} {merger : Merger}

theorem IsRepresentative.eq_of_sorted {a b : Nat} {node other : Node}
    (aRepresents : IsRepresentative circuit merger a)
    (bRepresents : IsRepresentative circuit merger b) (aFound : circuit.node? a = some node)
    (bFound : circuit.node? b = some other) (same : node.sorted = other.sorted) : a = b := by
  obtain ⟨aNode, aAlso, aEntry⟩ := aRepresents
  obtain ⟨bNode, bAlso, bEntry⟩ := bRepresents
  cases aAlso.symm.trans aFound
  cases bAlso.symm.trans bFound
  rw [same] at aEntry
  exact Option.some.inj (aEntry.symm.trans bEntry)

theorem Right.child_represents (right : Right circuit merger) {id child : Nat} {node : Node}
    (represents : IsRepresentative circuit merger id) (found : circuit.node? id = some node)
    (member : child ∈ node.children) : IsRepresentative circuit merger child := by
  apply right.closed id represents
  rw [Circuit.children_of_node? found]
  exact member

-- The induction is on the first formula: the children of equal gates are equal representatives, in
-- one of the two pairings, and so they are the same nodes.
theorem Right.eq_of_similar (right : Right circuit merger) {a b : Nat} {first second : Formula}
    (aRepresents : IsRepresentative circuit merger a)
    (bRepresents : IsRepresentative circuit merger b) (aDenotes : circuit.Denotes a first)
    (bDenotes : circuit.Denotes b second) (similar : first.Similar second) : a = b := by
  induction first generalizing a b second with
  | constant v =>
    obtain ⟨_, aFound, ⟨⟩⟩ := Circuit.spells_of_denotes aDenotes
    cases second with
    | constant w =>
      obtain ⟨_, bFound, ⟨⟩⟩ := Circuit.spells_of_denotes bDenotes
      cases similar
      exact aRepresents.eq_of_sorted bRepresents aFound bFound rfl
    | input | binary | shift => exact similar.elim
  | input m =>
    obtain ⟨_, aFound, ⟨⟩⟩ := Circuit.spells_of_denotes aDenotes
    cases second with
    | input n =>
      obtain ⟨_, bFound, ⟨⟩⟩ := Circuit.spells_of_denotes bDenotes
      cases similar
      exact aRepresents.eq_of_sorted bRepresents aFound bFound rfl
    | constant | binary | shift => exact similar.elim
  | binary op p q ihP ihQ =>
    obtain ⟨_, aFound, aSpells⟩ := Circuit.spells_of_denotes aDenotes
    cases second with
    | binary op' p' q' =>
      obtain ⟨_, bFound, bSpells⟩ := Circuit.spells_of_denotes bDenotes
      cases aSpells with
      | @binary _ left right' _ _ pDenotes qDenotes =>
      cases bSpells with
      | @binary _ otherLeft otherRight _ _ pDenotes' qDenotes' =>
      have leftRep := right.child_represents aRepresents aFound (List.mem_cons_self)
      have rightRep := right.child_represents aRepresents aFound
        (List.mem_cons_of_mem left List.mem_cons_self)
      have leftRep' := right.child_represents bRepresents bFound (List.mem_cons_self)
      have rightRep' := right.child_represents bRepresents bFound
        (List.mem_cons_of_mem otherLeft List.mem_cons_self)
      cases similar.1
      refine aRepresents.eq_of_sorted bRepresents aFound bFound ?_
      cases similar.2 with
      | inl straight =>
        cases ihP leftRep leftRep' pDenotes pDenotes' straight.1
        cases ihQ rightRep rightRep' qDenotes qDenotes' straight.2
        rfl
      | inr crossed =>
        cases ihP leftRep rightRep' pDenotes qDenotes' crossed.1
        cases ihQ rightRep leftRep' qDenotes pDenotes' crossed.2
        simp only [Node.sorted, Nat.min_comm, Nat.max_comm]
    | constant | input | shift => exact similar.elim
  | shift direction p amount ih =>
    obtain ⟨_, aFound, aSpells⟩ := Circuit.spells_of_denotes aDenotes
    cases second with
    | shift direction' p' amount' =>
      obtain ⟨_, bFound, bSpells⟩ := Circuit.spells_of_denotes bDenotes
      cases aSpells with
      | shift _ _ pDenotes =>
      cases bSpells with
      | shift _ _ pDenotes' =>
      have operandRep := right.child_represents aRepresents aFound (List.mem_cons_self)
      have operandRep' := right.child_represents bRepresents bFound (List.mem_cons_self)
      cases similar.1.1
      cases similar.1.2
      cases ih operandRep operandRep' pDenotes pDenotes' similar.2
      exact aRepresents.eq_of_sorted bRepresents aFound bFound rfl
    | constant | input | binary => exact similar.elim

theorem Right.reached_represents (right : Right circuit merger) {root id : Nat}
    (represents : IsRepresentative circuit merger root) (reaches : circuit.Reaches root id) :
    IsRepresentative circuit merger id := by
  induction reaches with
  | refl id => exact represents
  | step member _ ih => exact ih (right.closed _ represents _ member)

theorem Right.equal?_eq (right : Right circuit merger) {a b : Nat}
    (aRepresents : IsRepresentative circuit merger a)
    (bRepresents : IsRepresentative circuit merger b) :
    circuit.equal? a b = some (decide (a = b)) := by
  obtain ⟨first, aDenotes⟩ := circuit.formula?_of_lt_size aRepresents.lt_size
  obtain ⟨second, bDenotes⟩ := circuit.formula?_of_lt_size bRepresents.lt_size
  apply Circuit.equal?_eq aDenotes bDenotes
  constructor
  · exact right.eq_of_similar aRepresents bRepresents aDenotes bDenotes
  · intro same
    cases same
    cases aDenotes.symm.trans bDenotes
    exact .refl first

theorem Right.similar_iff (right : Right circuit merger) {a b form form' : Nat}
    {first second : Formula} (aRepresented : Represents circuit merger a form)
    (bRepresented : Represents circuit merger b form') (aDenotes : circuit.Denotes a first)
    (bDenotes : circuit.Denotes b second) : first.Similar second ↔ form = form' := by
  obtain ⟨third, formDenotes, aSimilar⟩ := aRepresented.1.result_of_denotes aDenotes
  obtain ⟨fourth, formDenotes', bSimilar⟩ := bRepresented.1.result_of_denotes bDenotes
  constructor
  · intro similar
    apply right.eq_of_similar aRepresented.2 bRepresented.2 formDenotes formDenotes'
    exact aSimilar.symm.trans (similar.trans bSimilar)
  · intro same
    cases same
    cases formDenotes.symm.trans formDenotes'
    exact aSimilar.trans bSimilar.symm

end Merger

structure Circuit.Merged (old new : Circuit) (roots forms : List Nat) : Prop where
  extended : old.Extends new
  represented : ∃ merger, Merger.Right new merger ∧
    List.Forall₂ (Merger.Represents new merger) roots forms

namespace Circuit.Merged

variable {old new : Circuit} {roots forms : List Nat}

theorem similar (merged : old.Merged new roots forms) :
    List.Forall₂ (new.Relates Formula.Similar) roots forms := by
  obtain ⟨merger, _, represents⟩ := merged.represented
  exact represents.imp fun _ _ here => here.1

theorem forms_in_range (merged : old.Merged new roots forms) : ∀ form ∈ forms, form < new.size :=
  Circuit.forms_in_range merged.similar

end Circuit.Merged

theorem Circuit.gateCount?_of_in_range {circuit : Circuit} {roots : List Nat}
    (inRange : ∀ root ∈ roots, root < circuit.size) (kinds : GateSet) :
    ∃ count, circuit.gateCount? roots kinds = some count := by
  obtain ⟨ids, reached, _⟩ := reachable?_eq inRange
  exact ⟨_, by simp only [gateCount?, reached, Option.bind_eq_bind, Option.bind_some]; rfl⟩

namespace Build

theorem gateCount_yields {circuit : Circuit} {roots : List Nat}
    (inRange : ∀ root ∈ roots, root < circuit.size) :
    Yields (gateCount roots) circuit fun _ grown => grown = circuit := by
  obtain ⟨count, counted⟩ := Circuit.gateCount?_of_in_range inRange .all
  exact .after rfl (.intro (lift_eq counted circuit) rfl)

theorem mergeAll_of_passes {circuit : Circuit} {roots : List Nat} {post : List Nat → Circuit → Prop}
    (inRange : ∀ root ∈ roots, root < circuit.size)
    (passes : Yields (roots.mapM Merger.merge .empty) circuit fun reply grown => post reply.1 grown)
    (bounded : ∀ forms grown, post forms grown → ∀ form ∈ forms, form < grown.size) (log : Log) :
    Yields (mergeAll roots log) circuit fun reply grown => post reply.1 grown := by
  refine .memory_after rfl ?_
  by_cases logged : log.admits .debug
  · simp only [logged]
    refine .memory_lift_bind (gateCount_yields inRange) ?_
    rintro before _ rfl
    refine .memory_lift_bind passes ?_
    intro reply grown merged
    refine .memory_lift_bind (gateCount_yields (bounded reply.1 grown merged)) ?_
    rintro after _ rfl
    exact .memory_after rfl (.intro rfl merged)
  · simp only [logged]
    refine .memory_after rfl (.memory_lift_bind passes ?_)
    intro reply grown merged
    exact .intro rfl merged

theorem mergeAll_merges {circuit : Circuit} {roots : List Nat}
    (inRange : ∀ root ∈ roots, root < circuit.size) (log : Log) :
    Yields (mergeAll roots log) circuit fun reply grown => circuit.Merged grown roots reply.1 := by
  have passes : Yields (roots.mapM Merger.merge .empty) circuit fun reply grown =>
      circuit.Merged grown roots reply.1 := by
    refine (Merger.merges_yield (Merger.empty_right circuit) inRange).mono ?_
    intro reply grown finished
    obtain ⟨grows, right, represents⟩ := finished
    exact ⟨grows.extended, reply.2, right, represents⟩
  exact @mergeAll_of_passes circuit roots (fun forms grown => circuit.Merged grown roots forms)
    inRange passes (fun _ _ merged => merged.forms_in_range) log

theorem mergeAll_exact (log : Log) {circuit : Circuit} {roots : List Nat}
    (inRange : ∀ root ∈ roots, root < circuit.size) :
    ∃ forms later grown, mergeAll roots log circuit = some ((forms, later), grown) ∧
      circuit.Extends grown ∧
      List.Forall₂ (fun root form => grown.equal? root form = some true) roots forms ∧
      (∀ root form root' form', (root, form) ∈ roots.zip forms →
        (root', form') ∈ roots.zip forms →
          circuit.equal? root root' = some (decide (form = form'))) ∧
      ∀ id id', (∃ form ∈ forms, grown.Reaches form id) → (∃ form ∈ forms, grown.Reaches form id') →
        grown.equal? id id' = some (decide (id = id')) := by
  obtain ⟨⟨forms, later⟩, grown, gives, merged⟩ := mergeAll_merges inRange log
  obtain ⟨extended, merger, right, represented⟩ := merged
  refine ⟨forms, later, grown, gives, extended, ?_, ?_, ?_⟩
  · refine represented.imp ?_
    intro root form here
    obtain ⟨formula, result, rootDenotes, formDenotes, similar⟩ := here.1
    have verdict := Circuit.equal?_eq rootDenotes formDenotes (iff_true_intro similar)
    rwa [decide_true] at verdict
  · intro root form root' form' first second
    have here := List.forall₂_zip represented first
    have there := List.forall₂_zip represented second
    obtain ⟨formula, denotes⟩ := circuit.formula?_of_lt_size (inRange root (List.of_mem_zip first).1)
    obtain ⟨formula', denotes'⟩ :=
      circuit.formula?_of_lt_size (inRange root' (List.of_mem_zip second).1)
    exact Circuit.equal?_eq denotes denotes' (right.similar_iff here there
      (Circuit.denotes_of_extends extended denotes) (Circuit.denotes_of_extends extended denotes'))
  · have represents : ∀ id, (∃ form ∈ forms, grown.Reaches form id) →
        Merger.IsRepresentative grown merger id := by
      intro id reached
      obtain ⟨form, member, reaches⟩ := reached
      obtain ⟨root, _, _, isRepresentative⟩ := exists_of_mem_forall₂ represented member
      exact right.reached_represents isRepresentative reaches
    intro id id' reached reached'
    exact right.equal?_eq (represents id reached) (represents id' reached')

def mirroredSums : Circuit where
  nodes := #[.input "a", .input "b", .sum 0 1, .input "b", .input "a", .sum 3 4, .product 0 1]
  earlier := by decide

theorem mergeAll_mirrored_sums :
    (∀ root ∈ [2, 5, 6], root < mirroredSums.size) ∧ ∃ first second third later grown,
      mergeAll [2, 5, 6] .off mirroredSums = some (([first, second, third], later), grown) ∧
        first = second ∧ first ≠ third := by
  refine ⟨by decide, ?_⟩
  obtain ⟨forms, later, grown, gives, _, merged, agrees, _⟩ :=
    mergeAll_exact .off (show ∀ root ∈ [2, 5, 6], root < mirroredSums.size by decide)
  obtain ⟨first, second, third, rfl⟩ := List.length_eq_three.mp merged.length_eq.symm
  refine ⟨first, second, third, later, grown, gives, ?_, ?_⟩
  · have mirrored : mirroredSums.equal? 2 5 = some (decide True) :=
      Circuit.equal?_eq (show mirroredSums.Denotes 2 _ from rfl)
        (show mirroredSums.Denotes 5 _ from rfl) (by simp [Formula.Similar])
    have verdict := agrees 2 first 5 second (by simp) (by simp)
    rw [mirrored] at verdict
    simpa using verdict
  · have different : mirroredSums.equal? 2 6 = some (decide False) :=
      Circuit.equal?_eq (show mirroredSums.Denotes 2 _ from rfl)
        (show mirroredSums.Denotes 6 _ from rfl) (by simp [Formula.Similar])
    have verdict := agrees 2 first 6 third (by simp) (by simp)
    rw [different] at verdict
    simpa using verdict

end Build

end ArithCircuit
