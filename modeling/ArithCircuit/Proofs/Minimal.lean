import ArithCircuit.Proofs.Canonical
import ArithCircuit.Proofs.Likeness
import ArithCircuit.Proofs.Outputs
import Mathlib.SetTheory.Cardinal.Finite

set_option autoImplicit false

namespace ArithCircuit

theorem card_quotient_of_marks {α β : Type} (classes : Setoid α) (marks : β → α → Prop)
    (used : ∀ b, ∃ a, marks b a) (marked : ∀ a, ∃ b, marks b a)
    (same : ∀ {b b' a a'}, marks b a → marks b' a' → (b = b' ↔ classes.r a a')) :
    Nat.card (Quotient classes) = Nat.card β := by
  choose sample isSample using used
  have bijective : Function.Bijective fun b => Quotient.mk classes (sample b) := by
    constructor
    · intro b b' sameClass
      exact (same (isSample b) (isSample b')).mpr (Quotient.exact sameClass)
    · intro quotient
      obtain ⟨a, rfl⟩ := quotient.exists_rep
      obtain ⟨b, isMarked⟩ := marked a
      exact ⟨b, Quotient.sound ((same (isSample b) isMarked).mp rfl)⟩
  exact (Nat.card_eq_of_bijective _ bijective).symm

namespace Circuit

section Classes

variable {circuit : Circuit} {roots : List Nat} {kinds : GateSet}

theorem lt_size_of_isGate {id : Nat} (isGate : circuit.isGate kinds id = true) : id < circuit.size := by
  cases found : circuit.node? id with
  | none => simp [Circuit.isGate, found] at isGate
  | some node => exact lt_size_of_node? found

def GateBelow (circuit : Circuit) (roots : List Nat) (kinds : GateSet) : Type :=
  {id : Nat // circuit.Below roots id ∧ circuit.isGate kinds id = true}

theorem GateBelow.lt_size (gate : circuit.GateBelow roots kinds) : gate.val < circuit.size :=
  lt_size_of_isGate gate.property.2

instance : Finite (circuit.GateBelow roots kinds) := by
  have injective : Function.Injective fun gate : circuit.GateBelow roots kinds =>
      (⟨gate.val, gate.lt_size⟩ : Fin circuit.size) :=
    fun _ _ same => Subtype.ext (Fin.mk.inj same)
  exact Finite.of_injective _ injective

theorem gateCount?_eq_card (inRange : ∀ root ∈ roots, root < circuit.size) (kinds : GateSet) :
    circuit.gateCount? roots kinds = some (Nat.card (circuit.GateBelow roots kinds)) := by
  obtain ⟨ids, counted, once, listed⟩ := gateCount?_eq inRange kinds
  have card : Nat.card (circuit.GateBelow roots kinds) =
      (ids.filter (circuit.isGate kinds)).toFinset.card :=
    Nat.subtype_card _ fun id => by simp [listed]
  rw [counted, card, List.toFinset_card_of_nodup (once.filter _), List.countP_eq_length_filter]

def gateClasses (circuit : Circuit) (roots : List Nat) (kinds : GateSet) :
    Setoid (circuit.GateBelow roots kinds) where
  r left right := circuit.equal? left.val right.val = some true
  iseqv := by
    have decides : ∀ left right : circuit.GateBelow roots kinds,
        circuit.equal? left.val right.val = some true ↔ circuit.Alike left.val right.val :=
      fun left right => equal?_iff_alike left.lt_size right.lt_size
    simp only [decides]
    exact ⟨fun gate => .refl gate.lt_size, .symm, .trans⟩

theorem card_gateClasses_le (circuit : Circuit) (roots : List Nat) (kinds : GateSet) :
    Nat.card (Quotient (circuit.gateClasses roots kinds)) ≤
      Nat.card (circuit.GateBelow roots kinds) :=
  Nat.card_le_card_of_surjective _ Quotient.exists_rep

theorem Alike.isGate_eq {left right : Nat} (alike : circuit.Alike left right) (kinds : GateSet) :
    circuit.isGate kinds left = circuit.isGate kinds right := by
  obtain ⟨node, other, leftFound, rightFound, sameKind, _⟩ := alike.nodes
  simp only [isGate, leftFound, rightFound, Option.any_some, GateSet.admits, sameKind]

theorem Below.alike {forms : List Nat} {id : Nat} (below : circuit.Below roots id)
    (alike : List.Forall₂ circuit.Alike roots forms) :
    ∃ other, circuit.Below forms other ∧ circuit.Alike id other := by
  obtain ⟨root, member, reaches⟩ := below
  obtain ⟨form, isForm, rootAlike⟩ := exists_of_mem_forall₂ alike.flip member
  obtain ⟨other, reachesOther, idAlike⟩ := rootAlike.reaches reaches
  exact ⟨other, ⟨form, isForm, reachesOther⟩, idAlike⟩

end Classes

def Irredundant (circuit : Circuit) (roots : List Nat) : Prop :=
  ∀ left right, circuit.Below roots left → circuit.Below roots right →
    circuit.Alike left right → left = right

theorem alike_of_sorted {circuit : Circuit} {left right : Nat} {node other : Node}
    (leftFound : circuit.node? left = some node) (rightFound : circuit.node? right = some other)
    (same : node.sorted = other.sorted) : circuit.Alike left right := by
  obtain ⟨first, leftDenotes⟩ := circuit.formula?_of_lt_size (lt_size_of_node? leftFound)
  obtain ⟨second, rightDenotes⟩ := circuit.formula?_of_lt_size (lt_size_of_node? rightFound)
  have leftLayer := (formula?_of_node? leftFound).symm.trans leftDenotes
  have rightLayer := (formula?_of_node? rightFound).symm.trans rightDenotes
  exact alike_of_similar (Formula.similar_of_sorted same leftLayer rightLayer) leftDenotes
    rightDenotes

section Merged

variable {old new : Circuit} {roots forms : List Nat}

theorem gateCount?_of_irredundant (extended : old.Extends new)
    (inRange : ∀ root ∈ roots, root < old.size) (alike : List.Forall₂ new.Alike roots forms)
    (irredundant : new.Irredundant forms) (kinds : GateSet) :
    new.gateCount? forms kinds =
      some (Nat.card (Quotient (old.gateClasses roots kinds))) := by
  have formsInRange : ∀ form ∈ forms, form < new.size := by
    intro form member
    obtain ⟨_, _, rootAlike⟩ := exists_of_mem_forall₂ alike member
    exact rootAlike.inRange.2
  have alikeForms : List.Forall₂ new.Alike forms roots := alike.flip.imp fun _ _ => Alike.symm
  have older : ∀ gate : old.GateBelow roots kinds, new.isGate kinds gate.val = true := by
    intro gate
    rw [isGate_of_extends extended kinds gate.lt_size]
    exact gate.property.2
  rw [gateCount?_eq_card formsInRange, card_quotient_of_marks (old.gateClasses roots kinds)
    fun (mark : new.GateBelow forms kinds) gate => new.Alike mark.val gate.val]
  · intro mark
    obtain ⟨id, below, markAlike⟩ := mark.property.1.alike alikeForms
    obtain ⟨root, member, reaches⟩ := (exists_reaches_iff_of_extends extended inRange).mp below
    have isGate : old.isGate kinds id = true := by
      rw [← isGate_of_extends extended kinds (Nat.lt_of_le_of_lt reaches.le (inRange root member)),
        ← markAlike.isGate_eq kinds]
      exact mark.property.2
    exact ⟨⟨id, ⟨root, member, reaches⟩, isGate⟩, markAlike⟩
  · intro gate
    obtain ⟨id, below, gateAlike⟩ :=
      Below.alike ((exists_reaches_iff_of_extends extended inRange).mpr gate.property.1) alike
    have isGate : new.isGate kinds id = true := (gateAlike.isGate_eq kinds).symm.trans (older gate)
    exact ⟨⟨id, below, isGate⟩, gateAlike.symm⟩
  · intro mark mark' gate gate' markAlike markAlike'
    have decides : (old.gateClasses roots kinds).r gate gate' ↔ new.Alike gate.val gate'.val :=
      (equal?_iff_alike gate.lt_size gate'.lt_size).trans
        (alike_iff_of_extends extended gate.lt_size gate'.lt_size).symm
    rw [decides]
    constructor
    · rintro rfl
      exact markAlike.symm.trans markAlike'
    · intro gatesAlike
      apply Subtype.ext
      exact irredundant mark.val mark'.val mark.property.1 mark'.property.1
        (markAlike.trans (gatesAlike.trans markAlike'.symm))

theorem Merged.alike (merged : old.Merged new roots forms) : List.Forall₂ new.Alike roots forms :=
  merged.similar.imp fun _ _ => alike_iff_relates.mpr

theorem Merged.irredundant (merged : old.Merged new roots forms) : new.Irredundant forms := by
  obtain ⟨merger, right, represented⟩ := merged.represented
  have represents : ∀ id, new.Below forms id → Merger.IsRepresentative new merger id := by
    intro id below
    obtain ⟨form, member, reaches⟩ := below
    obtain ⟨root, _, _, isRepresentative⟩ := exists_of_mem_forall₂ represented member
    exact right.reached_represents isRepresentative reaches
  intro left other leftBelow otherBelow alike
  obtain ⟨first, second, leftDenotes, otherDenotes, similar⟩ := alike_iff_relates.mp alike
  exact right.eq_of_similar (represents left leftBelow) (represents other otherBelow) leftDenotes
    otherDenotes similar

end Merged

end Circuit

namespace Merger

variable {circuit : Circuit} {roots : List Nat} {merger : Merger}

-- A merger that has merged nothing: what it has seen represents itself.
structure Still (circuit : Circuit) (roots : List Nat) (merger : Merger) : Prop where
  canonical : ∀ id form : Nat, merger.canonical[id]? = some form → form = id
  represents : ∀ key representative, merger.representatives[key]? = some representative →
    circuit.Below roots representative ∧
      ∃ node, circuit.node? representative = some node ∧ node.sorted = key

theorem empty_still (circuit : Circuit) (roots : List Nat) : Still circuit roots .empty where
  canonical id form found := by simp [empty] at found
  represents key representative found := by simp [empty] at found

theorem represent_still (irredundant : circuit.Irredundant roots)
    (still : Still circuit roots merger) {id : Nat} {node : Node} (below : circuit.Below roots id)
    (found : circuit.node? id = some node) :
    Yields (represent id node node merger) circuit fun reply grown => grown = circuit ∧
      reply.1 = id ∧ reply.2.canonical = merger.canonical ∧ Still circuit roots reply.2 := by
  refine .memory_after rfl ?_
  cases known : merger.representatives[node.sorted]? with
  | some representative =>
    obtain ⟨alsoBelow, other, present, same⟩ := still.represents _ representative known
    have alike := Circuit.alike_of_sorted present found same
    have itself := irredundant representative id alsoBelow below alike
    exact .intro rfl ⟨rfl, itself, rfl, still⟩
  | none =>
    simp only [if_true]
    refine .memory_after rfl (.memory_after rfl (.intro rfl ⟨rfl, rfl, rfl, still.canonical, ?_⟩))
    intro key representative entry
    rcases found_in_insert entry with ⟨rfl, rfl⟩ | older
    · exact ⟨below, node, found, rfl⟩
    · exact still.represents key representative older

theorem mergeNode_still (irredundant : circuit.Irredundant roots)
    (still : Still circuit roots merger) {id : Nat} (below : circuit.Below roots id)
    (inRange : id < circuit.size) (known : ∀ child ∈ circuit.children id, child ∈ merger.canonical) :
    Yields (mergeNode id merger) circuit fun reply grown =>
      (grown = circuit ∧ Still circuit roots reply.2) ∧
        ∀ other, other ∈ reply.2.canonical ↔ other ∈ merger.canonical ∨ other = id := by
  by_cases merged : merger.canonical.contains id
  · have member := Std.HashMap.contains_iff_mem.mp merged
    exact .intro (mergeNode_of_known merged circuit) ⟨⟨rfl, still⟩, fun other =>
      (or_iff_left_of_imp fun same => same ▸ member).symm⟩
  · obtain ⟨node, found⟩ := Circuit.node?_of_lt_size inRange
    rw [Circuit.children_of_node? found] at known
    have kept : ∀ child ∈ node.children, merger.canonical[child]? = some child := by
      intro child member
      have form := Std.HashMap.getElem?_eq_some_getElem (known child member)
      rwa [still.canonical child _ form] at form
    refine mergeNode_of_unknown merged found (Node.mapChildren?_of_kept kept)
      (represent_still irredundant still below found) ?_
    rintro _ later _ ⟨rfl, rfl, sameCanonical, laterStill⟩
    refine ⟨⟨rfl, ?_, laterStill.represents⟩, fun other => ?_⟩
    · intro other form entry
      rcases found_in_insert entry with ⟨rfl, rfl⟩ | older
      · rfl
      · exact laterStill.canonical other form older
    · rw [Std.HashMap.mem_insert, sameCanonical, beq_iff_eq, or_comm, eq_comm]

theorem merge_still (irredundant : circuit.Irredundant roots) (still : Still circuit roots merger)
    {root : Nat} (member : root ∈ roots) (inRange : root < circuit.size) :
    Yields (merge root merger) circuit fun reply grown =>
      reply.1 = root ∧ grown = circuit ∧ Still circuit roots reply.2 := by
  have merges := @merge_keeps (fun current now => now = circuit ∧ Still circuit roots current)
    circuit merger root inRange ⟨rfl, still⟩ ?_
  · refine merges.mono ?_
    intro reply grown finished
    obtain ⟨⟨unchanged, laterStill⟩, found, _⟩ := finished
    exact ⟨laterStill.canonical root _ found, unchanged, laterStill⟩
  · rintro id reaches current _ ⟨rfl, currentStill⟩ known
    exact mergeNode_still irredundant currentStill ⟨root, member, reaches⟩
      (Nat.lt_of_le_of_lt reaches.le inRange) known

end Merger

namespace Build

theorem mergeAll_irredundant {circuit : Circuit} {roots : List Nat}
    (inRange : ∀ root ∈ roots, root < circuit.size) (irredundant : circuit.Irredundant roots)
    (log : Log) :
    ∃ later, mergeAll roots log circuit = some ((roots, later), circuit) := by
  have passes : Yields (roots.mapM Merger.merge .empty) circuit fun reply grown =>
      reply.1 = roots ∧ grown = circuit := by
    refine (@Yields.memory_mapM Circuit Merger Nat Nat Merger.merge (fun _ _ _ _ => True)
      (fun merger now => now = circuit ∧ Merger.Still circuit roots merger)
      (fun root form _ _ => root = form) (fun _ _ => trivial) (fun _ _ => trivial)
      (fun _ same => same) roots .empty circuit ⟨rfl, Merger.empty_still circuit roots⟩ ?_).mono ?_
    · rintro root member merger _ _ ⟨rfl, still⟩
      refine (Merger.merge_still irredundant still member (inRange root member)).mono ?_
      intro reply grown finished
      exact ⟨trivial, finished.2, finished.1.symm⟩
    · intro reply grown finished
      obtain ⟨_, ⟨unchanged, _⟩, same⟩ := finished
      rw [List.forall₂_eq_eq_eq] at same
      exact ⟨same.symm, unchanged⟩
  obtain ⟨⟨forms, later⟩, grown, gives, sameForms, unchanged⟩ :=
    @mergeAll_of_passes circuit roots (fun forms grown => forms = roots ∧ grown = circuit) inRange
      passes (fun _ _ same => same.1 ▸ same.2 ▸ inRange) log
  dsimp only at sameForms
  subst sameForms unchanged
  exact ⟨later, gives⟩

theorem mergeAll_one_gate_per_class (log : Log) {circuit : Circuit} {roots : List Nat}
    (inRange : ∀ root ∈ roots, root < circuit.size) :
    ∃ forms later grown, mergeAll roots log circuit = some ((forms, later), grown) ∧
      (∀ kinds : GateSet, ∃ before after, circuit.gateCount? roots kinds = some before ∧
        grown.gateCount? forms kinds = some after ∧
        after = Nat.card (Quotient (circuit.gateClasses roots kinds)) ∧ after ≤ before) ∧
      List.Forall₂ (fun root form => ∃ depth, circuit.depth? root = some depth ∧
        grown.depth? form = some depth) roots forms ∧
      ∀ log', ∃ later', mergeAll forms log' grown = some ((forms, later'), grown) := by
  obtain ⟨⟨forms, later⟩, grown, gives, merged⟩ := mergeAll_merges inRange log
  refine ⟨forms, later, grown, gives, fun kinds => ?_, ?_,
    mergeAll_irredundant merged.forms_in_range merged.irredundant⟩
  · exact ⟨_, _, Circuit.gateCount?_eq_card inRange kinds,
      Circuit.gateCount?_of_irredundant merged.extended inRange merged.alike merged.irredundant kinds,
      rfl, circuit.card_gateClasses_le roots kinds⟩
  · have both := (List.forall₂_and_left roots forms).mpr ⟨inRange, merged.alike⟩
    refine both.imp ?_
    rintro root form ⟨rootInRange, alike⟩
    obtain ⟨depth, before, after⟩ := alike.interchangeable.depth
    have same := (Circuit.sameAnswers_of_extends merged.extended rootInRange).depth
    exact ⟨depth, same.symm.trans before, after⟩

theorem mirroredSums_classes :
    Nat.card (Quotient (mirroredSums.gateClasses [2, 5, 6] .all)) = 2 := by
  have sums : mirroredSums.Alike 2 5 := .crossed rfl rfl (.terminals rfl rfl rfl) (.terminals rfl rfl rfl)
  have apart : ¬ mirroredSums.Alike 2 6 := by
    intro alike
    simpa [Formula.Similar] using alike.similar (show mirroredSums.Denotes 2 _ from rfl)
      (show mirroredSums.Denotes 6 _ from rfl)
  have gates : ∀ id < 7, mirroredSums.isGate .all id = true → id = 2 ∨ id = 5 ∨ id = 6 := by decide
  rw [card_quotient_of_marks (mirroredSums.gateClasses [2, 5, 6] .all)
    fun (isProduct : Bool) gate => mirroredSums.Alike (if isProduct then 6 else 2) gate.val]
  · exact (Nat.card_eq_fintype_card).trans Fintype.card_bool
  · intro isProduct
    have alike := Circuit.Alike.refl
      (show (if isProduct then 6 else 2) < mirroredSums.size by cases isProduct <;> decide)
    cases isProduct with
    | false => exact ⟨⟨2, ⟨2, by simp, .refl 2⟩, by decide⟩, alike⟩
    | true => exact ⟨⟨6, ⟨6, by simp, .refl 6⟩, by decide⟩, alike⟩
  · intro gate
    rcases gates gate.val gate.lt_size gate.property.2 with sum | mirrored | product
    · exact ⟨false, show mirroredSums.Alike 2 gate.val by rw [sum]; exact .refl (by decide)⟩
    · exact ⟨false, show mirroredSums.Alike 2 gate.val by rw [mirrored]; exact sums⟩
    · exact ⟨true, show mirroredSums.Alike 6 gate.val by rw [product]; exact .refl (by decide)⟩
  · intro isProduct isProduct' gate gate' alike alike'
    refine Iff.trans ?_ (Circuit.equal?_iff_alike gate.lt_size gate'.lt_size).symm
    constructor
    · rintro rfl
      exact alike.symm.trans alike'
    · intro gatesAlike
      have both := alike.trans (gatesAlike.trans alike'.symm)
      cases isProduct <;> cases isProduct'
      · rfl
      · exact absurd both apart
      · exact absurd both.symm apart
      · rfl

theorem mergeAll_mirrored_sums_minimal :
    (∀ root ∈ [2, 5, 6], root < mirroredSums.size) ∧ ∃ forms later grown,
      mergeAll [2, 5, 6] .off mirroredSums = some ((forms, later), grown) ∧
        grown.gateCount? forms .all = some 2 ∧
        ∃ later', mergeAll forms .off grown = some ((forms, later'), grown) := by
  refine ⟨by decide, ?_⟩
  obtain ⟨forms, later, grown, gives, counts, _, again⟩ := mergeAll_one_gate_per_class .off
    (show ∀ root ∈ [2, 5, 6], root < mirroredSums.size by decide)
  obtain ⟨_, after, _, counted, classes, _⟩ := counts .all
  rw [classes, mirroredSums_classes] at counted
  exact ⟨forms, later, grown, gives, counted, again .off⟩

end Build

end ArithCircuit
