import ArithCircuit.Proofs.Reachable
import ArithCircuit.Proofs.Rewriting
import ArithCircuit.Rewrite.Merge

set_option autoImplicit false

namespace ArithCircuit

theorem Node.eq_or_swapped_of_sorted {node other : Node} (same : node.sorted = other.sorted) :
    node = other ∨ ∃ op a b, node = .binary op a b ∧ other = .binary op b a := by
  cases node with
  | constant | input | shift =>
    cases other with
    | binary => cases same
    | constant | input | shift => exact .inl same
  | binary op a b =>
    cases other with
    | constant | input | shift => cases same
    | binary op' c d =>
      simp only [sorted, binary.injEq] at same
      obtain ⟨rfl, least, greatest⟩ := same
      by_cases straight : a = c
      · have alsoStraight : b = d := by omega
        exact .inl (by rw [straight, alsoStraight])
      · have left : a = d := by omega
        have right : b = c := by omega
        exact .inr ⟨op, a, b, rfl, by rw [left, right]⟩

theorem Formula.similar_of_sorted {operand? : Nat → Option Formula} {node other : Node}
    {formula result : Formula} (same : node.sorted = other.sorted)
    (layer : ofNode? operand? node = some formula)
    (otherLayer : ofNode? operand? other = some result) : formula.Similar result := by
  cases Node.eq_or_swapped_of_sorted same with
  | inl equal =>
    subst equal
    obtain rfl := Option.some.inj (layer.symm.trans otherLayer)
    exact .refl formula
  | inr swapped =>
    obtain ⟨op, a, b, rfl, rfl⟩ := swapped
    obtain ⟨first, aLayer, rest⟩ := Option.bind_eq_some_iff.mp layer
    obtain ⟨second, bLayer, rfl⟩ := Option.map_eq_some_iff.mp rest
    obtain ⟨third, bAlso, rest'⟩ := Option.bind_eq_some_iff.mp otherLayer
    obtain ⟨fourth, aAlso, rfl⟩ := Option.map_eq_some_iff.mp rest'
    obtain rfl := Option.some.inj (aLayer.symm.trans aAlso)
    obtain rfl := Option.some.inj (bLayer.symm.trans bAlso)
    exact ⟨rfl, .inr ⟨.refl first, .refl second⟩⟩

theorem Node.exists_of_mem_children_mapChildren? {f : Nat → Option Nat} {node new : Node}
    (mapped : node.mapChildren? f = some new) {child : Nat} (member : child ∈ new.children) :
    ∃ old ∈ node.children, f old = some child := by
  cases node with
  | constant value =>
    cases mapped
    cases member
  | input name =>
    cases mapped
    cases member
  | binary op left right =>
    obtain ⟨newLeft, leftFound, rest⟩ := Option.bind_eq_some_iff.mp mapped
    obtain ⟨newRight, rightFound, same⟩ := Option.bind_eq_some_iff.mp rest
    cases same
    cases List.mem_pair.mp member with
    | inl first => exact ⟨left, by simp [children], first ▸ leftFound⟩
    | inr second => exact ⟨right, by simp [children], second ▸ rightFound⟩
  | shift direction operand amount =>
    obtain ⟨newOperand, found, same⟩ := Option.bind_eq_some_iff.mp mapped
    cases same
    cases List.mem_singleton.mp member
    exact ⟨operand, by simp [children], found⟩

namespace Merger

-- A node that the merger finds under its own gate, and so gives for every node of its class.
def IsRepresentative (circuit : Circuit) (merger : Merger) (id : Nat) : Prop :=
  ∃ node, circuit.node? id = some node ∧ merger.representatives[node.sorted]? = some id

structure Right (circuit : Circuit) (merger : Merger) : Prop where
  related : Forms.Related Formula.Similar circuit merger.canonical
  represents : ∀ key representative, merger.representatives[key]? = some representative →
    ∃ node, circuit.node? representative = some node ∧ node.sorted = key
  canonical : ∀ id form : Nat, merger.canonical[id]? = some form →
    IsRepresentative circuit merger form
  closed : ∀ id, IsRepresentative circuit merger id →
    ∀ child ∈ circuit.children id, IsRepresentative circuit merger child

structure Grows (merger : Merger) (circuit : Circuit) (later : Merger) (grown : Circuit) : Prop where
  extended : circuit.Extends grown
  kept : ∀ id, IsRepresentative circuit merger id → IsRepresentative grown later id

theorem Grows.refl (merger : Merger) (circuit : Circuit) : Grows merger circuit merger circuit :=
  ⟨circuit.extends_refl, fun _ isRepresentative => isRepresentative⟩

theorem Grows.trans {first second third : Merger} {old middle new : Circuit}
    (start : Grows first old second middle) (next : Grows second middle third new) :
    Grows first old third new :=
  ⟨Circuit.extends_trans start.extended next.extended,
    fun id isRepresentative => next.kept id (start.kept id isRepresentative)⟩

theorem empty_right (circuit : Circuit) : Right circuit .empty where
  related := Forms.empty_related circuit
  represents key representative found := by simp [empty] at found
  canonical id form found := by simp [empty] at found
  closed := by
    intro id isRepresentative
    obtain ⟨node, _, found⟩ := isRepresentative
    simp [empty] at found

theorem Right.represents_itself {circuit : Circuit} {merger : Merger} (right : Right circuit merger)
    {key : Node} {representative : Nat}
    (found : merger.representatives[key]? = some representative) :
    IsRepresentative circuit merger representative := by
  obtain ⟨node, present, same⟩ := right.represents key representative found
  exact ⟨node, present, same ▸ found⟩

theorem right_of_extends {old new : Circuit} {merger : Merger} (extended : old.Extends new)
    (right : Right old merger) : Right new merger where
  related := Forms.related_of_extends extended right.related
  represents := by
    intro key representative found
    obtain ⟨node, present, same⟩ := right.represents key representative found
    exact ⟨node, extended representative node present, same⟩
  canonical := by
    intro id form found
    obtain ⟨node, present, entry⟩ := right.canonical id form found
    exact ⟨node, extended form node present, entry⟩
  closed := by
    intro id isRepresentative child member
    obtain ⟨_, _, found⟩ := isRepresentative
    obtain ⟨node, present, entry⟩ := right.represents_itself found
    rw [Circuit.children_of_extends extended (Circuit.lt_size_of_node? present)] at member
    obtain ⟨below, older, childEntry⟩ := right.closed id ⟨node, present, entry⟩ child member
    exact ⟨below, extended child below older, childEntry⟩

theorem IsRepresentative.lt_size {circuit : Circuit} {merger : Merger} {id : Nat}
    (isRepresentative : IsRepresentative circuit merger id) : id < circuit.size := by
  obtain ⟨node, present, _⟩ := isRepresentative
  exact Circuit.lt_size_of_node? present

section Entering

variable {circuit grown : Circuit} {merger : Merger} {rebuilt : Node} {representative : Nat}

def entered (merger : Merger) (rebuilt : Node) (representative : Nat) : Merger :=
  { merger with
    representatives := merger.representatives.insert rebuilt.sorted representative }

theorem entered_grows (extended : circuit.Extends grown)
    (unknown : merger.representatives[rebuilt.sorted]? = none) :
    Grows merger circuit (merger.entered rebuilt representative) grown := by
  refine ⟨extended, ?_⟩
  intro id isRepresentative
  obtain ⟨node, present, found⟩ := isRepresentative
  exact ⟨node, extended id node present, insert_of_absent unknown found⟩

theorem entered_represents (present : grown.node? representative = some rebuilt) :
    IsRepresentative grown (merger.entered rebuilt representative) representative :=
  ⟨rebuilt, present, Std.HashMap.getElem?_insert_self⟩

theorem entered_right (right : Right circuit merger) (extended : circuit.Extends grown)
    (unknown : merger.representatives[rebuilt.sorted]? = none)
    (present : grown.node? representative = some rebuilt)
    (children : ∀ child ∈ rebuilt.children, IsRepresentative circuit merger child) :
    Right grown (merger.entered rebuilt representative) where
  related := Forms.related_of_extends extended right.related
  represents := by
    intro key other found
    rcases found_in_insert found with ⟨rfl, rfl⟩ | entry
    · exact ⟨rebuilt, present, rfl⟩
    · obtain ⟨node, older, sorted⟩ := right.represents key other entry
      exact ⟨node, extended other node older, sorted⟩
  canonical id form found :=
    (entered_grows extended unknown).kept form (right.canonical id form found)
  closed := by
    have grows : Grows merger circuit (merger.entered rebuilt representative) grown :=
      entered_grows extended unknown
    intro id isRepresentative child member
    obtain ⟨node, found, entry⟩ := isRepresentative
    rcases found_in_insert entry with ⟨_, rfl⟩ | entry
    · rw [Circuit.children_of_node? present] at member
      exact grows.kept child (children child member)
    · have older := right.represents_itself entry
      rw [Circuit.children_of_extends extended older.lt_size] at member
      exact grows.kept child (right.closed id older child member)

end Entering

theorem represent_yields {circuit : Circuit} {merger : Merger} (right : Right circuit merger)
    {id : Nat} {old rebuilt : Node} (found : circuit.node? id = some old) {formula : Formula}
    (layer : Formula.ofNode? circuit.formula? rebuilt = some formula)
    (children : ∀ child ∈ rebuilt.children, IsRepresentative circuit merger child) :
    Yields (represent id old rebuilt merger) circuit fun reply grown =>
      Grows merger circuit reply.2 grown ∧ Right grown reply.2 ∧
        reply.2.canonical = merger.canonical ∧ IsRepresentative grown reply.2 reply.1 ∧
        ∃ result, grown.Denotes reply.1 result ∧ formula.Similar result := by
  refine .memory_after rfl ?_
  cases known : merger.representatives[rebuilt.sorted]? with
  | some representative =>
    obtain ⟨node, present, same⟩ := right.represents _ representative known
    obtain ⟨result, denotes⟩ := circuit.formula?_of_lt_size (Circuit.lt_size_of_node? present)
    have nodeLayer := (Circuit.formula?_of_node? present).symm.trans denotes
    exact .intro rfl ⟨.refl merger circuit, right, rfl, right.represents_itself known, result,
      denotes, Formula.similar_of_sorted same.symm layer nodeLayer⟩
  | none =>
    by_cases unchanged : rebuilt = old
    · simp only [if_pos unchanged]
      subst unchanged
      have extended := circuit.extends_refl
      exact .memory_after rfl (.memory_after rfl (.intro rfl ⟨entered_grows extended known,
        entered_right right extended known found children, rfl, entered_represents found, formula,
        (Circuit.formula?_of_node? found).trans layer, .refl formula⟩))
    · simp only [if_neg unchanged]
      refine .memory_lift_bind (Build.append_yields layer) ?_
      intro representative grown finished
      obtain ⟨_, present, gains⟩ := finished
      exact .memory_after rfl (.intro rfl ⟨entered_grows gains.extended known,
        entered_right right gains.extended known present children, rfl, entered_represents present,
        formula, gains.denotes, .refl formula⟩)

theorem mergeNode_of_known {merger : Merger} {id : Nat} (known : merger.canonical.contains id = true)
    (circuit : Circuit) : mergeNode id merger circuit = some (((), merger), circuit) := by
  obtain ⟨_, _, gives, rfl, rfl⟩ : Yields (mergeNode id merger) circuit
      fun reply grown => reply = ((), merger) ∧ grown = circuit := by
    refine .memory_after rfl ?_
    simp only [known]
    exact .intro rfl ⟨rfl, rfl⟩
  exact gives

theorem mergeNode_of_unknown {circuit : Circuit} {merger : Merger} {id : Nat} {old rebuilt : Node}
    {middle : Nat × Merger → Circuit → Prop} {post : Unit × Merger → Circuit → Prop}
    (unknown : ¬merger.canonical.contains id = true) (found : circuit.node? id = some old)
    (mapped : old.mapChildren? (fun child => merger.canonical[child]?) = some rebuilt)
    (represented : Yields (represent id old rebuilt merger) circuit middle)
    (enters : ∀ representative later grown, middle (representative, later) grown →
      post ((), { later with canonical := later.canonical.insert id representative }) grown) :
    Yields (mergeNode id merger) circuit post := by
  refine .memory_after rfl ?_
  simp only [unknown]
  refine .memory_after (Build.memory_node_eq found merger) ?_
  refine .memory_after (Yields.memory_lookup mapped merger circuit) ?_
  exact .memory_bind represented fun representative later grown finished =>
    .intro rfl (enters representative later grown finished)

theorem mergeNode_yields {circuit : Circuit} {merger : Merger} (right : Right circuit merger)
    {id : Nat} (inRange : id < circuit.size)
    (known : ∀ child ∈ circuit.children id, child ∈ merger.canonical) :
    Yields (mergeNode id merger) circuit fun reply grown =>
      Grows merger circuit reply.2 grown ∧ Right grown reply.2 ∧
        ∀ other, other ∈ reply.2.canonical ↔ other ∈ merger.canonical ∨ other = id := by
  by_cases merged : merger.canonical.contains id
  · have member := Std.HashMap.contains_iff_mem.mp merged
    exact .intro (mergeNode_of_known merged circuit) ⟨.refl merger circuit, right, fun other =>
      (or_iff_left_of_imp fun same => same ▸ member).symm⟩
  · obtain ⟨old, found⟩ := Circuit.node?_of_lt_size inRange
    obtain ⟨formula, denotes⟩ := circuit.formula?_of_lt_size inRange
    obtain ⟨rebuilt, result, mapped, layer, similar⟩ :=
      right.related.mapChildren? found denotes known
    have children : ∀ child ∈ rebuilt.children, IsRepresentative circuit merger child := by
      intro child member
      obtain ⟨previous, _, form⟩ := Node.exists_of_mem_children_mapChildren? mapped member
      exact right.canonical previous child form
    refine mergeNode_of_unknown merged found mapped (represent_yields right found layer children) ?_
    intro representative later grown finished
    obtain ⟨grows, laterRight, sameCanonical, isRepresentative, final, formDenotes, alike⟩ := finished
    have relates : grown.Relates Formula.Similar id representative :=
      ⟨formula, final, Circuit.denotes_of_extends grows.extended denotes, formDenotes,
        (Formula.similar_congruence similar).trans alike⟩
    refine ⟨⟨grows.extended, grows.kept⟩, ⟨Forms.insert_related laterRight.related relates,
      laterRight.represents, ?_, laterRight.closed⟩, ?_⟩
    · intro other form entry
      rcases found_in_insert entry with ⟨rfl, rfl⟩ | older
      · exact isRepresentative
      · exact laterRight.canonical other form older
    · intro other
      rw [Std.HashMap.mem_insert, sameCanonical, beq_iff_eq, or_comm, eq_comm]

theorem listed_after {merger next : Merger} {id : Nat} {rest : List Nat}
    (contents : ∀ other, other ∈ next.canonical ↔ other ∈ merger.canonical ∨ other = id) {other : Nat}
    (member : other ∈ merger.canonical ∨ other ∈ id :: rest) :
    other ∈ next.canonical ∨ other ∈ rest := by
  rw [contents other, or_assoc, ← List.mem_cons]
  exact member

theorem mergeNodes_keep {Inv : Merger → Circuit → Prop} {start circuit : Circuit}
    {ready : Nat → Prop} {ids : List Nat} (inOrder : InOrder start.children ready ids) {merger : Merger}
    (initial : Inv merger circuit) (known : ∀ id, ready id → id ∈ merger.canonical)
    (each : ∀ id ∈ ids, ∀ current now, Inv current now →
      (∀ child ∈ start.children id, child ∈ current.canonical) →
      Yields (mergeNode id current) now fun reply grown => Inv reply.2 grown ∧
        ∀ other, other ∈ reply.2.canonical ↔ other ∈ current.canonical ∨ other = id) :
    Yields (ids.forM mergeNode merger) circuit fun reply grown => Inv reply.2 grown ∧
      ∀ id, id ∈ merger.canonical ∨ id ∈ ids → id ∈ reply.2.canonical := by
  induction inOrder generalizing circuit merger with
  | nil => exact .intro rfl ⟨initial, fun id member => by simpa using member⟩
  | cons ready id rest first _ ih =>
    have children : ∀ child ∈ start.children id, child ∈ merger.canonical :=
      fun child member => known child (first child member)
    have begins : (id :: rest).forM mergeNode = mergeNode id >>= fun _ => rest.forM mergeNode := rfl
    rw [begins]
    refine .memory_bind (each id List.mem_cons_self merger circuit initial children) ?_
    intro _ later next finished
    obtain ⟨kept, contents⟩ := finished
    have continues := ih kept (fun other already => (contents other).mpr (already.imp_left (known other)))
      fun other member => each other (List.mem_cons_of_mem id member)
    refine continues.mono ?_
    intro reply grown finished
    obtain ⟨held, complete⟩ := finished
    exact ⟨held, fun other member => complete other (listed_after contents member)⟩

theorem sweep_in_order {circuit : Circuit} {root : Nat} (inRange : root < circuit.size) :
    ∃ ids, circuit.reachable? [root] = some ids ∧ InOrder circuit.children (fun _ => False) ids ∧
      ids.Nodup ∧ ∀ id, id ∈ ids ↔ circuit.Reaches root id := by
  obtain ⟨ids, swept, ascending, listed⟩ := Circuit.reachable?_eq
    (fun other member => List.mem_singleton.mp member ▸ inRange :
      ∀ other ∈ [root], other < circuit.size)
  have reached : ∀ id, id ∈ ids ↔ circuit.Reaches root id := by
    intro id
    rw [listed id]
    simp
  refine ⟨ids, swept, .of_ascending (fun _ _ => circuit.lt_of_mem_children) ascending ?_,
    ascending.imp Nat.ne_of_lt, reached⟩
  intro id member child childMember
  exact .inr ((reached child).mpr (((reached id).mp member).child childMember))

theorem merge_keeps {Inv : Merger → Circuit → Prop} {circuit : Circuit} {merger : Merger} {root : Nat}
    (inRange : root < circuit.size) (initial : Inv merger circuit)
    (each : ∀ id, circuit.Reaches root id → ∀ current now, Inv current now →
      (∀ child ∈ circuit.children id, child ∈ current.canonical) →
      Yields (mergeNode id current) now fun reply grown => Inv reply.2 grown ∧
        ∀ other, other ∈ reply.2.canonical ↔ other ∈ current.canonical ∨ other = id) :
    Yields (merge root merger) circuit fun reply grown => Inv reply.2 grown ∧
      reply.2.canonical[root]? = some reply.1 ∧
      ∀ id, id ∈ merger.canonical ∨ circuit.Reaches root id → id ∈ reply.2.canonical := by
  obtain ⟨ids, swept, inOrder, _, reached⟩ := sweep_in_order inRange
  have merges := mergeNodes_keep inOrder initial (fun _ => False.elim)
    fun id member => each id ((reached id).mp member)
  refine .memory_after rfl (.memory_after (Yields.memory_lookup swept merger circuit) ?_)
  refine .memory_bind merges ?_
  intro _ later grown finished
  obtain ⟨kept, complete⟩ := finished
  have present := complete root (.inr ((reached root).mpr (.refl root)))
  have found := Std.HashMap.getElem?_eq_some_getElem present
  refine .memory_after rfl ⟨_, grown, Yields.memory_lookup found later grown, ?_⟩
  exact ⟨kept, found, fun id known => complete id (known.imp_right (reached id).mpr)⟩

def Represents (circuit : Circuit) (merger : Merger) (root form : Nat) : Prop :=
  circuit.Relates Formula.Similar root form ∧ IsRepresentative circuit merger form

theorem Represents.of_grows {circuit grown : Circuit} {merger later : Merger} {root form : Nat}
    (represents : Represents circuit merger root form) (grows : Grows merger circuit later grown) :
    Represents grown later root form :=
  ⟨represents.1.of_extends grows.extended, grows.kept form represents.2⟩

theorem merge_completes {circuit : Circuit} {merger : Merger} (right : Right circuit merger)
    {root : Nat} (inRange : root < circuit.size) :
    Yields (merge root merger) circuit fun reply grown =>
      Grows merger circuit reply.2 grown ∧ Right grown reply.2 ∧
        reply.2.canonical[root]? = some reply.1 ∧
        ∀ id, id ∈ merger.canonical ∨ circuit.Reaches root id → id ∈ reply.2.canonical := by
  have merges := @merge_keeps (fun current now => Grows merger circuit current now ∧ Right now current)
    circuit merger root inRange ⟨.refl merger circuit, right⟩ ?_
  · refine merges.mono ?_
    intro reply grown finished
    obtain ⟨⟨grows, laterRight⟩, found, complete⟩ := finished
    exact ⟨grows, laterRight, found, complete⟩
  · intro id reaches current now held known
    obtain ⟨grows, currentRight⟩ := held
    have older : id < circuit.size := Nat.lt_of_le_of_lt reaches.le inRange
    rw [← Circuit.children_of_extends grows.extended older] at known
    refine (mergeNode_yields currentRight
      (Nat.lt_of_lt_of_le older (Circuit.size_le_of_extends grows.extended)) known).mono ?_
    intro reply grown finished
    obtain ⟨further, laterRight, contents⟩ := finished
    exact ⟨⟨grows.trans further, laterRight⟩, contents⟩

theorem merge_yields {circuit : Circuit} {merger : Merger} (right : Right circuit merger)
    {root : Nat} (inRange : root < circuit.size) :
    Yields (merge root merger) circuit fun reply grown =>
      Grows merger circuit reply.2 grown ∧ Right grown reply.2 ∧
        Represents grown reply.2 root reply.1 := by
  refine (merge_completes right inRange).mono ?_
  intro reply grown finished
  obtain ⟨grows, laterRight, found, _⟩ := finished
  exact ⟨grows, laterRight, laterRight.related root _ found, laterRight.canonical root _ found⟩

theorem session_right {circuit : Circuit} {merger : Merger}
    (session : Session merge .empty circuit merger) : Right circuit merger := by
  refine session.invariant empty_right (fun _ _ _ => right_of_extends) ?_
  intro circuit merger root inRange right
  exact (merge_yields right inRange).mono fun _ _ holds => holds.2.1

theorem merges_yield {circuit : Circuit} {merger : Merger} (right : Right circuit merger)
    {roots : List Nat} (inRange : ∀ root ∈ roots, root < circuit.size) :
    Yields (roots.mapM merge merger) circuit fun reply grown =>
      Grows merger circuit reply.2 grown ∧ Right grown reply.2 ∧
        List.Forall₂ (Represents grown reply.2) roots reply.1 := by
  refine @Yields.memory_mapM Circuit Merger Nat Nat merge Grows
    (fun merger circuit => Right circuit merger)
    (fun root form merger circuit => Represents circuit merger root form) Grows.refl Grows.trans
    (fun grows represents => represents.of_grows grows) roots merger circuit right ?_
  intro root member current middle grows currentRight
  exact merge_yields currentRight
    (Nat.lt_of_lt_of_le (inRange root member) (Circuit.size_le_of_extends grows.extended))

end Merger

end ArithCircuit
