import ArithCircuit.Proofs.Uses
import ArithCircuit.Proofs.WorkStack

set_option autoImplicit false

namespace ArithCircuit

theorem filterM_eq_some {α : Type} {read : α → Option Bool} {keep : α → Bool} {list : List α}
    (reads : ∀ entry ∈ list, read entry = some (keep entry)) :
    list.filterM read = some (list.filter keep) := by
  have collects : ∀ kept, list.filterAuxM read kept = some ((list.filter keep).reverse ++ kept) := by
    induction list with
    | nil => exact fun _ => rfl
    | cons entry rest ih =>
      intro kept
      have later := ih fun other member => reads other (List.mem_cons_of_mem entry member)
      rw [List.filterAuxM, reads entry List.mem_cons_self, List.filter_cons]
      cases keep entry with
      | true => simpa using later (entry :: kept)
      | false => exact later kept
  rw [List.filterM, collects]
  simp

-- A node may stand on the stack several times. It is marked when it first comes to the top, and gives
-- the nodes that are put on the stack in its place.
structure MarkLoop (S : Type) where
  isMarked? : S → Nat → Option Bool
  mark? : Nat → S → Option (List Nat × S)

namespace MarkLoop

structure Frame (S : Type) where
  stack : List Nat
  state : S

variable {S : Type} {loop : MarkLoop S} {children : Nat → List Nat} {Fits : S → Nat → Prop}

def turn (loop : MarkLoop S) (frame : Frame S) : Option (Except Error Unit × Frame S) :=
  match frame.stack with
  | [] => some (.ok (), frame)
  | id :: below =>
    (loop.isMarked? frame.state id).bind fun isMarked =>
      if isMarked then some (.ok (), ⟨below, frame.state⟩)
      else (loop.mark? id frame.state).map fun (pending, next) =>
        (.ok (), ⟨pending.reverse ++ below, next⟩)

theorem turn_of_marked {id : Nat} {below : List Nat} {state : S}
    (marked : loop.isMarked? state id = some true) :
    loop.turn ⟨id :: below, state⟩ = some (.ok (), ⟨below, state⟩) := by
  simp only [turn, marked, Option.bind_some, if_true]

theorem turn_of_unmarked {id : Nat} {below pending : List Nat} {state next : S}
    (unmarked : loop.isMarked? state id = some false)
    (marks : loop.mark? id state = some (pending, next)) :
    loop.turn ⟨id :: below, state⟩ = some (.ok (), ⟨pending.reverse ++ below, next⟩) := by
  simp only [turn, unmarked, Option.bind_some, Bool.false_eq_true, if_false, marks, Option.map_some]

-- Nodes that fit can be looked at. The children that a node does not put on the stack are marked.
structure Marks (loop : MarkLoop S) (children : Nat → List Nat) (Fits : S → Nat → Prop) : Prop where
  earlier : ∀ id, ∀ child ∈ children id, child < id
  inherited : ∀ state id, Fits state id → ∀ child ∈ children id, Fits state child
  reads : ∀ state id, Fits state id → ∃ isMarked, loop.isMarked? state id = some isMarked
  marks : ∀ state id, Fits state id → loop.isMarked? state id = some false →
    ∃ pending next, loop.mark? id state = some (pending, next) ∧
      (∀ child ∈ pending, child ∈ children id) ∧
      (∀ child ∈ children id, child ∈ pending ∨ loop.isMarked? next child = some true) ∧
      (∀ other, loop.isMarked? next other = some true ↔
        loop.isMarked? state other = some true ∨ other = id) ∧
      ∀ other, Fits state other → Fits next other

-- What is marked between `start` and `final` while `ids` are worked off, in the order of the marking.
structure Searched (loop : MarkLoop S) (children : Nat → List Nat) (ids : List Nat) (start final : S)
    (found : List Nat) : Prop where
  once : found.Nodup
  fresh : ∀ id ∈ found, loop.isMarked? start id ≠ some true
  marked : ∀ id, loop.isMarked? final id = some true ↔ loop.isMarked? start id = some true ∨ id ∈ found
  roots : ∀ id ∈ ids, loop.isMarked? final id = some true
  closed : ∀ id ∈ found, ∀ child ∈ children id, loop.isMarked? final child = some true
  reached : ∀ P : Nat → Prop, (∀ id ∈ ids, P id) →
    (∀ id ∈ found, P id → ∀ child ∈ children id, P child) → ∀ id ∈ found, P id
  states : found.foldlM (fun state id => (loop.mark? id state).map (·.2)) start = some final

theorem searched_nil (state : S) : Searched loop children [] state state [] where
  once := .nil
  fresh := by simp
  marked := by simp
  roots := by simp
  closed := by simp
  reached := by simp
  states := rfl

theorem searched_marked {id : Nat} {state : S} (marked : loop.isMarked? state id = some true) :
    Searched loop children [id] state state [] where
  once := .nil
  fresh := by simp
  marked := by simp
  roots := List.forall_mem_singleton.mpr marked
  closed := by simp
  reached := by simp
  states := rfl

theorem Searched.append {ids rest found others : List Nat} {start middle final : S}
    (first : Searched loop children ids start middle found)
    (second : Searched loop children rest middle final others) :
    Searched loop children (ids ++ rest) start final (found ++ others) where
  once := List.nodup_append.mpr ⟨first.once, second.once, by
    rintro other isFound _ isOther rfl
    exact second.fresh other isOther ((first.marked other).mpr (.inr isFound))⟩
  fresh := by
    intro other member isMarked
    rcases List.mem_append.mp member with isFound | isOther
    · exact first.fresh other isFound isMarked
    · exact second.fresh other isOther ((first.marked other).mpr (.inl isMarked))
  marked other := by
    rw [second.marked, first.marked, List.mem_append, or_assoc]
  roots := by
    intro other member
    rcases List.mem_append.mp member with early | later
    · exact (second.marked other).mpr (.inl (first.roots other early))
    · exact second.roots other later
  closed := by
    intro other member child isChild
    rcases List.mem_append.mp member with isFound | isOther
    · exact (second.marked child).mpr (.inl (first.closed other isFound child isChild))
    · exact second.closed other isOther child isChild
  reached := by
    intro P holds inherits other member
    rcases List.mem_append.mp member with isFound | isOther
    · exact first.reached P (fun id isEarly => holds id (List.mem_append_left rest isEarly))
        (fun id isFound => inherits id (List.mem_append_left others isFound)) other isFound
    · exact second.reached P (fun id isLater => holds id (List.mem_append_right ids isLater))
        (fun id isOther => inherits id (List.mem_append_right found isOther)) other isOther
  states := by
    rw [List.foldlM_append, first.states]
    exact second.states

theorem Searched.node {id : Nat} {pending below : List Nat} {start next final : S}
    (unmarked : loop.isMarked? start id = some false)
    (gives : loop.mark? id start = some (pending, next))
    (fromHere : ∀ child ∈ pending, child ∈ children id)
    (complete : ∀ child ∈ children id, child ∈ pending ∨ loop.isMarked? next child = some true)
    (marks : ∀ other, loop.isMarked? next other = some true ↔
      loop.isMarked? start other = some true ∨ other = id)
    (searched : Searched loop children pending.reverse next final below) :
    Searched loop children [id] start final (id :: below) := by
  have marked : ∀ other, loop.isMarked? final other = some true ↔
      loop.isMarked? start other = some true ∨ other ∈ id :: below := by
    intro other
    rw [searched.marked, marks, List.mem_cons, or_assoc]
  constructor
  case once =>
    exact List.nodup_cons.mpr
      ⟨fun again => searched.fresh id again ((marks id).mpr (.inr rfl)), searched.once⟩
  case fresh =>
    intro other member isMarked
    rcases List.mem_cons.mp member with rfl | isBelow
    · rw [unmarked] at isMarked
      contradiction
    · exact searched.fresh other isBelow ((marks other).mpr (.inl isMarked))
  case marked => exact marked
  case roots => exact List.forall_mem_singleton.mpr ((marked id).mpr (.inr List.mem_cons_self))
  case closed =>
    intro other member child isChild
    rcases List.mem_cons.mp member with rfl | isBelow
    · rcases complete child isChild with isPending | isMarked
      · exact searched.roots child (List.mem_reverse.mpr isPending)
      · exact (searched.marked child).mpr (.inl isMarked)
    · exact searched.closed other isBelow child isChild
  case reached =>
    intro P holds inherits other member
    have here : P id := holds id List.mem_cons_self
    rcases List.mem_cons.mp member with rfl | isBelow
    · exact here
    · refine searched.reached P (fun child isPending => ?_)
        (fun other isBelow => inherits other (List.mem_cons_of_mem id isBelow)) other isBelow
      exact inherits id List.mem_cons_self here child (fromHere child (List.mem_reverse.mp isPending))
  case states =>
    rw [List.foldlM_cons, gives]
    exact searched.states

-- The induction is on a bound of the nodes on top: what a node puts on the stack stands before it.
theorem Marks.works_off (marks : loop.Marks children Fits) (bound : Nat) {ids : List Nat} {state : S}
    (bounded : ∀ id ∈ ids, id < bound) (fits : ∀ id ∈ ids, Fits state id) (below : List Nat) :
    ∃ found later, Leads loop.turn ⟨ids ++ below, state⟩ (.ok ()) ⟨below, later⟩ ∧
      Searched loop children ids state later found ∧ ∀ other, Fits state other → Fits later other := by
  induction bound generalizing ids state below with
  | zero =>
    cases ids with
    | nil => exact ⟨[], state, leads_refl _ _, searched_nil state, fun _ => id⟩
    | cons id rest => exact absurd (bounded id List.mem_cons_self) (Nat.not_lt_zero id)
  | succ bound ih =>
    induction ids generalizing state with
    | nil => exact ⟨[], state, leads_refl _ _, searched_nil state, fun _ => id⟩
    | cons id rest restIh =>
      have here := fits id List.mem_cons_self
      have later : ∀ other ∈ rest, other < bound + 1 :=
        fun other member => bounded other (List.mem_cons_of_mem id member)
      have laterFits : ∀ other ∈ rest, Fits state other :=
        fun other member => fits other (List.mem_cons_of_mem id member)
      obtain ⟨isMarked, read⟩ := marks.reads state id here
      cases isMarked with
      | true =>
        obtain ⟨found, final, leads, searched, kept⟩ := restIh later laterFits
        exact ⟨found, final, leads_turn (turn_of_marked read) leads,
          (searched_marked read).append searched, kept⟩
      | false =>
        obtain ⟨pending, next, gives, fromHere, complete, marked, nextFits⟩ :=
          marks.marks state id here read
        have smaller : ∀ child ∈ pending.reverse, child < bound := fun child member =>
          Nat.lt_of_lt_of_le (marks.earlier id child (fromHere child (List.mem_reverse.mp member)))
            (Nat.le_of_lt_succ (bounded id List.mem_cons_self))
        have pendingFits : ∀ child ∈ pending.reverse, Fits next child := fun child member =>
          nextFits child (marks.inherited state id here child
            (fromHere child (List.mem_reverse.mp member)))
        obtain ⟨inside, middle, leads, first, middleFits⟩ := ih smaller pendingFits (rest ++ below)
        obtain ⟨others, final, rests, second, finalFits⟩ := restIh later fun other member =>
          middleFits other (nextFits other (laterFits other member))
        exact ⟨id :: (inside ++ others), final,
          leads_turn (turn_of_unmarked read gives) (leads.trans rests),
          (first.node read gives fromHere complete marked).append second,
          fun other fit => finalFits other (middleFits other (nextFits other fit))⟩

end MarkLoop

namespace Circuit

variable {circuit : Circuit} {roots : List Nat}

-- There is a mark for each position up to the largest root.
def unmarked (roots : List Nat) : Array Bool :=
  Array.replicate ((roots.max?.map (· + 1)).getD 0) false

def marking (circuit : Circuit) : MarkLoop (Array Bool) where
  isMarked? marks id := marks[id]?
  mark? id marks :=
    let marks := marks.setIfInBounds id true
    (circuit.node? id).bind fun node =>
      (node.children.filterM fun child => marks[child]?.map (!·)).map (·, marks)

def markedIds (marks : Array Bool) : List Nat := (marks.toList.zipIdx.filter (·.1)).map (·.2)

theorem mem_markedIds {marks : Array Bool} {id : Nat} : id ∈ markedIds marks ↔ marks[id]? = some true := by
  simp [markedIds, List.mem_zipIdx_iff_getElem?]

theorem markedIds_ascending (marks : Array Bool) : (markedIds marks).Pairwise (· < ·) := by
  have positions : (marks.toList.zipIdx.map (·.2)).Pairwise (· < ·) := by
    rw [List.zipIdx_map_snd]
    exact List.pairwise_lt_range'
  exact positions.sublist (List.filter_sublist.map _)

theorem lt_size_unmarked {root : Nat} (member : root ∈ roots) : root < (unmarked roots).size := by
  cases greatest : roots.max? with
  | none => simp [List.max?_eq_none_iff.mp greatest] at member
  | some last =>
    have most := (List.max?_eq_some_iff.mp greatest).2 root member
    simp only [unmarked, greatest, Option.map_some, Option.getD_some, Array.size_replicate]
    omega

theorem not_marked_unmarked (id : Nat) : (unmarked roots)[id]? ≠ some true := by
  simp [unmarked, Array.getElem?_replicate]

-- The children stand before the node, so there is a mark for each of them if there is one for the node.
theorem marking_marks (circuit : Circuit) :
    circuit.marking.Marks circuit.children fun marks id => id < circuit.size ∧ id < marks.size where
  earlier _ _ := circuit.lt_of_mem_children
  inherited _ _ fits _ member :=
    ⟨Nat.lt_trans (circuit.lt_of_mem_children member) fits.1,
      Nat.lt_trans (circuit.lt_of_mem_children member) fits.2⟩
  reads marks _ fits := ⟨_, Array.getElem?_eq_getElem fits.2⟩
  marks marks id fits isUnmarked := by
    obtain ⟨node, found⟩ := node?_of_lt_size fits.1
    have same := children_of_node? found
    let next := marks.setIfInBounds id true
    have size : next.size = marks.size := Array.size_setIfInBounds
    have present : ∀ child ∈ circuit.children id, child < next.size := fun child member =>
      size ▸ Nat.lt_trans (circuit.lt_of_mem_children member) fits.2
    have reads : ∀ child ∈ node.children, next[child]?.map (!·) =
        some (decide (next[child]? = some false)) := by
      intro child member
      have inside := present child (same ▸ member)
      rw [Array.getElem?_eq_getElem inside]
      cases next[child] <;> rfl
    refine ⟨node.children.filter fun child => next[child]? = some false, next, ?_, ?_, ?_, ?_, ?_⟩
    · simp only [marking, found, Option.bind_some]
      rw [filterM_eq_some reads]
      rfl
    · intro child member
      exact same ▸ List.mem_of_mem_filter member
    · intro child member
      have inside := present child member
      have read := Array.getElem?_eq_getElem inside
      cases isMarked : next[child] with
      | true => exact .inr (isMarked ▸ read)
      | false => exact .inl (List.mem_filter.mpr ⟨same ▸ member, decide_eq_true (isMarked ▸ read)⟩)
    · intro other
      change next[other]? = some true ↔ marks[other]? = some true ∨ other = id
      rw [Array.getElem?_setIfInBounds]
      by_cases here : id = other
      · simp [here, here ▸ fits.2]
      · simp [here, Ne.symm here]
    · intro other otherFits
      exact ⟨otherFits.1, size ▸ otherFits.2⟩

theorem marking_ends (inRange : ∀ root ∈ roots, root < circuit.size) :
    ∃ marks, Leads circuit.marking.turn ⟨roots.reverse, unmarked roots⟩ (.ok ()) ⟨[], marks⟩ ∧
      circuit.reachable? roots = some (markedIds marks) := by
  have fits : ∀ root ∈ roots.reverse, root < circuit.size ∧ root < (unmarked roots).size :=
    fun root member => ⟨inRange root (List.mem_reverse.mp member),
      lt_size_unmarked (List.mem_reverse.mp member)⟩
  obtain ⟨found, marks, leads, searched, _⟩ := circuit.marking_marks.works_off circuit.size
    (fun root member => (fits root member).1) fits []
  rw [List.append_nil] at leads
  refine ⟨marks, leads, ?_⟩
  have isFound : ∀ id, marks[id]? = some true ↔ id ∈ found := fun id =>
    (searched.marked id).trans (or_iff_right (not_marked_unmarked id))
  obtain ⟨ids, reached, ascending, listed⟩ := reachable?_eq inRange
  rw [reached]
  refine congrArg some (eq_of_ascending ascending (markedIds_ascending marks) fun id => ?_)
  rw [listed, mem_markedIds, isFound]
  constructor
  · rintro ⟨root, isRoot, reaches⟩
    refine reaches.of_closed (fun other member child isChild => ?_)
      ((isFound root).mp (searched.roots root (List.mem_reverse.mpr isRoot)))
    exact (isFound child).mp (searched.closed other member child isChild)
  · refine searched.reached (fun id => ∃ root ∈ roots, circuit.Reaches root id) ?_ ?_ id
    · exact fun root member => ⟨root, List.mem_reverse.mp member, .refl root⟩
    · rintro other _ ⟨root, isRoot, reaches⟩ child isChild
      exact ⟨root, isRoot, reaches.child isChild⟩

-- The roots above the first absent one are worked off; then the loop breaks off.
theorem marking_breaks_off {root : Nat} (member : root ∈ roots) (absent : circuit.size ≤ root) :
    ∃ count, turns circuit.marking.turn count ⟨roots.reverse, unmarked roots⟩ = none := by
  have someAbsent : (roots.reverse.find? fun other => circuit.size ≤ other).isSome = true := by
    rw [List.find?_isSome]
    exact ⟨root, List.mem_reverse.mpr member, decide_eq_true absent⟩
  obtain ⟨first, found⟩ := Option.isSome_iff_exists.mp someAbsent
  obtain ⟨firstAbsent, before, after, split, others⟩ := List.find?_eq_some_iff_append.mp found
  have present : ∀ id ∈ before, id < circuit.size := fun id isEarly => by
    simpa using others id isEarly
  have places : ∀ id ∈ before, id < (unmarked roots).size := by
    intro id isEarly
    have isRoot : id ∈ roots.reverse := split ▸ List.mem_append_left _ isEarly
    exact lt_size_unmarked (List.mem_reverse.mp isRoot)
  obtain ⟨early, marks, leads, searched, _⟩ := circuit.marking_marks.works_off circuit.size present
    (fun id isEarly => ⟨present id isEarly, places id isEarly⟩) (first :: after)
  rw [← split] at leads
  refine leads.breaks_off ?_
  have lookup : circuit.node? first = none := Array.getElem?_eq_none (of_decide_eq_true firstAbsent)
  cases read : marks[first]? with
  | none => simp [MarkLoop.turn, marking, read]
  | some isMarked =>
    cases isMarked with
    | false => simp [MarkLoop.turn, marking, read, lookup]
    | true =>
      rcases (searched.marked first).mp read with atStart | isEarly
      · exact absurd atStart (not_marked_unmarked first)
      · have below := searched.reached (· < circuit.size) present
          (fun _ _ inRange _ isChild => Nat.lt_trans (circuit.lt_of_mem_children isChild) inRange)
        exact absurd (below first isEarly) (Nat.not_lt_of_le (of_decide_eq_true firstAbsent))

end Circuit

namespace FanOut

variable {circuit : Circuit} {root : Nat}

def scan (circuit : Circuit) : MarkLoop FanOut where
  isMarked? fanOut id := some (fanOut.counted.contains id)
  mark? id fanOut := (circuit.node? id).map fun node =>
    (node.children, node.children.foldl addUse { fanOut with counted := fanOut.counted.insert id })

theorem isMarked?_scan {fanOut : FanOut} {id : Nat} :
    (scan circuit).isMarked? fanOut id = some true ↔ id ∈ fanOut.counted := by
  simp [scan]

theorem mark?_scan (fanOut : FanOut) {id : Nat} (inRange : id < circuit.size) :
    (scan circuit).mark? id fanOut = some (circuit.children id, countNode circuit fanOut id) := by
  obtain ⟨node, found⟩ := Circuit.node?_of_lt_size inRange
  simp [scan, found, countNode, Circuit.children_of_node? found]

theorem scan_marks (circuit : Circuit) :
    (scan circuit).Marks circuit.children fun _ id => id < circuit.size where
  earlier _ _ := circuit.lt_of_mem_children
  inherited _ _ inRange _ member := Nat.lt_trans (circuit.lt_of_mem_children member) inRange
  reads _ _ _ := ⟨_, rfl⟩
  marks fanOut id inRange _ := by
    refine ⟨_, _, mark?_scan fanOut inRange, fun _ member => member, fun _ => .inl, fun other => ?_,
      fun _ fits => fits⟩
    have entered := (foldl_countNode circuit fanOut [id]).1 other
    rw [isMarked?_scan, isMarked?_scan, or_comm]
    simpa using entered

theorem foldlM_scan {found : List Nat} {fanOut final : FanOut} (inRange : ∀ id ∈ found, id < circuit.size)
    (states : found.foldlM (fun fanOut id => ((scan circuit).mark? id fanOut).map (·.2)) fanOut =
      some final) : final = found.foldl (countNode circuit) fanOut := by
  induction found generalizing fanOut with
  | nil => exact (Option.some.inj states).symm
  | cons id rest ih =>
    rw [List.foldlM_cons, mark?_scan fanOut (inRange id List.mem_cons_self)] at states
    exact ih (fun other member => inRange other (List.mem_cons_of_mem id member)) states

-- A scan and a schedule come to the same nodes, in different orders.
theorem scanned_perm {fanOut final : FanOut} {found : List Nat}
    (searched : (scan circuit).Searched circuit.children [root] fanOut final found) :
    found.Perm (schedule circuit.children fanOut.counted.contains root) := by
  have scheduled := schedule_scheduled circuit.children fanOut.counted.contains
    (fun _ _ => circuit.lt_of_mem_children) root
  have isDone : ∀ {id}, fanOut.counted.contains id = true ↔ id ∈ fanOut.counted :=
    Std.HashSet.contains_iff_mem
  have isMarked : ∀ {id}, (scan circuit).isMarked? final id = some true ↔
      fanOut.counted.contains id = true ∨ id ∈ found := fun {id} => by
    rw [searched.marked id, isMarked?_scan, isDone]
  have fresh : ∀ id ∈ found, ¬fanOut.counted.contains id = true := fun id member already =>
    searched.fresh id member (isMarked?_scan.mpr (isDone.mp already))
  refine (List.perm_ext_iff_of_nodup searched.once scheduled.once).mpr fun id => ⟨?_, ?_⟩
  · intro member
    have planned := searched.reached
      (fun id => fanOut.counted.contains id = true ∨
        id ∈ schedule circuit.children fanOut.counted.contains root)
      (List.forall_mem_singleton.mpr scheduled.root)
      (fun other isFound reached child isChild =>
        scheduled.inOrder.settled other (reached.resolve_left (fresh other isFound)) child isChild)
    exact (planned id member).resolve_left (fresh id member)
  · intro member
    have visited := @schedule_only circuit.children fanOut.counted.contains
      (fun id => fanOut.counted.contains id = true ∨ id ∈ found)
      (fun other isOpen reached child isChild => by
        have isFound := reached.resolve_left (by simp [isOpen])
        exact isMarked.mp (searched.closed other isFound child isChild))
      root (isMarked.mp (searched.roots root (List.mem_singleton_self root)))
    exact (visited id member).resolve_left (by simp [scheduled.isOpen id member])

theorem scan_ends (fanOut : FanOut) (inRange : root < circuit.size) :
    ∃ counted final, fanOut.count? circuit root = some counted ∧
      Leads (scan circuit).turn ⟨[root], fanOut⟩ (.ok ()) ⟨[], final⟩ ∧
      (∀ id, final.usesOf id = counted.usesOf id) ∧ ∀ id, id ∈ final.counted ↔ id ∈ counted.counted := by
  have below : ∀ id ∈ [root], id < circuit.size := List.forall_mem_singleton.mpr inRange
  obtain ⟨found, final, leads, searched, _⟩ :=
    @MarkLoop.Marks.works_off _ _ _ _ (scan_marks circuit) circuit.size _ fanOut below below []
  have present : ∀ id ∈ found, id < circuit.size := searched.reached (· < circuit.size) below
    fun _ _ inRange _ isChild => Nat.lt_trans (circuit.lt_of_mem_children isChild) inRange
  have permuted := scanned_perm searched
  obtain rfl := foldlM_scan present searched.states
  let order := schedule circuit.children fanOut.counted.contains root
  refine ⟨order.foldl (countNode circuit) fanOut, _,
    if_pos (by simpa [Circuit.contains] using inRange), leads, fun id => ?_, fun id => ?_⟩
  · rw [(foldl_countNode circuit fanOut found).2, (foldl_countNode circuit fanOut order).2,
      Circuit.usesBy_of_perm permuted]
  · rw [(foldl_countNode circuit fanOut found).1, (foldl_countNode circuit fanOut order).1,
      permuted.mem_iff]

end FanOut

end ArithCircuit
