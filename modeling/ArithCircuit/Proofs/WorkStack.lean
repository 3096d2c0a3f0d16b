import ArithCircuit.Error
import ArithCircuit.Proofs.Schedule

set_option autoImplicit false

namespace ArithCircuit

theorem Schedule.visit_of_settled {dependencies : Nat → List Nat} {done : Nat → Bool}
    {schedule : Schedule} (valid : schedule.Valid dependencies done) (bound : Nat) {id : Nat}
    (settled : schedule.Settled done id) : visit dependencies done bound id schedule = schedule := by
  cases bound with
  | zero => rfl
  | succ bound =>
    have planned : done id || schedule.planned.contains id := by
      rw [Bool.or_eq_true, Std.HashSet.contains_iff_mem, valid.planned id]
      exact settled
    rw [visit, if_pos planned]

-- Turns of a loop. One that gives no result would read what is not there, and one may stop the loop with
-- an error.
def turns {F : Type} (turn : F → Option (Except Error Unit × F)) :
    Nat → F → Option (Except Error Unit × F)
  | 0, frame => some (.ok (), frame)
  | count + 1, frame =>
    match turn frame with
    | some (.ok (), next) => turns turn count next
    | stops => stops

def Leads {F : Type} (turn : F → Option (Except Error Unit × F)) (start : F)
    (outcome : Except Error Unit) (final : F) : Prop :=
  ∃ count, turns turn count start = some (outcome, final)

section Turning

variable {F : Type} {turn : F → Option (Except Error Unit × F)} {start middle next final : F}
  {outcome : Except Error Unit}

theorem leads_refl (turn : F → Option (Except Error Unit × F)) (frame : F) :
    Leads turn frame (.ok ()) frame :=
  ⟨0, rfl⟩

theorem leads_turn (turned : turn start = some (.ok (), next)) (leads : Leads turn next outcome final) :
    Leads turn start outcome final := by
  obtain ⟨count, gives⟩ := leads
  exact ⟨count + 1, by rw [turns, turned]; exact gives⟩

theorem leads_of_turn (turned : turn start = some (outcome, final)) :
    Leads turn start outcome final := by
  refine ⟨1, ?_⟩
  rw [turns, turned]
  cases outcome <;> rfl

theorem Leads.trans (first : Leads turn start (.ok ()) middle) (rest : Leads turn middle outcome final) :
    Leads turn start outcome final := by
  obtain ⟨count, gives⟩ := first
  induction count generalizing start with
  | zero =>
    cases gives
    exact rest
  | succ count ih =>
    rw [turns] at gives
    split at gives
    · rename_i turned
      exact leads_turn turned (ih gives)
    · rename_i stops
      exact absurd gives (stops middle)

theorem Leads.breaks_off (leads : Leads turn start (.ok ()) middle) (stuck : turn middle = none) :
    ∃ count, turns turn count start = none := by
  obtain ⟨count, gives⟩ := leads
  induction count generalizing start with
  | zero =>
    cases gives
    exact ⟨1, by rw [turns, stuck]⟩
  | succ count ih =>
    rw [turns] at gives
    split at gives
    · rename_i turned
      obtain ⟨later, breaks⟩ := ih gives
      exact ⟨later + 1, by rw [turns, turned]; exact breaks⟩
    · rename_i stops
      exact absurd gives (stops middle)

theorem Leads.invariant {P : F → Prop}
    (kept : ∀ frame next, P frame → turn frame = some (.ok (), next) → P next)
    (leads : Leads turn start (.ok ()) final) (holds : P start) : P final := by
  obtain ⟨count, gives⟩ := leads
  induction count generalizing start with
  | zero =>
    cases gives
    exact holds
  | succ count ih =>
    rw [turns] at gives
    split at gives
    · rename_i turned
      exact ih (kept start _ holds turned) gives
    · rename_i stops
      exact absurd gives (stops final)

end Turning

structure WorkLoop (S : Type) where
  known : S → Nat → Bool
  dependencies : Nat → S → Option (List Nat × S)
  compute : Nat → S → Option (Except Error Unit × S)

namespace WorkLoop

-- `stack` starts with its top, and `computed` with what was computed last.
structure Frame (S : Type) where
  stack : List Nat
  computed : List Nat
  state : S

variable {S M : Type}

-- A node stays on the stack until all that it depends on is known. The dependencies that are not known
-- yet are put on top of it, and may come to stand there several times.
def turn (loop : WorkLoop S) (frame : Frame S) : Option (Except Error Unit × Frame S) :=
  match frame.stack with
  | [] => some (.ok (), frame)
  | id :: below =>
    if loop.known frame.state id then some (.ok (), { frame with stack := below })
    else
      (loop.dependencies id frame.state).bind fun (needed, state) =>
        match needed.filter fun other => !loop.known state other with
        | [] => (loop.compute id state).map fun (outcome, next) =>
          (outcome, ⟨below, id :: frame.computed, next⟩)
        | pending => some (.ok (), ⟨pending.reverse ++ id :: below, frame.computed, state⟩)

def workAll (step : Nat → M → Option (Except Error Unit × M)) :
    List Nat → M → Option (Except Error Unit × M)
  | [], state => some (.ok (), state)
  | id :: rest, state =>
    match step id state with
    | some (.ok (), next) => workAll step rest next
    | stops => stops

-- A loop that has worked off its stack or stopped with an error, and has computed no node twice and
-- none that was known before.
structure Ends (loop : WorkLoop S) (stack : List Nat) (start : S) (outcome : Except Error Unit)
    (final : Frame S) : Prop where
  leads : Leads loop.turn ⟨stack, [], start⟩ outcome final
  empty : outcome = .ok () → final.stack = []
  once : final.computed.Nodup
  fresh : ∀ id ∈ final.computed, loop.known start id = false

section Turning

variable {loop : WorkLoop S} {outcome : Except Error Unit}

theorem turn_of_known {id : Nat} {below computed : List Nat} {state : S}
    (known : loop.known state id = true) :
    loop.turn ⟨id :: below, computed, state⟩ = some (.ok (), ⟨below, computed, state⟩) := by
  simp only [turn, known, if_true]

theorem turn_of_pending {id : Nat} {below computed needed : List Nat} {state next : S}
    (unknown : loop.known state id = false)
    (asked : loop.dependencies id state = some (needed, next))
    (pending : needed.filter (fun other => !loop.known next other) ≠ []) :
    loop.turn ⟨id :: below, computed, state⟩ = some (.ok (),
      ⟨(needed.filter fun other => !loop.known next other).reverse ++ id :: below, computed,
        next⟩) := by
  simp only [turn, unknown, Bool.false_eq_true, if_false, asked, Option.bind_some]

theorem turn_of_ready {id : Nat} {below computed needed : List Nat} {state asking next : S}
    (unknown : loop.known state id = false)
    (asked : loop.dependencies id state = some (needed, asking))
    (ready : ∀ other ∈ needed, loop.known asking other = true)
    (computes : loop.compute id asking = some (outcome, next)) :
    loop.turn ⟨id :: below, computed, state⟩ =
      some (outcome, ⟨below, id :: computed, next⟩) := by
  have nothing : needed.filter (fun other => !loop.known asking other) = [] := by
    rw [List.filter_eq_nil_iff]
    intro other member
    simp [ready other member]
  simp only [turn, unknown, Bool.false_eq_true, if_false, asked, Option.bind_some, nothing, computes,
    Option.map_some]

inductive Turned (loop : WorkLoop S) : Frame S → Frame S → Prop where
  | idle {computed : List Nat} {state : S} : Turned loop ⟨[], computed, state⟩ ⟨[], computed, state⟩
  | pop {id : Nat} {below computed : List Nat} {state : S} (known : loop.known state id = true) :
      Turned loop ⟨id :: below, computed, state⟩ ⟨below, computed, state⟩
  | push {id : Nat} {below computed needed pending : List Nat} {state next : S}
      (unknown : loop.known state id = false)
      (asked : loop.dependencies id state = some (needed, next)) :
      Turned loop ⟨id :: below, computed, state⟩ ⟨pending ++ id :: below, computed, next⟩
  | compute {id : Nat} {below computed needed : List Nat} {state asking next : S}
      (unknown : loop.known state id = false)
      (asked : loop.dependencies id state = some (needed, asking))
      (computes : loop.compute id asking = some (.ok (), next)) :
      Turned loop ⟨id :: below, computed, state⟩ ⟨below, id :: computed, next⟩

theorem turned_of_turn {frame next : Frame S} (gives : loop.turn frame = some (.ok (), next)) :
    loop.Turned frame next := by
  obtain ⟨stack, computed, state⟩ := frame
  cases stack with
  | nil =>
    cases gives
    exact .idle
  | cons id below =>
    by_cases known : loop.known state id
    · rw [turn_of_known known] at gives
      cases gives
      exact .pop known
    · have unknown : loop.known state id = false := Bool.not_eq_true _ ▸ known
      simp only [turn, unknown, Bool.false_eq_true, if_false, Option.bind_eq_some_iff] at gives
      obtain ⟨⟨needed, asking⟩, asked, rest⟩ := gives
      dsimp only at rest
      split at rest
      · obtain ⟨⟨outcome, after⟩, computes, same⟩ := Option.map_eq_some_iff.mp rest
        cases same
        exact .compute unknown asked computes
      · cases rest
        exact .push unknown asked

theorem workAll_append {step : Nat → M → Option (Except Error Unit × M)} {early late : List Nat}
    {state : M} : workAll step (early ++ late) state =
      match workAll step early state with
      | some (.ok (), next) => workAll step late next
      | stops => stops := by
  induction early generalizing state with
  | nil => rfl
  | cons id rest ih =>
    rw [List.cons_append, workAll, workAll]
    split
    · exact ih
    · rename_i stops
      split
      · rename_i next gives
        exact absurd gives (stops next)
      · rfl

theorem workAll_eq_foldlM {step : M → Nat → Option M} {order : List Nat} {state : M} :
    workAll (fun id state => (step state id).map (.ok (), ·)) order state =
      (order.foldlM step state).map (.ok (), ·) := by
  induction order generalizing state with
  | nil => rfl
  | cons id rest ih =>
    rw [workAll, List.foldlM_cons]
    cases step state id with
    | none => rfl
    | some next => exact ih

end Turning

-- A loop that works like a step does, on what `view` shows of its state. `Listed` nodes are those that
-- the loop may come to, and `Inv` is what it keeps.
structure Follows (loop : WorkLoop S) (view : S → M)
    (step : Nat → M → Option (Except Error Unit × M)) (dependencies : Nat → List Nat)
    (Listed : Nat → Prop) (Inv : S → Prop) : Prop where
  earlier : ∀ id, ∀ dependency ∈ dependencies id, dependency < id
  inherited : ∀ id, Listed id → ∀ dependency ∈ dependencies id, Listed dependency
  asks : ∀ id state, Listed id → Inv state → loop.known state id = false →
    ∃ next, loop.dependencies id state = some (dependencies id, next) ∧ Inv next ∧
      view next = view state ∧ ∀ other, loop.known next other = loop.known state other
  computes : ∀ id state, Listed id → Inv state → loop.known state id = false →
    (∀ dependency ∈ dependencies id, loop.known state dependency = true) →
    ∃ outcome next, loop.compute id state = some (outcome, next) ∧
      step id (view state) = some (outcome, view next) ∧
      (outcome = .ok () → Inv next ∧
        ∀ other, loop.known next other = true ↔ loop.known state other = true ∨ other = id)

section Following

variable {loop : WorkLoop S} {view : S → M} {step : Nat → M → Option (Except Error Unit × M)}
  {dependencies : Nat → List Nat} {Listed : Nat → Prop} {Inv : S → Prop}

-- Turns that take the nodes above `below` off the stack and compute what `order` lists.
structure Reaches (loop : WorkLoop S) (view : S → M)
    (step : Nat → M → Option (Except Error Unit × M)) (Inv : S → Prop) (start : Frame S)
    (below order : List Nat) (outcome : Except Error Unit) (final : Frame S) : Prop where
  leads : Leads loop.turn start outcome final
  computed : ∃ worked rest, order = worked ++ rest ∧
    final.computed = worked.reverse ++ start.computed ∧ (outcome = .ok () → rest = [])
  same : workAll step order (view start.state) = some (outcome, view final.state)
  well : outcome = .ok () → final.stack = below ∧ Inv final.state ∧
    ∀ other, loop.known final.state other = true ↔
      loop.known start.state other = true ∨ other ∈ order

def Works (loop : WorkLoop S) (view : S → M) (step : Nat → M → Option (Except Error Unit × M))
    (Inv : S → Prop) (start : Frame S) (below order : List Nat) : Prop :=
  ∃ outcome final, Reaches loop view step Inv start below order outcome final

theorem works_nil {start : Frame S} (holds : Inv start.state) :
    Works loop view step Inv start start.stack [] :=
  ⟨.ok (), start, leads_refl loop.turn start, ⟨[], [], rfl, rfl, fun _ => rfl⟩, rfl,
    fun _ => ⟨rfl, holds, by simp⟩⟩

theorem Works.after {start next : Frame S} {below order : List Nat}
    (turned : loop.turn start = some (.ok (), next)) (sameComputed : next.computed = start.computed)
    (sameView : view next.state = view start.state)
    (sameKnown : ∀ other, loop.known next.state other = loop.known start.state other)
    (works : Works loop view step Inv next below order) :
    Works loop view step Inv start below order := by
  obtain ⟨outcome, final, reaches⟩ := works
  refine ⟨outcome, final, leads_turn turned reaches.leads, ?_, ?_, ?_⟩
  · rw [← sameComputed]
    exact reaches.computed
  · rw [← sameView]
    exact reaches.same
  · simp only [← sameKnown]
    exact reaches.well

theorem Works.append {start : Frame S} {between below early late : List Nat}
    (works : Works loop view step Inv start between early)
    (continues : ∀ middle, middle.stack = between → Inv middle.state →
      (∀ other, loop.known middle.state other = true ↔
        loop.known start.state other = true ∨ other ∈ early) →
      Works loop view step Inv middle below late) :
    Works loop view step Inv start below (early ++ late) := by
  obtain ⟨outcome, middle, begun⟩ := works
  obtain ⟨worked, rest, split, listed, complete⟩ := begun.computed
  cases outcome with
  | error error =>
    refine ⟨.error error, middle, begun.leads, ⟨worked, rest ++ late, ?_, listed, nofun⟩, ?_, nofun⟩
    · rw [split, List.append_assoc]
    · rw [workAll_append, begun.same]
  | ok =>
    obtain ⟨stack, holds, known⟩ := begun.well rfl
    obtain ⟨outcome, final, ended⟩ := continues middle stack holds known
    obtain ⟨further, remaining, lateSplit, lateListed, lateComplete⟩ := ended.computed
    obtain rfl := complete rfl
    rw [List.append_nil] at split
    subst split
    refine ⟨outcome, final, begun.leads.trans ended.leads,
      ⟨early ++ further, remaining, ?_, ?_, lateComplete⟩, ?_, ?_⟩
    · rw [lateSplit, List.append_assoc]
    · rw [lateListed, listed, List.reverse_append, List.append_assoc]
    · rw [workAll_append, begun.same]
      exact ended.same
    · intro well
      obtain ⟨finalStack, finalHolds, finalKnown⟩ := ended.well well
      refine ⟨finalStack, finalHolds, fun other => ?_⟩
      rw [finalKnown other, known other, List.mem_append, or_assoc]

theorem Follows.compute_works (follows : Follows loop view step dependencies Listed Inv) {id : Nat}
    (listed : Listed id) {start : Frame S} {below : List Nat} (stack : start.stack = id :: below)
    (holds : Inv start.state) (unknown : loop.known start.state id = false)
    (ready : ∀ dependency ∈ dependencies id, loop.known start.state dependency = true) :
    Works loop view step Inv start below [id] := by
  obtain ⟨_, computed, state⟩ := start
  obtain rfl : _ = id :: below := stack
  obtain ⟨asking, asked, askingHolds, sameView, sameKnown⟩ := follows.asks id state listed holds unknown
  have stillReady : ∀ dependency ∈ dependencies id, loop.known asking dependency = true :=
    fun dependency member => (sameKnown dependency).trans (ready dependency member)
  obtain ⟨outcome, next, computes, stepped, well⟩ := follows.computes id asking listed askingHolds
    ((sameKnown id).trans unknown) stillReady
  refine ⟨outcome, ⟨below, id :: computed, next⟩,
    leads_of_turn (turn_of_ready unknown asked stillReady computes), ⟨[id], [], rfl, rfl, fun _ => rfl⟩,
    ?_, ?_⟩
  · rw [workAll, ← sameView, stepped]
    cases outcome <;> rfl
  · intro ends
    obtain ⟨nextHolds, nextKnown⟩ := well ends
    refine ⟨rfl, nextHolds, fun other => ?_⟩
    rw [nextKnown other, sameKnown other, List.mem_singleton]

section Visiting

variable {done : Nat → Bool}

def VisitWorks (loop : WorkLoop S) (view : S → M) (step : Nat → M → Option (Except Error Unit × M))
    (dependencies : Nat → List Nat) (Inv : S → Prop) (done : Nat → Bool) (bound id : Nat) : Prop :=
  ∀ {schedule : Schedule}, schedule.Valid dependencies done → ∀ {added : List Nat},
    (Schedule.visit dependencies done bound id schedule).latestFirst =
      added ++ schedule.latestFirst →
    ∀ {start : Frame S} {below : List Nat}, start.stack = id :: below → Inv start.state →
      (∀ other, loop.known start.state other = true ↔ schedule.Settled done other) →
      Works loop view step Inv start below added.reverse

-- `pushed` tells which children were not known when they were put on the stack. Those that are not on
-- the stack are not planned either.
theorem Follows.children_work (follows : Follows loop view step dependencies Listed Inv) {bound : Nat}
    {schedule : Schedule} (valid : schedule.Valid dependencies done) {pushed : Nat → Bool}
    {children : List Nat} (smaller : ∀ child ∈ children, child < bound)
    (each : ∀ child ∈ children, VisitWorks loop view step dependencies Inv done bound child)
    {start : Frame S} {below : List Nat}
    (stack : start.stack = (children.filter pushed).reverse ++ below)
    (unpushed : ∀ child ∈ children, pushed child = false → loop.known start.state child = true)
    (holds : Inv start.state)
    (known : ∀ other, loop.known start.state other = true ↔ schedule.Settled done other)
    {added : List Nat}
    (lists : (children.foldr (Schedule.visit dependencies done bound) schedule).latestFirst =
      added ++ schedule.latestFirst) :
    Works loop view step Inv start below added.reverse := by
  induction children generalizing added below with
  | nil =>
    obtain rfl : added = [] := List.self_eq_append_left.mp lists
    obtain rfl : start.stack = below := stack
    exact works_nil holds
  | cons child rest ih =>
    have later : ∀ other ∈ rest, other < bound :=
      fun other member => smaller other (List.mem_cons_of_mem child member)
    obtain ⟨visited, _⟩ := Schedule.visit_all_visited follows.earlier valid rest later
    obtain ⟨early, earlyLists, _⟩ := visited.added
    obtain ⟨next, _⟩ :=
      Schedule.visit_visited follows.earlier bound (smaller child List.mem_cons_self) visited.valid
    obtain ⟨late, lateLists, _⟩ := next.added
    obtain rfl : added = late ++ early := by
      refine List.append_cancel_right (lists.symm.trans ?_)
      rw [List.foldr_cons, lateLists, earlyLists, List.append_assoc]
    rw [List.reverse_append]
    have split : start.stack =
        (rest.filter pushed).reverse ++ ((if pushed child then [child] else []) ++ below) := by
      rw [stack, List.filter_cons]
      split <;> simp
    have first := ih later (fun other member => each other (List.mem_cons_of_mem child member)) split
      (fun other member => unpushed other (List.mem_cons_of_mem child member)) earlyLists
    refine first.append fun middle middleStack middleHolds middleKnown => ?_
    have settled : ∀ other, loop.known middle.state other = true ↔
        (rest.foldr (Schedule.visit dependencies done bound) schedule).Settled done other := by
      intro other
      rw [middleKnown other, known other, Schedule.settled_append earlyLists, List.mem_reverse]
    by_cases waits : pushed child
    · rw [if_pos waits] at middleStack
      exact each child List.mem_cons_self visited.valid lateLists middleStack middleHolds settled
    · rw [if_neg waits] at middleStack
      obtain rfl : middle.stack = below := middleStack
      have already : loop.known middle.state child = true := (middleKnown child).mpr
        (.inl (unpushed child List.mem_cons_self (Bool.not_eq_true _ ▸ waits)))
      have nothing := Schedule.visit_of_settled visited.valid bound ((settled child).mp already)
      rw [nothing] at lateLists
      obtain rfl : late = [] := List.self_eq_append_left.mp lateLists
      exact works_nil middleHolds

-- The induction is on the bound of the visit. A node with pending dependencies comes to the top again
-- once they are known, and only then is it computed.
theorem Follows.visit_works (follows : Follows loop view step dependencies Listed Inv) (bound : Nat)
    {id : Nat} (below : id < bound) (listed : Listed id) :
    VisitWorks loop view step dependencies Inv done bound id := by
  induction bound generalizing id with
  | zero => omega
  | succ bound ih =>
    intro schedule valid added lists start rest stack holds known
    obtain ⟨_, computed, state⟩ := start
    obtain rfl : _ = id :: rest := stack
    dsimp only at holds known
    by_cases settled : schedule.Settled done id
    · rw [Schedule.visit_of_settled valid (bound + 1) settled] at lists
      obtain rfl : added = [] := List.self_eq_append_left.mp lists
      exact .after (turn_of_known ((known id).mpr settled)) rfl rfl (fun _ => rfl) (works_nil holds)
    · have unknown : loop.known state id = false := by
        rw [Bool.eq_false_iff]
        exact fun isKnown => settled ((known id).mp isKnown)
      have planned : ¬(done id || schedule.planned.contains id) := by
        rw [Bool.or_eq_true, Std.HashSet.contains_iff_mem, valid.planned id]
        exact settled
      unfold Schedule.visit at lists
      rw [if_neg planned] at lists
      have smaller : ∀ child ∈ dependencies id, child < bound := fun child member =>
        Nat.lt_of_lt_of_le (follows.earlier id child member) (Nat.le_of_lt_succ below)
      have each : ∀ child ∈ dependencies id,
          VisitWorks loop view step dependencies Inv done bound child := fun child member =>
        ih (smaller child member) (follows.inherited id listed child member)
      -- Pushing the pending dependencies takes a turn of its own, unless there are none.
      have finishes : ∀ {frame : Frame S},
          frame.stack = ((dependencies id).filter fun other => !loop.known state other).reverse ++
            id :: rest →
          Inv frame.state → (∀ other, loop.known frame.state other = loop.known state other) →
          Works loop view step Inv frame rest added.reverse := by
        intro frame frameStack frameHolds same
        obtain ⟨visited, childrenSettled⟩ := Schedule.foldr_visited
          (fun child childBelow _ => Schedule.visit_visited follows.earlier bound
            (Nat.lt_of_lt_of_le childBelow (Nat.le_of_lt_succ below)))
          valid (dependencies id) (follows.earlier id)
        obtain ⟨early, earlyLists, earlySmaller⟩ := visited.added
        obtain rfl : added = [id] ++ early := by
          refine List.append_cancel_right (lists.symm.trans ?_)
          rw [Schedule.add, earlyLists]
          rfl
        rw [List.reverse_append]
        have worked := follows.children_work valid smaller each frameStack
          (fun child _ isKnown => by simpa [same child] using isKnown) frameHolds
          (fun other => by rw [same other]; exact known other) earlyLists
        refine worked.append fun middle middleStack middleHolds middleKnown => ?_
        refine follows.compute_works listed middleStack middleHolds ?_ ?_
        · rw [Bool.eq_false_iff]
          intro isKnown
          rcases (middleKnown id).mp isKnown with before | new
          · rw [same id, unknown] at before
            contradiction
          · exact Nat.lt_irrefl id (earlySmaller id (List.mem_reverse.mp new))
        · intro child member
          rw [middleKnown child, same child, known child, List.mem_reverse,
            ← Schedule.settled_append earlyLists]
          exact childrenSettled child member
      by_cases pending : (dependencies id).filter (fun other => !loop.known state other) = []
      · exact finishes (by rw [pending]; rfl) holds fun _ => rfl
      · obtain ⟨next, asked, nextHolds, sameView, sameKnown⟩ :=
          follows.asks id state listed holds unknown
        simp only [← sameKnown] at pending
        refine .after (turn_of_pending unknown asked pending) rfl sameView sameKnown
          (finishes ?_ nextHolds sameKnown)
        simp only [sameKnown]

end Visiting

theorem Follows.ends (follows : Follows loop view step dependencies Listed Inv) {root : Nat}
    (listed : Listed root) (state : S) (holds : Inv state) :
    ∃ outcome final, loop.Ends [root] state outcome final ∧
      workAll step (schedule dependencies (loop.known state) root) (view state) =
        some (outcome, view final.state) ∧
      (outcome = .ok () → Inv final.state ∧ loop.known final.state root = true) := by
  have scheduled := schedule_scheduled dependencies (loop.known state) follows.earlier root
  obtain ⟨visited, _⟩ := Schedule.visit_visited follows.earlier (root + 1) (Nat.lt_succ_self root)
    (Schedule.empty_valid : Schedule.Valid dependencies (loop.known state) .empty)
  obtain ⟨added, lists, _⟩ := visited.added
  have order : schedule dependencies (loop.known state) root = added.reverse := by
    rw [schedule, lists]
    simp [Schedule.empty]
  rw [order] at scheduled ⊢
  have top : (Frame.mk [root] [] state).stack = [root] := rfl
  obtain ⟨outcome, final, reaches⟩ := follows.visit_works (root + 1) (Nat.lt_succ_self root) listed
    Schedule.empty_valid lists top holds
    (fun other => by simp [Schedule.Settled, Schedule.empty])
  obtain ⟨worked, rest, split, computed, _⟩ := reaches.computed
  rw [List.append_nil] at computed
  have rootKnown := scheduled.root
  rw [split] at scheduled
  refine ⟨outcome, final, ⟨reaches.leads, fun well => (reaches.well well).1, ?_, ?_⟩, reaches.same, ?_⟩
  · rw [computed, List.nodup_reverse]
    exact (List.nodup_append.mp scheduled.once).1
  · intro id member
    rw [computed, List.mem_reverse] at member
    exact scheduled.isOpen id (List.mem_append_left rest member)
  · intro well
    obtain ⟨_, finalHolds, finalKnown⟩ := reaches.well well
    exact ⟨finalHolds, (finalKnown root).mpr rootKnown⟩

end Following

end WorkLoop

end ArithCircuit
