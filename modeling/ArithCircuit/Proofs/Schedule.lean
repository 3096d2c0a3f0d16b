import ArithCircuit.Schedule
import Mathlib.Data.List.Nodup

set_option autoImplicit false

namespace ArithCircuit

inductive InOrder (dependencies : Nat → List Nat) : (ready : Nat → Prop) → List Nat → Prop where
  | nil (ready : Nat → Prop) : InOrder dependencies ready []
  | cons (ready : Nat → Prop) (id : Nat) (rest : List Nat)
      (first : ∀ dependency ∈ dependencies id, ready dependency)
      (later : InOrder dependencies (fun other => ready other ∨ other = id) rest) :
      InOrder dependencies ready (id :: rest)

namespace InOrder

variable {dependencies : Nat → List Nat}

theorem mono {ready wider : Nat → Prop} {order : List Nat}
    (inOrder : InOrder dependencies ready order) (weaken : ∀ id, ready id → wider id) :
    InOrder dependencies wider order := by
  induction inOrder generalizing wider with
  | nil => exact .nil wider
  | cons ready id rest first _ ih =>
    refine .cons wider id rest (fun dependency member => weaken _ (first dependency member)) (ih ?_)
    rintro other (known | rfl)
    · exact .inl (weaken other known)
    · exact .inr rfl

theorem append {ready : Nat → Prop} {before after : List Nat}
    (first : InOrder dependencies ready before)
    (later : InOrder dependencies (fun id => ready id ∨ id ∈ before) after) :
    InOrder dependencies ready (before ++ after) := by
  induction first with
  | nil => exact later.mono (by simp)
  | cons ready id rest start _ ih =>
    refine .cons ready id (rest ++ after) start (ih (later.mono ?_))
    intro other known
    rcases known with known | member
    · exact .inl (.inl known)
    · rcases List.mem_cons.mp member with rfl | member
      · exact .inl (.inr rfl)
      · exact .inr member

theorem of_append {ready : Nat → Prop} {before after : List Nat}
    (inOrder : InOrder dependencies ready (before ++ after)) :
    InOrder dependencies ready before := by
  induction before generalizing ready with
  | nil => exact .nil ready
  | cons id rest ih =>
    cases inOrder with
    | cons _ _ _ first later => exact .cons ready id rest first (ih later)

theorem settled {ready : Nat → Prop} {order : List Nat}
    (inOrder : InOrder dependencies ready order) :
    ∀ id ∈ order, ∀ dependency ∈ dependencies id, ready dependency ∨ dependency ∈ order := by
  induction inOrder with
  | nil => simp
  | cons ready id rest first _ ih =>
    intro other member dependency needed
    rcases List.mem_cons.mp member with rfl | later
    · exact .inl (first dependency needed)
    · rcases ih other later dependency needed with (known | rfl) | listed
      · exact .inl known
      · exact .inr List.mem_cons_self
      · exact .inr (List.mem_cons_of_mem id listed)

theorem of_ascending {ready : Nat → Prop} {ids : List Nat}
    (earlier : ∀ id, ∀ dependency ∈ dependencies id, dependency < id)
    (ascending : ids.Pairwise (· < ·))
    (known : ∀ id ∈ ids, ∀ dependency ∈ dependencies id, ready dependency ∨ dependency ∈ ids) :
    InOrder dependencies ready ids := by
  induction ids generalizing ready with
  | nil => exact .nil ready
  | cons id rest ih =>
    obtain ⟨least, restAscending⟩ := List.pairwise_cons.mp ascending
    refine .cons ready id rest ?_ (ih restAscending ?_)
    · intro dependency member
      have smaller := earlier id dependency member
      rcases known id List.mem_cons_self dependency member with already | listed
      · exact already
      · rcases List.mem_cons.mp listed with same | later
        · omega
        · have := least dependency later
          omega
    · intro other member dependency needed
      rcases known other (List.mem_cons_of_mem id member) dependency needed with already | listed
      · exact .inl (.inl already)
      · exact (List.mem_cons.mp listed).imp_left .inr

end InOrder

namespace Schedule

structure Valid (dependencies : Nat → List Nat) (done : Nat → Bool) (schedule : Schedule) : Prop where
  planned : ∀ id, id ∈ schedule.planned ↔ id ∈ schedule.latestFirst
  isOpen : ∀ id ∈ schedule.latestFirst, done id = false
  once : schedule.latestFirst.Nodup
  inOrder : InOrder dependencies (fun id => done id = true) schedule.latestFirst.reverse

variable {dependencies : Nat → List Nat} {done : Nat → Bool}

def Settled (done : Nat → Bool) (schedule : Schedule) (id : Nat) : Prop :=
  done id = true ∨ id ∈ schedule.latestFirst

theorem settled_append {old new : Schedule} {added : List Nat}
    (listed : new.latestFirst = added ++ old.latestFirst) (id : Nat) :
    new.Settled done id ↔ old.Settled done id ∨ id ∈ added := by
  simp only [Settled, listed, List.mem_append]
  rw [or_assoc, or_comm (a := id ∈ added)]

theorem empty_valid : Valid dependencies done .empty where
  planned id := by simp [empty]
  isOpen := by simp [empty]
  once := by simp [empty]
  inOrder := .nil _

theorem add_valid {schedule : Schedule} {id : Nat} (valid : Valid dependencies done schedule)
    (isOpen : done id = false) (unplanned : id ∉ schedule.latestFirst)
    (settled : ∀ dependency ∈ dependencies id, schedule.Settled done dependency) :
    Valid dependencies done (schedule.add id) where
  planned other := by
    simp only [add, Std.HashSet.mem_insert, beq_iff_eq, List.mem_cons, valid.planned other]
    exact or_congr_left eq_comm
  isOpen := by
    intro other member
    rcases List.mem_cons.mp member with rfl | older
    · exact isOpen
    · exact valid.isOpen other older
  once := List.nodup_cons.mpr ⟨unplanned, valid.once⟩
  inOrder := by
    simp only [add, List.reverse_cons]
    refine valid.inOrder.append (.cons _ id [] ?_ (.nil _))
    intro dependency member
    simpa [Settled] using settled dependency member

structure Visited (dependencies : Nat → List Nat) (done : Nat → Bool) (bound : Nat)
    (old new : Schedule) : Prop where
  valid : Valid dependencies done new
  added : ∃ fresh, new.latestFirst = fresh ++ old.latestFirst ∧ ∀ id ∈ fresh, id < bound

theorem Visited.trans {bound : Nat} {first second third : Schedule}
    (start : Visited dependencies done bound first second)
    (next : Visited dependencies done bound second third) :
    Visited dependencies done bound first third := by
  obtain ⟨early, earlyEq, earlyBound⟩ := start.added
  obtain ⟨late, lateEq, lateBound⟩ := next.added
  refine ⟨next.valid, late ++ early, by rw [lateEq, earlyEq, List.append_assoc], ?_⟩
  intro id member
  rcases List.mem_append.mp member with here | there
  · exact lateBound id here
  · exact earlyBound id there

theorem Visited.settled {bound id : Nat} {old new : Schedule}
    (visited : Visited dependencies done bound old new) (settled : old.Settled done id) :
    new.Settled done id := by
  obtain ⟨fresh, same, _⟩ := visited.added
  rcases settled with known | member
  · exact .inl known
  · exact .inr (by rw [same]; exact List.mem_append_right fresh member)

theorem Visited.widen {bound wider : Nat} {old new : Schedule} (le : bound ≤ wider)
    (visited : Visited dependencies done bound old new) :
    Visited dependencies done wider old new := by
  obtain ⟨fresh, same, below⟩ := visited.added
  exact ⟨visited.valid, fresh, same, fun id member => Nat.lt_of_lt_of_le (below id member) le⟩

theorem foldr_visited {bound limit : Nat} {schedule : Schedule}
    (step : ∀ child < limit, ∀ current, Valid dependencies done current →
      Visited dependencies done (child + 1) current (visit dependencies done bound child current) ∧
        (visit dependencies done bound child current).Settled done child)
    (valid : Valid dependencies done schedule) (children : List Nat)
    (smaller : ∀ child ∈ children, child < limit) :
    Visited dependencies done limit schedule
        (children.foldr (visit dependencies done bound) schedule) ∧
      ∀ child ∈ children,
        (children.foldr (visit dependencies done bound) schedule).Settled done child := by
  induction children with
  | nil => exact ⟨⟨valid, [], rfl, by simp⟩, by simp⟩
  | cons child rest ih =>
    have childSmaller := smaller child List.mem_cons_self
    obtain ⟨visited, settled⟩ := ih fun other member => smaller other (by simp [member])
    obtain ⟨next, reached⟩ := step child childSmaller _ visited.valid
    refine ⟨visited.trans (next.widen childSmaller), ?_⟩
    intro other member
    rcases List.mem_cons.mp member with rfl | older
    · exact reached
    · exact next.settled (settled other older)

theorem visit_visited (earlier : ∀ id, ∀ dependency ∈ dependencies id, dependency < id)
    (bound : Nat) {id : Nat} (below : id < bound) {schedule : Schedule}
    (valid : Valid dependencies done schedule) :
    Visited dependencies done (id + 1) schedule (visit dependencies done bound id schedule) ∧
      (visit dependencies done bound id schedule).Settled done id := by
  induction bound generalizing id schedule with
  | zero => omega
  | succ bound ih =>
    unfold visit
    by_cases known : done id || schedule.planned.contains id
    · rw [if_pos known]
      refine ⟨⟨valid, [], rfl, by simp⟩, ?_⟩
      rcases Bool.or_eq_true_iff.mp known with isDone | isPlanned
      · exact .inl isDone
      · exact .inr ((valid.planned id).mp (Std.HashSet.contains_iff_mem.mp isPlanned))
    · rw [if_neg known]
      simp only [Bool.or_eq_true, not_or, Bool.not_eq_true] at known
      have step : ∀ child < id, ∀ current, Valid dependencies done current →
          Visited dependencies done (child + 1) current
              (visit dependencies done bound child current) ∧
            (visit dependencies done bound child current).Settled done child :=
        fun child smaller _ current => ih (Nat.lt_of_lt_of_le smaller (by omega)) current
      obtain ⟨visited, settled⟩ := foldr_visited step valid (dependencies id) (earlier id)
      obtain ⟨fresh, same, smaller⟩ := visited.added
      have unplanned : id ∉ ((dependencies id).foldr (visit dependencies done bound)
          schedule).latestFirst := by
        rw [same, List.mem_append]
        rintro (new | old)
        · exact absurd (smaller id new) (Nat.lt_irrefl id)
        · have planned := (valid.planned id).mpr old
          rw [← Std.HashSet.contains_iff_mem, known.2] at planned
          contradiction
      refine ⟨⟨add_valid visited.valid known.1 unplanned settled, id :: fresh, ?_, ?_⟩, ?_⟩
      · simp [add, same]
      · intro other member
        rcases List.mem_cons.mp member with rfl | new
        · exact Nat.lt_succ_self other
        · exact Nat.lt_succ_of_lt (smaller other new)
      · exact .inr List.mem_cons_self

theorem visit_all_visited (earlier : ∀ id, ∀ dependency ∈ dependencies id, dependency < id)
    {bound : Nat} {schedule : Schedule} (valid : Valid dependencies done schedule)
    (children : List Nat) (smaller : ∀ child ∈ children, child < bound) :
    Visited dependencies done bound schedule
        (children.foldr (visit dependencies done bound) schedule) ∧
      ∀ child ∈ children,
        (children.foldr (visit dependencies done bound) schedule).Settled done child :=
  foldr_visited (fun _ below _ current => visit_visited earlier bound below current) valid children
    smaller

theorem visit_only {P : Nat → Prop}
    (inherited : ∀ id, done id = false → P id → ∀ dependency ∈ dependencies id, P dependency)
    (bound : Nat) {id : Nat} (holds : P id) {schedule : Schedule}
    (plannedHold : ∀ other ∈ schedule.latestFirst, P other) :
    ∀ other ∈ (visit dependencies done bound id schedule).latestFirst, P other := by
  induction bound generalizing id schedule with
  | zero => exact plannedHold
  | succ bound ih =>
    unfold visit
    by_cases known : done id || schedule.planned.contains id
    · rw [if_pos known]
      exact plannedHold
    · rw [if_neg known]
      simp only [Bool.or_eq_true, not_or, Bool.not_eq_true] at known
      have below : ∀ children : List Nat, (∀ child ∈ children, P child) →
          ∀ other ∈ (children.foldr (visit dependencies done bound) schedule).latestFirst,
            P other := by
        intro children allHold
        induction children with
        | nil => exact plannedHold
        | cons child rest others =>
          exact ih (allHold child List.mem_cons_self)
            (others fun other member => allHold other (List.mem_cons_of_mem child member))
      intro other member
      rcases List.mem_cons.mp member with rfl | planned
      · exact holds
      · exact below (dependencies id) (inherited id known.1 holds) other planned

end Schedule

structure Scheduled (dependencies : Nat → List Nat) (done : Nat → Bool) (root : Nat)
    (order : List Nat) : Prop where
  inOrder : InOrder dependencies (fun id => done id = true) order
  once : order.Nodup
  isOpen : ∀ id ∈ order, done id = false
  bounded : ∀ id ∈ order, id ≤ root
  root : done root = true ∨ root ∈ order

theorem schedule_scheduled (dependencies : Nat → List Nat) (done : Nat → Bool)
    (earlier : ∀ id, ∀ dependency ∈ dependencies id, dependency < id) (root : Nat) :
    Scheduled dependencies done root (schedule dependencies done root) := by
  have start : Schedule.Valid dependencies done .empty := Schedule.empty_valid
  obtain ⟨visited, settled⟩ :=
    Schedule.visit_visited earlier (root + 1) (Nat.lt_succ_self root) start
  obtain ⟨fresh, same, smaller⟩ := visited.added
  unfold schedule
  refine ⟨visited.valid.inOrder, List.nodup_reverse.mpr visited.valid.once, ?_, ?_, ?_⟩
  · intro id member
    exact visited.valid.isOpen id (List.mem_reverse.mp member)
  · intro id member
    have listed := List.mem_reverse.mp member
    rw [same, Schedule.empty, List.append_nil] at listed
    exact Nat.le_of_lt_succ (smaller id listed)
  · rcases settled with known | member
    · exact .inl known
    · exact .inr (List.mem_reverse.mpr member)

theorem schedule_only {dependencies : Nat → List Nat} {done : Nat → Bool} {P : Nat → Prop}
    (inherited : ∀ id, done id = false → P id → ∀ dependency ∈ dependencies id, P dependency)
    {root : Nat} (holds : P root) : ∀ id ∈ schedule dependencies done root, P id := by
  intro id member
  exact Schedule.visit_only inherited (root + 1) holds (by simp [Schedule.empty]) id
    (List.mem_reverse.mp member)

end ArithCircuit
