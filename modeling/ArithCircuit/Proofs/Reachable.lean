import ArithCircuit.Circuit.Reachable
import ArithCircuit.Formula

set_option autoImplicit false

namespace ArithCircuit

theorem eq_of_ascending {first second : List Nat} (ascending : first.Pairwise (· < ·))
    (alsoAscending : second.Pairwise (· < ·)) (same : ∀ id, id ∈ first ↔ id ∈ second) :
    first = second := by
  have permuted : first.Perm second :=
    (List.perm_ext_iff_of_nodup (ascending.imp Nat.ne_of_lt) (alsoAscending.imp Nat.ne_of_lt)).mpr same
  exact permuted.eq_of_pairwise (fun _ _ _ _ less greater => absurd greater (Nat.lt_asymm less))
    ascending alsoAscending

namespace Circuit

inductive Reaches (circuit : Circuit) : Nat → Nat → Prop where
  | refl (id : Nat) : Reaches circuit id id
  | step {id child target : Nat} (member : child ∈ circuit.children id)
      (rest : Reaches circuit child target) : Reaches circuit id target

theorem Reaches.trans {circuit : Circuit} {first second third : Nat}
    (start : circuit.Reaches first second) (next : circuit.Reaches second third) :
    circuit.Reaches first third := by
  induction start with
  | refl => exact next
  | step member _ ih => exact .step member (ih next)

theorem Reaches.child {circuit : Circuit} {root id child : Nat} (reaches : circuit.Reaches root id)
    (member : child ∈ circuit.children id) : circuit.Reaches root child :=
  reaches.trans (.step member (.refl child))

theorem Reaches.le {circuit : Circuit} {root id : Nat} (reaches : circuit.Reaches root id) :
    id ≤ root := by
  induction reaches with
  | refl => exact Nat.le_refl _
  | step member _ ih =>
    have smaller := circuit.lt_of_mem_children member
    omega

theorem Reaches.of_closed {circuit : Circuit} {holds : Nat → Prop}
    (closed : ∀ id, holds id → ∀ child ∈ circuit.children id, holds child) {root id : Nat}
    (reaches : circuit.Reaches root id) (start : holds root) : holds id := by
  induction reaches with
  | refl => exact start
  | step childMember _ ih => exact ih (closed _ start _ childMember)

-- A sweep with the nodes below `bound` still ahead of it: what has been found is in order, and the
-- children of a found node are found or marked.
structure Sweeping (circuit : Circuit) (bound : Nat) (marked : Std.HashSet Nat) (found : List Nat) :
    Prop where
  ascending : found.Pairwise (· < ·)
  above : ∀ id ∈ found, bound ≤ id
  closed : ∀ id ∈ found, ∀ child ∈ circuit.children id, child ∈ found ∨ child < bound ∧ child ∈ marked

theorem Sweeping.keep {circuit : Circuit} {id : Nat} {marked : Std.HashSet Nat} {found : List Nat}
    (sweeping : circuit.Sweeping (id + 1) marked found) :
    circuit.Sweeping id (marked.insertMany (circuit.children id)) (id :: found) where
  ascending := List.pairwise_cons.mpr ⟨sweeping.above, sweeping.ascending⟩
  above := by
    intro other member
    cases List.mem_cons.mp member with
    | inl same => exact Nat.le_of_eq same.symm
    | inr later => exact Nat.le_of_succ_le (sweeping.above other later)
  closed := by
    intro other member child childMember
    cases List.mem_cons.mp member with
    | inl same =>
      subst same
      refine .inr ⟨circuit.lt_of_mem_children childMember, ?_⟩
      exact Std.HashSet.mem_insertMany_list.mpr (.inr (by simpa using childMember))
    | inr later =>
      cases sweeping.closed other later child childMember with
      | inl already => exact .inl (List.mem_cons_of_mem id already)
      | inr ahead =>
        obtain ⟨below, isMarked⟩ := ahead
        by_cases same : child = id
        · exact .inl (same ▸ List.mem_cons_self)
        · exact .inr ⟨by omega, Std.HashSet.mem_insertMany_list.mpr (.inl isMarked)⟩

theorem Sweeping.skip {circuit : Circuit} {id : Nat} {marked : Std.HashSet Nat} {found : List Nat}
    (sweeping : circuit.Sweeping (id + 1) marked found) (unmarked : id ∉ marked) :
    circuit.Sweeping id marked found where
  ascending := sweeping.ascending
  above := fun other member => Nat.le_of_succ_le (sweeping.above other member)
  closed := by
    intro other member child childMember
    cases sweeping.closed other member child childMember with
    | inl already => exact .inl already
    | inr ahead =>
      obtain ⟨below, isMarked⟩ := ahead
      have different : child ≠ id := by
        intro same
        subst same
        exact unmarked isMarked
      exact .inr ⟨by omega, isMarked⟩

theorem sweep_sweeping {circuit : Circuit} {bound : Nat} {marked : Std.HashSet Nat} {found : List Nat}
    (sweeping : circuit.Sweeping bound marked found) :
    ∃ last, circuit.Sweeping 0 last (circuit.sweep bound marked found) ∧
      ∀ id, id ∈ found ∨ id < bound ∧ id ∈ marked → id ∈ circuit.sweep bound marked found := by
  induction bound generalizing marked found with
  | zero =>
    refine ⟨marked, sweeping, ?_⟩
    intro id member
    cases member with
    | inl already => exact already
    | inr ahead => exact absurd ahead.1 (Nat.not_lt_zero id)
  | succ id ih =>
    by_cases isMarked : marked.contains id
    · rw [sweep, if_pos isMarked]
      obtain ⟨last, finished, complete⟩ := ih sweeping.keep
      refine ⟨last, finished, ?_⟩
      intro other member
      apply complete
      cases member with
      | inl already => exact .inl (List.mem_cons_of_mem id already)
      | inr ahead =>
        obtain ⟨below, otherMarked⟩ := ahead
        by_cases same : other = id
        · exact .inl (same ▸ List.mem_cons_self)
        · exact .inr ⟨by omega, Std.HashSet.mem_insertMany_list.mpr (.inl otherMarked)⟩
    · rw [sweep, if_neg isMarked]
      have unmarked : id ∉ marked := fun member => isMarked (Std.HashSet.contains_iff_mem.mpr member)
      obtain ⟨last, finished, complete⟩ := ih (sweeping.skip unmarked)
      refine ⟨last, finished, ?_⟩
      intro other member
      apply complete
      cases member with
      | inl already => exact .inl already
      | inr ahead =>
        obtain ⟨below, otherMarked⟩ := ahead
        have different : other ≠ id := by
          intro same
          subst same
          exact unmarked otherMarked
        exact .inr ⟨by omega, otherMarked⟩

theorem sweep_only {circuit : Circuit} {P : Nat → Prop}
    (inherited : ∀ id, P id → ∀ child ∈ circuit.children id, P child) {bound : Nat}
    {marked : Std.HashSet Nat} {found : List Nat} (markedHold : ∀ id ∈ marked, P id)
    (foundHold : ∀ id ∈ found, P id) : ∀ id ∈ circuit.sweep bound marked found, P id := by
  induction bound generalizing marked found with
  | zero => exact foundHold
  | succ id ih =>
    by_cases isMarked : marked.contains id
    · rw [sweep, if_pos isMarked]
      have holds := markedHold id (Std.HashSet.contains_iff_mem.mp isMarked)
      apply ih
      · intro other member
        cases Std.HashSet.mem_insertMany_list.mp member with
        | inl already => exact markedHold other already
        | inr isChild => exact inherited id holds other (by simpa using isChild)
      · intro other member
        cases List.mem_cons.mp member with
        | inl same => exact same ▸ holds
        | inr later => exact foundHold other later
    · rw [sweep, if_neg isMarked]
      exact ih markedHold foundHold

theorem reachable?_eq {circuit : Circuit} {roots : List Nat}
    (inRange : ∀ root ∈ roots, root < circuit.size) :
    ∃ ids, circuit.reachable? roots = some ids ∧ ids.Pairwise (· < ·) ∧
      ∀ id, id ∈ ids ↔ ∃ root ∈ roots, circuit.Reaches root id := by
  have start : circuit.Sweeping circuit.size (Std.HashSet.ofList roots) [] :=
    ⟨.nil, by simp, by simp⟩
  obtain ⟨last, finished, complete⟩ := sweep_sweeping start
  have closed : ∀ id ∈ circuit.sweep circuit.size (Std.HashSet.ofList roots) [],
      ∀ child ∈ circuit.children id,
        child ∈ circuit.sweep circuit.size (Std.HashSet.ofList roots) [] := by
    intro id member child childMember
    cases finished.closed id member child childMember with
    | inl already => exact already
    | inr ahead => exact absurd ahead.1 (Nat.not_lt_zero child)
  have marked : ∀ id, id ∈ Std.HashSet.ofList roots ↔ id ∈ roots := by
    intro id
    simp [Std.HashSet.mem_ofList]
  refine ⟨circuit.sweep circuit.size (Std.HashSet.ofList roots) [], if_pos ?_,
    finished.ascending, ?_⟩
  · simpa [contains] using inRange
  · intro id
    constructor
    · have only := @sweep_only circuit (fun id => ∃ root ∈ roots, circuit.Reaches root id)
      apply only
      · intro other reached child member
        obtain ⟨root, isRoot, reaches⟩ := reached
        exact ⟨root, isRoot, reaches.child member⟩
      · intro root member
        exact ⟨root, (marked root).mp member, .refl root⟩
      · intro other none
        contradiction
    · intro finished
      obtain ⟨root, isRoot, reaches⟩ := finished
      exact reaches.of_closed closed
        (complete root (.inr ⟨inRange root isRoot, (marked root).mpr isRoot⟩))

end Circuit

end ArithCircuit
