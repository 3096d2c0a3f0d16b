import ArithCircuit.Proofs.Joining
import ArithCircuit.Proofs.Reachable
import ArithCircuit.Proofs.Schedule
import ArithCircuit.Rewrite.FanOut
import Mathlib.Data.List.Flatten
import Mathlib.Data.List.Perm.Subperm

set_option autoImplicit false

namespace ArithCircuit

namespace Circuit

def usesBy (circuit : Circuit) (users : List Nat) (id : Nat) : Nat :=
  (users.flatMap circuit.children).count id

section Uses

variable (circuit : Circuit)

theorem usesBy_nil (id : Nat) : circuit.usesBy [] id = 0 := rfl

theorem usesBy_cons (user : Nat) (users : List Nat) (id : Nat) :
    circuit.usesBy (user :: users) id = (circuit.children user).count id + circuit.usesBy users id := by
  rw [usesBy, List.flatMap_cons, List.count_append]
  rfl

theorem usesBy_append (users others : List Nat) (id : Nat) :
    circuit.usesBy (users ++ others) id = circuit.usesBy users id + circuit.usesBy others id := by
  rw [usesBy, List.flatMap_append, List.count_append]
  rfl

variable {circuit}

theorem usesBy_of_perm {users others : List Nat} (reordered : users.Perm others) (id : Nat) :
    circuit.usesBy users id = circuit.usesBy others id :=
  (reordered.flatMap_right circuit.children).count_eq id

theorem usesBy_le_of_subset {users others : List Nat} (once : users.Nodup) (subset : users ⊆ others)
    (id : Nat) : circuit.usesBy users id ≤ circuit.usesBy others id := by
  obtain ⟨chosen, reordered, sublist⟩ := once.subperm subset
  rw [← usesBy_of_perm reordered]
  exact (sublist.flatMap circuit.children).count_le id

theorem usesBy_of_extends {old new : Circuit} (extended : old.Extends new) {users : List Nat}
    (inRange : ∀ user ∈ users, user < old.size) (id : Nat) :
    new.usesBy users id = old.usesBy users id := by
  rw [usesBy, usesBy, flatMap_children_of_extends extended inRange]

theorem eq_of_sole_use {users : List Nat} {id first second : Nat} (sole : circuit.usesBy users id ≤ 1)
    (firstUser : first ∈ users) (secondUser : second ∈ users) (usedFirst : id ∈ circuit.children first)
    (usedSecond : id ∈ circuit.children second) : first = second := by
  by_contra different
  have pair : [first, second].Nodup := by simpa using different
  have subset : [first, second] ⊆ users := by simp [firstUser, secondUser]
  have both : circuit.usesBy [first, second] id ≤ circuit.usesBy users id :=
    usesBy_le_of_subset pair subset id
  rw [usesBy_cons, usesBy_cons, usesBy_nil] at both
  have once := List.count_pos_iff.mpr usedFirst
  have again := List.count_pos_iff.mpr usedSecond
  omega

theorem usesBy_filter (users : List Nat) (id : Nat) :
    circuit.usesBy (users.filter (id < ·)) id = circuit.usesBy users id := by
  induction users with
  | nil => rfl
  | cons user users ih =>
    by_cases later : id < user
    · rw [List.filter_cons_of_pos (by simpa using later), usesBy_cons, usesBy_cons, ih]
    · have unused : (circuit.children user).count id = 0 :=
        List.count_eq_zero.mpr fun member => later (circuit.lt_of_mem_children member)
      rw [List.filter_cons_of_neg (by simpa using later), usesBy_cons, unused, ih, Nat.zero_add]

-- Nodes that are split below `tops`, each for its only user, are split once. The induction is on the
-- distance from the last node: a node that is split twice has a user that is split twice.
theorem nodup_of_sole_use {tops splits : List Nat} (once : tops.Nodup)
    (apart : ∀ id ∈ splits, id ∉ tops) (inRange : ∀ id ∈ splits, id < circuit.size)
    (used : ∀ id, splits.count id ≤ circuit.usesBy (tops ++ splits) id)
    (sole : ∀ id ∈ splits, ∀ users : List Nat, users.Nodup → users ⊆ tops ++ splits →
      circuit.usesBy users id ≤ 1) : (tops ++ splits).Nodup := by
  have each : ∀ id, splits.count id ≤ 1 := by
    intro id
    induction distance : circuit.size - id using Nat.strongRecOn generalizing id with
    | ind n ih =>
      by_cases member : id ∈ splits
      · have laterOnce : (splits.filter (id < ·)).Nodup := by
          refine List.nodup_iff_count_le_one.mpr fun other => ?_
          by_cases later : id < other
          · rw [List.count_filter (by simpa using later)]
            have below := inRange id member
            exact ih (circuit.size - other) (by omega) other rfl
          · rw [List.count_eq_zero.mpr (by simp [later])]
            exact Nat.zero_le 1
        have users : ((tops ++ splits).filter (id < ·)).Nodup := by
          rw [List.filter_append, List.nodup_append]
          refine ⟨once.filter _, laterOnce, ?_⟩
          intro top isTop split isSplit same
          subst same
          exact apart top (List.mem_filter.mp isSplit).1 (List.mem_filter.mp isTop).1
        have atMost := sole id member _ users (List.filter_subset_self _)
        rw [usesBy_filter] at atMost
        exact Nat.le_trans (used id) atMost
      · rw [List.count_eq_zero.mpr member]
        exact Nat.zero_le 1
  rw [List.nodup_append]
  refine ⟨once, List.nodup_iff_count_le_one.mpr each, ?_⟩
  intro top isTop split isSplit same
  subst same
  exact apart top isSplit isTop

end Uses

end Circuit

namespace FanOut

theorem usesOf_addUse (fanOut : FanOut) (child id : Nat) :
    (fanOut.addUse child).usesOf id = fanOut.usesOf id + [child].count id := by
  rw [usesOf, addUse, Std.HashMap.getD_insert]
  by_cases same : child = id
  · subst same
    simp
  · simp [same, usesOf]

theorem foldl_addUse (fanOut : FanOut) (children : List Nat) :
    (children.foldl addUse fanOut).counted = fanOut.counted ∧
      ∀ id, (children.foldl addUse fanOut).usesOf id = fanOut.usesOf id + children.count id := by
  induction children generalizing fanOut with
  | nil => exact ⟨rfl, fun _ => rfl⟩
  | cons child rest ih =>
    obtain ⟨counted, uses⟩ := ih (fanOut.addUse child)
    refine ⟨counted, fun id => ?_⟩
    have split : ([child] ++ rest).count id = [child].count id + rest.count id := List.count_append
    rw [List.singleton_append] at split
    rw [List.foldl_cons, uses, usesOf_addUse, split, Nat.add_assoc]

theorem foldl_countNode (circuit : Circuit) (fanOut : FanOut) (order : List Nat) :
    (∀ id, id ∈ (order.foldl (countNode circuit) fanOut).counted ↔ id ∈ order ∨ id ∈ fanOut.counted) ∧
      ∀ id, (order.foldl (countNode circuit) fanOut).usesOf id =
        fanOut.usesOf id + circuit.usesBy order id := by
  induction order generalizing fanOut with
  | nil => exact ⟨by simp, fun _ => rfl⟩
  | cons user rest ih =>
    obtain ⟨counted, uses⟩ := ih (countNode circuit fanOut user)
    obtain ⟨entered, added⟩ := foldl_addUse
      { fanOut with counted := fanOut.counted.insert user } (circuit.children user)
    constructor
    · intro id
      rw [List.foldl_cons, counted, countNode, entered]
      simp only [Std.HashSet.mem_insert, beq_iff_eq, List.mem_cons]
      grind
    · intro id
      rw [List.foldl_cons, uses, countNode, added, Circuit.usesBy_cons, Nat.add_assoc]
      rfl

-- What has been counted: the nodes below some roots, each once. New forms may have further uses.
structure Counts (circuit : Circuit) (fanOut : FanOut) (users : List Nat) : Prop where
  once : users.Nodup
  counted : ∀ id, id ∈ fanOut.counted ↔ id ∈ users
  inRange : ∀ user ∈ users, user < circuit.size
  closed : ∀ user ∈ users, ∀ child ∈ circuit.children user, child ∈ users
  uses : ∀ id, circuit.usesBy users id ≤ fanOut.usesOf id

theorem empty_counts (circuit : Circuit) : Counts circuit .empty [] where
  once := .nil
  counted := by simp [empty]
  inRange := by simp
  closed := by simp
  uses := by simp [Circuit.usesBy_nil]

theorem Counts.of_extends {old new : Circuit} {fanOut : FanOut} {users : List Nat}
    (extended : old.Extends new) (counts : Counts old fanOut users) : Counts new fanOut users where
  once := counts.once
  counted := counts.counted
  inRange := fun user member =>
    Nat.lt_of_lt_of_le (counts.inRange user member) (Circuit.size_le_of_extends extended)
  closed := by
    intro user member child childMember
    rw [Circuit.children_of_extends extended (counts.inRange user member)] at childMember
    exact counts.closed user member child childMember
  uses := by
    intro id
    rw [Circuit.usesBy_of_extends extended counts.inRange]
    exact counts.uses id

theorem Counts.of_older {old new : Circuit} {fanOut : FanOut} {users : List Nat}
    (extended : old.Extends new) (older : ∀ user ∈ users, user < old.size)
    (counts : Counts new fanOut users) : Counts old fanOut users where
  once := counts.once
  counted := counts.counted
  inRange := older
  closed := by
    intro user member child childMember
    rw [← Circuit.children_of_extends extended (older user member)] at childMember
    exact counts.closed user member child childMember
  uses := by
    intro id
    rw [← Circuit.usesBy_of_extends extended older]
    exact counts.uses id

theorem Counts.mem_of_reaches {circuit : Circuit} {fanOut : FanOut} {users : List Nat}
    (counts : Counts circuit fanOut users) {root id : Nat} (member : root ∈ users)
    (reaches : circuit.Reaches root id) : id ∈ users :=
  reaches.of_closed counts.closed member

theorem Counts.uses_le_one {circuit : Circuit} {fanOut : FanOut} {users : List Nat}
    (counts : Counts circuit fanOut users) {id : Nat} (unshared : fanOut.isShared id = false) :
    circuit.usesBy users id ≤ 1 := by
  have few : fanOut.usesOf id ≤ 1 := by simpa [isShared] using unshared
  exact Nat.le_trans (counts.uses id) few

theorem exists_count? (fanOut : FanOut) {circuit : Circuit} {root : Nat} (inRange : root < circuit.size) :
    ∃ counted, fanOut.count? circuit root = some counted :=
  ⟨_, if_pos (by simpa [Circuit.contains] using inRange)⟩

theorem Counts.contains_iff {circuit : Circuit} {fanOut : FanOut} {users : List Nat}
    (counts : Counts circuit fanOut users) (id : Nat) :
    fanOut.counted.contains id = true ↔ id ∈ users :=
  Std.HashSet.contains_iff_mem.trans (counts.counted id)

theorem Counts.after_schedule {circuit : Circuit} {fanOut : FanOut} {users fresh : List Nat} {root : Nat}
    (counts : Counts circuit fanOut users) (inRange : root < circuit.size)
    (scheduled : Scheduled circuit.children fanOut.counted.contains root fresh) :
    Counts circuit (fresh.foldl (countNode circuit) fanOut) (fresh ++ users) where
  once := by
    refine List.nodup_append.mpr ⟨scheduled.once, counts.once, ?_⟩
    rintro id isFresh _ isUser rfl
    have isOpen := scheduled.isOpen id isFresh
    rw [(counts.contains_iff id).mpr isUser] at isOpen
    contradiction
  counted := by
    intro id
    rw [(foldl_countNode circuit fanOut fresh).1, counts.counted, List.mem_append]
  inRange := by
    intro id member
    cases List.mem_append.mp member with
    | inl isFresh => exact Nat.lt_of_le_of_lt (scheduled.bounded id isFresh) inRange
    | inr isUser => exact counts.inRange id isUser
  closed := by
    intro id member child childMember
    cases List.mem_append.mp member with
    | inl isFresh =>
      have settled := scheduled.inOrder.settled id isFresh child childMember
      exact List.mem_append.mpr (settled.symm.imp_right (counts.contains_iff child).mp)
    | inr isUser => exact List.mem_append_right fresh (counts.closed id isUser child childMember)
  uses := by
    intro id
    rw [(foldl_countNode circuit fanOut fresh).2, Circuit.usesBy_append]
    have before := counts.uses id
    omega

theorem count?_counts {circuit : Circuit} {fanOut counted : FanOut} {users : List Nat} {root : Nat}
    (counts : Counts circuit fanOut users) (inRange : root < circuit.size)
    (counting : fanOut.count? circuit root = some counted) :
    ∃ fresh, Counts circuit counted (fresh ++ users) ∧ root ∈ fresh ++ users ∧
      (∀ id ∈ fresh, circuit.Reaches root id) ∧
      ∀ id, counted.usesOf id = fanOut.usesOf id + circuit.usesBy fresh id := by
  rw [count?, if_pos (by simpa [Circuit.contains] using inRange)] at counting
  obtain rfl := Option.some.inj counting
  have scheduled := schedule_scheduled circuit.children fanOut.counted.contains
    (fun _ _ => circuit.lt_of_mem_children) root
  refine ⟨_, counts.after_schedule inRange scheduled, ?_, ?_, ?_⟩
  · exact List.mem_append.mpr (scheduled.root.symm.imp_right (counts.contains_iff root).mp)
  · exact schedule_only (fun _ _ reaches _ member => reaches.child member) (.refl root)
  · exact (foldl_countNode circuit fanOut _).2

-- How a fan-out changes while nodes get their forms: only nodes from `limit` on gain uses.
structure Inherits (limit : Nat) (old new : FanOut) : Prop where
  counted : new.counted = old.counted
  more : ∀ id, old.usesOf id ≤ new.usesOf id
  same : ∀ id < limit, new.usesOf id = old.usesOf id

namespace Inherits

variable {limit : Nat} {first second third : FanOut}

theorem refl (limit : Nat) (fanOut : FanOut) : Inherits limit fanOut fanOut :=
  ⟨rfl, fun _ => Nat.le_refl _, fun _ _ => rfl⟩

theorem trans (start : Inherits limit first second) (next : Inherits limit second third) :
    Inherits limit first third where
  counted := next.counted.trans start.counted
  more := fun id => Nat.le_trans (start.more id) (next.more id)
  same := fun id below => (next.same id below).trans (start.same id below)

theorem isShared_eq (inherits : Inherits limit first second) {id : Nat} (below : id < limit) :
    second.isShared id = first.isShared id := by
  rw [isShared, isShared, inherits.same id below]

theorem isShared_of_isShared (inherits : Inherits limit first second) {id : Nat}
    (shared : first.isShared id = true) : second.isShared id = true := by
  have several : 1 < first.usesOf id := by simpa [isShared] using shared
  simpa [isShared] using Nat.lt_of_lt_of_le several (inherits.more id)

end Inherits

theorem inherit_inherits {fanOut : FanOut} {old new limit : Nat} (isNew : new = old ∨ limit ≤ new) :
    Inherits limit fanOut (fanOut.inherit old new) := by
  unfold inherit
  by_cases moved : old ≠ new ∧ fanOut.isShared old
  · rw [if_pos moved]
    refine ⟨rfl, fun id => ?_, fun id below => ?_⟩
    · simp only [usesOf, Std.HashMap.getD_insert]
      by_cases same : new = id
      · subst same
        rw [if_pos (beq_self_eq_true new)]
        exact Nat.le_max_left _ _
      · exact Nat.le_of_eq (if_neg (by simpa using same)).symm
    · have different : new ≠ id := by
        rcases isNew with rfl | above
        · exact absurd rfl moved.1
        · omega
      simp only [usesOf, Std.HashMap.getD_insert]
      rw [if_neg (by simpa using different)]
  · rw [if_neg moved]
    exact .refl limit fanOut

theorem isShared_inherit {fanOut : FanOut} {old : Nat} (shared : fanOut.isShared old = true)
    (new : Nat) : (fanOut.inherit old new).isShared new = true := by
  unfold inherit
  by_cases same : old = new
  · subst same
    rw [if_neg (by simp)]
    exact shared
  · rw [if_pos ⟨same, shared⟩, isShared, usesOf, Std.HashMap.getD_insert_self]
    exact decide_eq_true (Nat.lt_of_lt_of_le Nat.one_lt_two (Nat.le_max_right _ _))

theorem Counts.of_inherits {circuit : Circuit} {old new : FanOut} {users : List Nat} {limit : Nat}
    (counts : Counts circuit old users) (inherits : Inherits limit old new) :
    Counts circuit new users where
  once := counts.once
  counted := by
    intro id
    rw [inherits.counted, counts.counted]
  inRange := counts.inRange
  closed := counts.closed
  uses := fun id => Nat.le_trans (counts.uses id) (inherits.more id)

end FanOut

end ArithCircuit
