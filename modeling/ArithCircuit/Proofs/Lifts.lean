import ArithCircuit.Proofs.Evaluation
import ArithCircuit.Proofs.Reachable

set_option autoImplicit false

namespace ArithCircuit

namespace Evaluator

section Outcomes

variable {T α β : Type} {start next : Evaluator T}

theorem run_bind_cases {first : Run T α} {rest : α → Run T β} {reply : Except Error β}
    (gives : (first >>= rest).run start = some (reply, next)) :
    (∃ result middle, first.run start = some (.ok result, middle) ∧
      (rest result).run middle = some (reply, next)) ∨
    ∃ error, first.run start = some (.error error, next) ∧ reply = .error error := by
  rw [ExceptT.run_bind] at gives
  obtain ⟨⟨outcome, middle⟩, begins, continues⟩ := Option.bind_eq_some_iff.mp gives
  cases outcome with
  | ok result => exact .inl ⟨result, middle, begins, continues⟩
  | error error =>
    obtain ⟨rfl, rfl⟩ := Prod.mk.inj (Option.some.inj continues)
    exact .inr ⟨error, begins, rfl⟩

theorem run_lookup_cases {lookup : Option α} {rest : α → Run T β} {reply : Except Error β}
    (gives : (liftM lookup >>= rest : Run T β).run start = some (reply, next)) :
    ∃ result, lookup = some result ∧ (rest result).run start = some (reply, next) := by
  cases lookup with
  | none => contradiction
  | some result => exact ⟨result, rfl, gives⟩

end Outcomes

variable {T : Type} {domain : Domain T} {inputs : String → Option T} {circuit : Circuit}

inductive Computed (domain : Domain T) (circuit : Circuit) (start : Evaluator T) (id : Nat) :
    Except Error Unit → Evaluator T → Prop where
  | constant (value : UInt64) (found : circuit.node? id = some (.constant value)) :
      Computed domain circuit start id (.ok ())
        { start.enter id (domain.lift value) with lifted := id :: start.lifted }
  | other (value : T) (notConstant : ∀ constant, circuit.node? id ≠ some (.constant constant))
      (known : ∀ child ∈ circuit.children id, child ∈ start.values) :
      Computed domain circuit start id (.ok ()) (start.enter id value)
  | unbound (name : String) :
      Computed domain circuit start id (.error (.missingInput name)) start

theorem compute_cases {start next : Evaluator T} {id : Nat} {reply : Except Error Unit}
    (gives : (compute domain inputs circuit id).run start = some (reply, next)) :
    Computed domain circuit start id reply next := by
  have begin_ : (get : Run T (Evaluator T)).run start = some (.ok start, start) := rfl
  unfold compute at gives
  rw [run_after begin_] at gives
  obtain ⟨node, found, gives⟩ := run_lookup_cases gives
  have children := Circuit.children_of_node? found
  have known_of_lookup : ∀ {child : Nat} {value : T}, start.values[child]? = some value →
      child ∈ start.values := fun lookup => by
    rw [Std.HashMap.mem_iff_isSome_getElem?, lookup]
    rfl
  cases node with
  | constant value =>
    obtain ⟨rfl, rfl⟩ := Prod.mk.inj (Option.some.inj gives)
    exact .constant value found
  | input name =>
    cases bound : inputs name with
    | none =>
      simp only [bound] at gives
      obtain ⟨rfl, rfl⟩ := Prod.mk.inj (Option.some.inj gives)
      exact .unbound name
    | some value =>
      simp only [bound] at gives
      obtain ⟨rfl, rfl⟩ := Prod.mk.inj (Option.some.inj gives)
      refine .other value (by simp [found]) ?_
      simp [children, Node.children]
  | binary op left right =>
    obtain ⟨x, leftKnown, gives⟩ := run_lookup_cases gives
    obtain ⟨y, rightKnown, gives⟩ := run_lookup_cases gives
    obtain ⟨rfl, rfl⟩ := Prod.mk.inj (Option.some.inj gives)
    refine .other _ (by simp [found]) ?_
    simp [children, Node.children, known_of_lookup leftKnown, known_of_lookup rightKnown]
  | shift direction operand amount =>
    obtain ⟨x, operandKnown, gives⟩ := run_lookup_cases gives
    obtain ⟨rfl, rfl⟩ := Prod.mk.inj (Option.some.inj gives)
    refine .other _ (by simp [found]) ?_
    simp [children, Node.children, known_of_lookup operandKnown]

-- The lifted constants are those among the valued nodes, each of them once.
structure Tracked (circuit : Circuit) (evaluator : Evaluator T) : Prop where
  once : evaluator.lifted.Nodup
  constants : ∀ id, id ∈ evaluator.lifted ↔
    id ∈ evaluator.values ∧ ∃ value, circuit.node? id = some (.constant value)
  closed : ∀ id, id ∈ evaluator.values → ∀ child ∈ circuit.children id, child ∈ evaluator.values

theorem empty_tracked (circuit : Circuit) : Tracked circuit (empty : Evaluator T) where
  once := by simp [empty]
  constants := by simp [empty]
  closed := by simp [empty]

theorem Tracked.count_eq_one {evaluator : Evaluator T} (tracked : Tracked circuit evaluator)
    {root id : Nat} {value : UInt64} (valued : root ∈ evaluator.values)
    (reaches : circuit.Reaches root id) (found : circuit.node? id = some (.constant value)) :
    evaluator.lifted.count id = 1 := by
  have known : id ∈ evaluator.values := reaches.of_closed tracked.closed valued
  have member := (tracked.constants id).mpr ⟨known, value, found⟩
  exact List.count_eq_one_of_mem tracked.once member

structure Advances (circuit : Circuit) (old new : Evaluator T) : Prop where
  kept : ∀ id, id ∈ old.values → id ∈ new.values
  tracked : Tracked circuit new

theorem Advances.trans {first second third : Evaluator T} (start : Advances circuit first second)
    (next : Advances circuit second third) : Advances circuit first third :=
  ⟨fun id known => next.kept id (start.kept id known), next.tracked⟩

theorem mem_enter {start : Evaluator T} {id other : Nat} {value : T} :
    other ∈ (start.enter id value).values ↔ other = id ∨ other ∈ start.values := by
  simp only [enter, Std.HashMap.mem_insert, beq_iff_eq]
  exact or_congr_left eq_comm

theorem Computed.advances {start next : Evaluator T} {id : Nat} {reply : Except Error Unit}
    (computed : Computed domain circuit start id reply next) (tracked : Tracked circuit start)
    (isOpen : id ∉ start.values) :
    Advances circuit start next ∧ ∀ other, other ∈ next.values → other = id ∨ other ∈ start.values := by
  cases computed with
  | constant value found =>
    have unlifted : id ∉ start.lifted := fun member => isOpen ((tracked.constants id).mp member).1
    refine ⟨⟨fun other known => mem_enter.mpr (.inr known), ?_, ?_, ?_⟩, fun other => mem_enter.mp⟩
    · exact List.nodup_cons.mpr ⟨unlifted, tracked.once⟩
    · intro other
      rw [List.mem_cons, tracked.constants other]
      change _ ↔ other ∈ (start.enter id (domain.lift value)).values ∧ _
      rw [mem_enter]
      constructor
      · rintro (rfl | ⟨known, isConstant⟩)
        · exact ⟨.inl rfl, value, found⟩
        · exact ⟨.inr known, isConstant⟩
      · rintro ⟨rfl | known, isConstant⟩
        · exact .inl rfl
        · exact .inr ⟨known, isConstant⟩
    · intro other known child member
      refine mem_enter.mpr ?_
      rcases mem_enter.mp known with rfl | older
      · simp [Circuit.children_of_node? found, Node.children] at member
      · exact .inr (tracked.closed other older child member)
  | other value notConstant known =>
    refine ⟨⟨fun other known => mem_enter.mpr (.inr known), tracked.once, ?_, ?_⟩,
      fun other => mem_enter.mp⟩
    · intro other
      rw [mem_enter]
      constructor
      · intro member
        obtain ⟨valued, isConstant⟩ := (tracked.constants other).mp member
        exact ⟨.inr valued, isConstant⟩
      · rintro ⟨rfl | valued, constant, found⟩
        · exact absurd found (notConstant constant)
        · exact (tracked.constants other).mpr ⟨valued, constant, found⟩
    · intro other valued child member
      refine mem_enter.mpr (.inr ?_)
      rcases mem_enter.mp valued with rfl | older
      · exact known child member
      · exact tracked.closed other older child member
  | unbound name => exact ⟨⟨fun _ known => known, tracked⟩, fun _ known => .inr known⟩

theorem work_advances {order : List Nat} {start next : Evaluator T} {reply : Except Error Unit}
    (once : order.Nodup) (isOpen : ∀ id ∈ order, id ∉ start.values)
    (tracked : Tracked circuit start)
    (gives : work domain inputs circuit order start = some (reply, next)) :
    Advances circuit start next := by
  induction order generalizing start with
  | nil =>
    obtain ⟨rfl, rfl⟩ := Prod.mk.inj (Option.some.inj gives)
    exact ⟨fun _ known => known, tracked⟩
  | cons id rest ih =>
    obtain ⟨notAgain, restOnce⟩ := List.nodup_cons.mp once
    unfold work at gives
    rw [List.forM_cons] at gives
    rcases run_bind_cases gives with ⟨⟨⟩, middle, begins, continues⟩ | ⟨error, begins, rfl⟩
    · obtain ⟨advances, fresh⟩ :=
        (compute_cases begins).advances tracked (isOpen id List.mem_cons_self)
      refine advances.trans (ih restOnce ?_ advances.tracked continues)
      intro other member known
      rcases fresh other known with rfl | older
      · exact notAgain member
      · exact isOpen other (List.mem_cons_of_mem id member) older
    · exact ((compute_cases begins).advances tracked (isOpen id List.mem_cons_self)).1

theorem eval_advances {start next : Evaluator T} {root : Nat} {reply : Except Error T}
    (tracked : Tracked circuit start)
    (gives : (eval domain inputs circuit root).run start = some (reply, next)) :
    Advances circuit start next ∧ ∀ value, reply = .ok value → root ∈ next.values := by
  have scheduled := schedule_scheduled circuit.children start.values.contains
    (fun _ _ => circuit.lt_of_mem_children) root
  have isOpen : ∀ id ∈ schedule circuit.children start.values.contains root, id ∉ start.values := by
    intro id member known
    have absent := scheduled.isOpen id member
    rw [Std.HashMap.contains_iff_mem.mpr known] at absent
    contradiction
  have begin_ : (get : Run T (Evaluator T)).run start = some (.ok start, start) := rfl
  unfold eval at gives
  rw [run_after begin_] at gives
  rcases run_bind_cases gives with ⟨⟨⟩, middle, works, ends⟩ | ⟨error, works, rfl⟩
  · have advances := work_advances scheduled.once isOpen tracked works
    have look : (get : Run T (Evaluator T)).run middle = some (.ok middle, middle) := rfl
    rw [run_after look] at ends
    cases found : middle.values[root]? with
    | none =>
      rw [found] at ends
      contradiction
    | some value =>
      rw [found] at ends
      obtain ⟨rfl, rfl⟩ := Prod.mk.inj (Option.some.inj ends)
      refine ⟨advances, fun _ _ => ?_⟩
      rw [Std.HashMap.mem_iff_isSome_getElem?, found]
      rfl
  · exact ⟨work_advances scheduled.once isOpen tracked works, by simp⟩

theorem evals_yield {evaluator : Evaluator T} (right : Right domain inputs circuit evaluator)
    (tracked : Tracked circuit evaluator) {roots : List Nat}
    (inRange : ∀ root ∈ roots, root < circuit.size) :
    Yields (roots.mapM fun root => (eval domain inputs circuit root).run) evaluator
      fun replies last => Advances circuit evaluator last ∧
        List.Forall₂ (fun root reply =>
          (∃ formula, circuit.Denotes root formula ∧ reply = formula.eval domain inputs) ∧
            ∀ value, reply = .ok value → root ∈ last.values) roots replies := by
  induction roots generalizing evaluator with
  | nil => exact .intro rfl ⟨⟨fun _ known => known, tracked⟩, .nil⟩
  | cons root rest ih =>
    obtain ⟨formula, denotes⟩ := circuit.formula?_of_lt_size (inRange root List.mem_cons_self)
    obtain ⟨reply, next, gives, same, nextRight⟩ := eval_yields right denotes
    obtain ⟨advances, valued⟩ := eval_advances tracked gives
    rw [List.mapM_cons]
    refine .after gives ?_
    refine (ih nextRight advances.tracked fun other member =>
      inRange other (List.mem_cons_of_mem root member)).bind ?_
    rintro replies last ⟨further, answered⟩
    refine .intro rfl ⟨advances.trans further, .cons ⟨⟨formula, denotes, same⟩, ?_⟩ answered⟩
    exact fun value isOk => further.kept root (valued value isOk)

theorem evals_exact (domain : Domain T) (inputs : String → Option T) {roots : List Nat}
    (inRange : ∀ root ∈ roots, root < circuit.size) :
    ∃ replies last, (roots.mapM fun root => (eval domain inputs circuit root).run) .empty =
        some (replies, last) ∧
      List.Forall₂ (fun root reply => circuit.eval? domain inputs root = some reply ∧
        ∃ formula, circuit.formula? root = some formula ∧ reply = formula.eval domain inputs)
        roots replies ∧
      last.lifted.Nodup ∧
      (∀ id ∈ last.lifted, ∃ value, circuit.node? id = some (.constant value)) ∧
      ∀ root value, (root, .ok value) ∈ roots.zip replies →
        ∀ id constant, circuit.Reaches root id → circuit.node? id = some (.constant constant) →
          last.lifted.count id = 1 := by
  have right : Right domain inputs circuit .empty := empty_right
  obtain ⟨replies, last, gives, advances, answered⟩ :=
    evals_yield right (empty_tracked circuit) inRange
  refine ⟨replies, last, gives, ?_, advances.tracked.once, ?_, ?_⟩
  · refine answered.imp ?_
    rintro root reply ⟨⟨formula, denotes, rfl⟩, _⟩
    exact ⟨Circuit.eval?_of_denotes domain inputs denotes, formula, denotes, rfl⟩
  · exact fun id member => ((advances.tracked.constants id).mp member).2
  · intro root value member id constant reaches found
    obtain ⟨_, valued⟩ := List.forall₂_zip answered member
    exact advances.tracked.count_eq_one (valued value rfl) reaches found

def unboundSum : Circuit where
  nodes := #[.constant 7, .input "x", .sum 1 0, .product 0 0]
  earlier := by decide

theorem evals_after_failure :
    (∀ root ∈ [2, 3], root < unboundSum.size) ∧ ∃ last : Evaluator UInt64,
      ([2, 3].mapM fun root => (eval .words (fun _ => none) unboundSum root).run) .empty =
        some ([.error (.missingInput "x"), .ok 49], last) ∧ last.lifted.count 0 = 1 := by
  refine ⟨by decide, ?_⟩
  obtain ⟨replies, last, gives, answered, _, _, once⟩ := evals_exact .words (fun _ => none)
    (show ∀ root ∈ [2, 3], root < unboundSum.size by decide)
  obtain _ | ⟨⟨_, first, firstDenotes, rfl⟩, _ | ⟨⟨_, second, secondDenotes, rfl⟩, ⟨⟩⟩⟩ := answered
  obtain rfl := Option.some.inj (firstDenotes.symm.trans (show unboundSum.Denotes 2 _ from rfl))
  obtain rfl := Option.some.inj (secondDenotes.symm.trans (show unboundSum.Denotes 3 _ from rfl))
  refine ⟨last, gives, once 3 49 (.tail _ (.head _)) 0 7 (.step ?_ (.refl 0)) rfl⟩
  decide

end Evaluator

end ArithCircuit
