import ArithCircuit.Proofs.Network
import ArithCircuit.Proofs.Operands
import ArithCircuit.Proofs.Packed

set_option autoImplicit false

namespace ArithCircuit

structure Guarded {α β : Type} (check : Except Error β) (step : Gadget α) (start : Workspace)
    (post : α → Workspace → Prop) : Prop where
  refused : ∀ refusal, check = .error refusal → step.run start = .ok (.error refusal, start)
  accepted : ∀ found, check = .ok found → Builds step start post

namespace Gadget

variable {α β : Type} {start : Workspace}

theorem run_of_check {check : Except Error β} {refusal : Error} (fails : check = .error refusal)
    (rest : β → Gadget α) (start : Workspace) :
    ((liftM check : Gadget β) >>= rest).run start = .ok (.error refusal, start) := by
  subst fails
  rfl

theorem run_bind_of_refused {first : Gadget β} {later : Workspace} {refusal : Error}
    (refused : first.run start = .ok (.error refusal, later)) (rest : β → Gadget α) :
    (first >>= rest).run start = .ok (.error refusal, later) := by
  change Except.bind (first.run start) (fun reply => ExceptT.bindCont rest reply.1 reply.2) = _
  rw [refused]
  rfl

theorem run_bind_of_answered {first : Gadget β} {later : Workspace} {result : β}
    (answered : first.run start = .ok (.ok result, later)) (rest : β → Gadget α) :
    (first >>= rest).run start = (rest result).run later := by
  change Except.bind (first.run start) (fun reply => ExceptT.bindCont rest reply.1 reply.2) = _
  rw [answered]
  rfl

end Gadget

namespace Guarded

variable {α β γ : Type} {check : Except Error β} {step : Gadget α} {start : Workspace}
  {middle : α → Workspace → Prop} {post : γ → Workspace → Prop}

theorem of_error {refusal : Error} (fails : check = .error refusal)
    (refused : step.run start = .ok (.error refusal, start)) : Guarded check step start middle := by
  subst fails
  refine ⟨fun other same => ?_, fun _ passes => by cases passes⟩
  cases same
  exact refused

theorem of_ok {found : β} (passes : check = .ok found) (builds : Builds step start middle) :
    Guarded check step start middle := by
  subst passes
  refine ⟨fun _ fails => ?_, fun _ _ => builds⟩
  cases fails

theorem cases (guarded : Guarded check step start middle) :
    (∃ refusal, step.run start = .ok (.error refusal, start)) ∨ Builds step start middle := by
  cases checked : check with
  | error refusal => exact .inl ⟨refusal, guarded.refused refusal checked⟩
  | ok found => exact .inr (guarded.accepted found checked)

theorem mono {wider : α → Workspace → Prop} (guarded : Guarded check step start middle)
    (weaken : ∀ result next, middle result next → wider result next) :
    Guarded check step start wider where
  refused := guarded.refused
  accepted found passes :=
    (guarded.accepted found passes).mono fun result next _ here => weaken result next here

theorem map (guarded : Guarded check step start middle) {f : α → γ}
    (holds : ∀ result next, middle result next → post (f result) next) :
    Guarded check (do return f (← step)) start post where
  refused refusal fails := Gadget.run_bind_of_refused (guarded.refused refusal fails) _
  accepted found passes :=
    (guarded.accepted found passes).bind fun result next _ here => .pure (holds result next here)

end Guarded

variable {start : Workspace} {index : Nat}

namespace Workspace

abbrev OwnsAll (workspace : Workspace) (index : Nat) (wires : List Wire) : Prop :=
  ∀ wire ∈ wires, workspace.Owns index wire

abbrev OwnsLists (workspace : Workspace) (index : Nat) (elements : List (List Wire)) : Prop :=
  ∀ element ∈ elements, workspace.OwnsAll index element

theorem ownsLists_of_numbers {T : Type} {reading : Reading T} {width : Nat}
    {elements : List (List Wire)} {values : List (List Bool)}
    (reads : List.Forall₂ (start.ReadsNumber reading index width) elements values) :
    start.OwnsLists index elements := by
  intro element member
  obtain ⟨_, _, here, _⟩ := exists_of_mem_forall₂ reads.flip member
  exact here.own

theorem exists_readsValue {wires : List Wire} (own : start.OwnsAll index wires) :
    ∃ value, start.ReadsValue (.ofBits fun _ => some false) index wires.length wires value := by
  obtain ⟨bits, reads⟩ := exists_readsAll own
  exact ⟨_, bits, ⟨reads, reads.length_eq.symm⟩, rfl⟩

theorem ReadsValue.own {T : Type} {reading : Reading T} {width value : Nat} {wires : List Wire}
    (reads : start.ReadsValue reading index width wires value) : start.OwnsAll index wires := by
  obtain ⟨_, ⟨bitsRead, _⟩, _⟩ := reads
  exact bitsRead.own

end Workspace

namespace Guarded

variable {β : Type} {check : Except Error β}

theorem singleton {step : Gadget Wire}
    (guarded : Guarded check step start fun out next => next.Owns index out) :
    Guarded check (do return [← step]) start fun outs next => next.OwnsAll index outs :=
  guarded.map fun _ _ => List.forall_mem_singleton.mpr

theorem flatten {step : Gadget (List (List Wire))}
    (guarded : Guarded check step start fun outs next => next.OwnsLists index outs) :
    Guarded check (do return (← step).flatten) start fun outs next => next.OwnsAll index outs :=
  guarded.map fun _ _ => List.forall_mem_flatten.mpr

end Guarded

namespace Gadget

theorem checkLengths_eq_ok {xs ys : List Wire} (passes : checkLengths xs ys = .ok ()) :
    xs.length = ys.length ∧ xs ≠ [] := by
  unfold checkLengths at passes
  by_cases sameLength : xs.length = ys.length
  · rw [if_neg (not_not.mpr sameLength)] at passes
    refine ⟨sameLength, ?_⟩
    rintro rfl
    cases passes
  · rw [if_pos sameLength] at passes
    cases passes

theorem exists_operands {xs ys : List Wire} (left : start.OwnsAll index xs)
    (right : start.OwnsAll index ys) (passes : checkLengths xs ys = .ok ()) :
    ∃ first second, start.ReadsAll (.ofBits fun _ => some false) index xs first ∧
      start.ReadsAll (.ofBits fun _ => some false) index ys second ∧
      first.length = second.length ∧ first ≠ [] := by
  obtain ⟨sameLength, filled⟩ := checkLengths_eq_ok passes
  have operands : start.Operands index xs ys := ⟨filled, sameLength, left, right⟩
  exact operands.read fun wire _ => Workspace.binds_constant false start wire

theorem equal_guarded {xs ys : List Wire} (left : start.OwnsAll index xs)
    (right : start.OwnsAll index ys) :
    Guarded (checkLengths xs ys) (equal xs ys) start fun out next => next.Owns index out where
  refused _ fails := run_of_check fails _ start
  accepted _ passes := by
    obtain ⟨_, _, leftReads, rightReads, sameLength, filled⟩ := exists_operands left right passes
    exact (equal_builds leftReads rightReads sameLength filled).mono fun _ _ _ reads => reads.owns

theorem less_guarded {xs ys : List Wire} (left : start.OwnsAll index xs)
    (right : start.OwnsAll index ys) :
    Guarded (checkLengths xs ys) (less xs ys) start fun out next => next.Owns index out where
  refused _ fails := run_of_check fails _ start
  accepted _ passes := by
    obtain ⟨_, _, leftReads, rightReads, sameLength, filled⟩ := exists_operands left right passes
    exact (less_builds leftReads rightReads sameLength filled).mono fun _ _ _ reads => reads.owns

theorem select_guarded {selector : Wire} {xs ys : List Wire} (selects : start.Owns index selector)
    (left : start.OwnsAll index xs) (right : start.OwnsAll index ys) :
    Guarded (checkLengths xs ys) (select selector xs ys) start fun outs next =>
      outs.length = xs.length ∧ next.OwnsAll index outs where
  refused _ fails := run_of_check fails _ start
  accepted _ passes := by
    obtain ⟨first, second, leftReads, rightReads, sameLength, filled⟩ :=
      exists_operands left right passes
    obtain ⟨isOn, selectorReads⟩ : ∃ isOn,
        start.Reads (.ofBits fun _ => some false) index selector isOn :=
      selects.reads_of_bound fun _ => ⟨false, rfl⟩
    refine (select_builds selectorReads leftReads rightReads sameLength filled).mono
      fun outs _ _ reads => ⟨?_, reads.own⟩
    rw [reads.length_eq, leftReads.length_eq]
    cases isOn with
    | false => rfl
    | true => exact sameLength.symm

theorem sum_guarded {xs ys : List Wire} (left : start.OwnsAll index xs)
    (right : start.OwnsAll index ys) :
    Guarded (checkLengths xs ys) (sum xs ys) start fun outs next => next.OwnsAll index outs where
  refused _ fails := run_of_check fails _ start
  accepted _ passes := by
    obtain ⟨sameLength, filled⟩ := checkLengths_eq_ok passes
    obtain ⟨a, leftReads⟩ := Workspace.exists_readsValue left
    obtain ⟨b, rightReads⟩ := Workspace.exists_readsValue right
    rw [← sameLength] at rightReads
    exact (sum_builds (List.length_pos_of_ne_nil filled) leftReads rightReads).mono
      fun _ _ _ reads => reads.own

def checkFilled (wires : List Wire) : Except Error Unit :=
  if wires.isEmpty then .error .emptyOperand else .ok ()

theorem checkFilled_eq_ok {wires : List Wire} (passes : checkFilled wires = .ok ()) : wires ≠ [] := by
  rintro rfl
  cases passes

theorem weight_guarded {wires : List Wire} (own : start.OwnsAll index wires) :
    Guarded (checkFilled wires) (weight wires) start fun outs next =>
      next.OwnsAll index outs where
  refused refusal fails := by
    cases wires with
    | nil =>
      cases fails
      rfl
    | cons => cases fails
  accepted _ passes := by
    obtain ⟨_, reads⟩ := Workspace.exists_readsAll own
    refine (weight_builds reads (checkFilled_eq_ok passes)).mono ?_
    rintro outs next _ ⟨_, outsRead, _⟩
    exact outsRead.own

def checkPower (wires : List Wire) : Except Error Unit := do
  checkFilled wires
  if isPowerOfTwo wires.length then .ok () else .error (.notPowerOfTwo wires.length)

theorem weightByAdding_guarded {wires : List Wire} (own : start.OwnsAll index wires) :
    Guarded (checkPower wires) (weightByAdding wires) start fun outs next =>
      next.OwnsAll index outs := by
  cases wires with
  | nil => exact .of_error rfl rfl
  | cons first others =>
    have check : checkPower (first :: others) =
        if isPowerOfTwo (first :: others).length then .ok ()
        else .error (.notPowerOfTwo (first :: others).length) := rfl
    by_cases power : isPowerOfTwo (first :: others).length = true
    · refine .of_ok (check.trans (if_pos power)) ?_
      obtain ⟨layers, count⟩ := isPowerOfTwo_iff.mp power
      obtain ⟨_, reads⟩ := Workspace.exists_readsAll own
      exact (weightByAdding_builds reads count).mono fun _ _ _ outsRead => outsRead.own
    · refine .of_error (check.trans (if_neg power)) ?_
      unfold weightByAdding
      simp only [power]
      rfl

theorem commonWidth_eq_ok {elements : List (List Wire)} {width : Nat}
    (passes : commonWidth elements = .ok width) :
    elements ≠ [] ∧ 0 < width ∧ ∀ element ∈ elements, element.length = width := by
  cases elements with
  | nil => cases passes
  | cons first others =>
    unfold commonWidth at passes
    dsimp only at passes
    by_cases empty : first.isEmpty = true
    · rw [if_pos empty] at passes
      cases passes
    · rw [if_neg empty] at passes
      cases differs : (first :: others).find? fun element => element.length ≠ first.length with
      | some other =>
        rw [differs] at passes
        cases passes
      | none =>
        rw [differs] at passes
        cases passes
        refine ⟨List.cons_ne_nil first others, ?_, ?_⟩
        · exact List.length_pos_of_ne_nil fun none => empty (by simp [none])
        · simpa [List.find?_eq_none] using differs

theorem sortByRank_guarded {elements : List (List Wire)} (own : start.OwnsLists index elements) :
    Guarded (commonWidth elements) (sortByRank elements) start fun outs next =>
      next.OwnsLists index outs where
  refused _ fails := run_of_check fails _ start
  accepted width passes := by
    obtain ⟨filled, positive, wide⟩ := commonWidth_eq_ok passes
    obtain ⟨_, reads⟩ := Workspace.exists_readsNumbers wide own
    refine (sortByRank_places reads filled positive).mono ?_
    rintro outs next _ ⟨_, outsRead, _⟩
    exact Workspace.ownsLists_of_numbers outsRead

theorem sortPacked_guarded {elements : List (List Wire)} (own : start.OwnsLists index elements) :
    Guarded (commonWidth elements) (sortPacked elements) start fun outs next =>
      next.OwnsLists index outs where
  refused _ fails := run_of_check fails _ start
  accepted width passes := by
    obtain ⟨filled, positive, wide⟩ := commonWidth_eq_ok passes
    have : NeZero elements.length := ⟨fun none => filled (List.length_eq_zero_iff.mp none)⟩
    obtain ⟨_, reads⟩ := Workspace.exists_readsAllSlots (n := elements.length) own
    exact (sortPacked_places reads wide positive rfl).mono fun _ _ _ outsRead =>
      Workspace.ownsLists_of_numbers outsRead

def checkSlots (wires : List Wire) (slots : Nat) : Except Error Unit := do
  if wires.length ≠ slots then .error (.lengthMismatch wires.length slots)
  checkFilled wires

theorem packSlots_guarded {wires : List Wire} (own : start.OwnsAll index wires) (slots : Nat) :
    Guarded (checkSlots wires slots) (packSlots wires slots) start fun out next =>
      next.Owns index out := by
  by_cases counted : wires.length = slots
  · subst counted
    have check : checkSlots wires wires.length = checkFilled wires := by
      rw [checkSlots, if_neg (not_not.mpr rfl)]
    cases wires with
    | nil => exact .of_error check rfl
    | cons first others =>
      refine .of_ok check ?_
      have single : start.OwnsLists index [first :: others] := List.forall_mem_singleton.mpr own
      obtain ⟨_, reads⟩ := Workspace.exists_readsAllSlots (n := (first :: others).length) single
      obtain _ | ⟨reads, _⟩ := reads
      exact (packSlots_builds reads rfl).mono fun _ _ _ slotsRead => (slotsRead 0).owns
  · have check : checkSlots wires slots = .error (.lengthMismatch wires.length slots) := by
      rw [checkSlots, if_pos counted]
      rfl
    refine .of_error check ?_
    unfold packSlots
    rw [if_pos counted]
    rfl

end Gadget

end ArithCircuit
