import ArithCircuit.Proofs.Operators
import ArithCircuit.Proofs.Refusal

set_option autoImplicit false

namespace ArithCircuit

inductive Misfit (left right : Nat) : Error → Prop where
  | lengths (differ : left ≠ right) : Misfit left right (.lengthMismatch left right)
  | empty (noLeft : left = 0) (noRight : right = 0) : Misfit left right .emptyOperand

inductive Ragged : List Nat → Error → Prop where
  | missing : Ragged [] .emptyOperand
  | empty (others : List Nat) : Ragged (0 :: others) .emptyOperand
  | differs {width other : Nat} {others before after : List Nat} (filled : width ≠ 0)
      (split : others = before ++ other :: after) (alike : ∀ earlier ∈ before, earlier = width)
      (different : other ≠ width) : Ragged (width :: others) (.lengthMismatch width other)

theorem ragged_cons {width : Nat} {others : List Nat} {error : Error} :
    Ragged (width :: others) error ↔ width = 0 ∧ error = .emptyOperand ∨
      width ≠ 0 ∧ ∃ other, others.find? (· ≠ width) = some other ∧
        error = .lengthMismatch width other := by
  constructor
  · rintro (_ | _ | ⟨filled, split, alike, different⟩)
    · exact .inl ⟨rfl, rfl⟩
    · refine .inr ⟨filled, _, List.find?_eq_some_iff_append.mpr ?_, rfl⟩
      exact ⟨by simpa using different, _, _, split, fun earlier member => by simp [alike _ member]⟩
  · rintro (⟨rfl, rfl⟩ | ⟨filled, other, first, rfl⟩)
    · exact .empty others
    · obtain ⟨different, before, after, split, alike⟩ := List.find?_eq_some_iff_append.mp first
      exact .differs filled split (by simpa using alike) (by simpa using different)

def Incomparable (widths : List Nat) (comparator : Nat × Nat) (error : Error) : Prop :=
  ∃ left right, widths[comparator.1]? = some left ∧ widths[comparator.2]? = some right ∧
    Misfit left right error

def positionsOf (network : List (Nat × Nat)) : List Nat :=
  network.flatMap fun (low, high) => [low, high]

-- Why a network of comparators stops: for the first position that is not there, and only if all are
-- there for the first comparator that cannot compare its elements.
inductive Stopped (network : List (Nat × Nat)) (widths : List Nat) : Error → Prop where
  | outside {position : Nat} {before after : List Nat}
      (split : positionsOf network = before ++ position :: after)
      (inside : ∀ earlier ∈ before, earlier < widths.length) (beyond : widths.length ≤ position) :
      Stopped network widths (.indexOutOfRange position widths.length)
  | incomparable {done rest : List (Nat × Nat)} {comparator : Nat × Nat} {error : Error}
      (inside : ∀ position ∈ positionsOf network, position < widths.length)
      (split : network = done ++ comparator :: rest)
      (comparable : ∀ earlier ∈ done, ∀ other, ¬ Incomparable widths earlier other)
      (here : Incomparable widths comparator error) : Stopped network widths error

namespace Gadget

def Call.Refused : Call → Error → Prop
  | equal xs ys | less xs ys | select _ xs ys | sum xs ys => Misfit xs.length ys.length
  | weight bits => fun error => bits = [] ∧ error = .emptyOperand
  | weightByAdding bits => fun error =>
    bits = [] ∧ error = .emptyOperand ∨
      bits ≠ [] ∧ (∀ k, bits.length ≠ 2 ^ k) ∧ error = .notPowerOfTwo bits.length
  | sortByNetwork network elements => Stopped network (elements.map List.length)
  | sortByRank elements | sortPacked elements => Ragged (elements.map List.length)
  | packSlots wires slots => Misfit wires.length slots

section Checks

variable {xs ys : List Wire} {elements : List (List Wire)} {error : Error}

theorem checkLengths_eq_error :
    checkLengths xs ys = .error error ↔ Misfit xs.length ys.length error := by
  unfold checkLengths
  by_cases sameLength : xs.length = ys.length
  · rw [if_neg (not_not.mpr sameLength)]
    by_cases none : xs.isEmpty = true
    · rw [if_pos none]
      have noLeft := List.isEmpty_iff_length_eq_zero.mp none
      constructor
      · rintro ⟨⟩
        exact .empty noLeft (sameLength ▸ noLeft)
      · rintro (differ | _)
        · exact absurd sameLength differ
        · rfl
    · rw [if_neg none]
      refine ⟨nofun, ?_⟩
      rintro (differ | noLeft)
      · exact absurd sameLength differ
      · exact absurd (List.isEmpty_iff_length_eq_zero.mpr noLeft) none
  · rw [if_pos sameLength]
    constructor
    · rintro ⟨⟩
      exact .lengths sameLength
    · rintro (_ | ⟨noLeft, noRight⟩)
      · rfl
      · exact absurd (noLeft.trans noRight.symm) sameLength

theorem checkFilled_eq_error : checkFilled xs = .error error ↔ xs = [] ∧ error = .emptyOperand := by
  cases xs <;> simp [checkFilled, eq_comm]

theorem checkPower_eq_error : checkPower xs = .error error ↔
    xs = [] ∧ error = .emptyOperand ∨
      xs ≠ [] ∧ (∀ k, xs.length ≠ 2 ^ k) ∧ error = .notPowerOfTwo xs.length := by
  cases xs with
  | nil =>
    have check : checkPower [] = .error .emptyOperand := rfl
    simp [check, eq_comm]
  | cons first others =>
    have check : checkPower (first :: others) =
        if isPowerOfTwo (first :: others).length then .ok ()
        else .error (.notPowerOfTwo (first :: others).length) := rfl
    rw [check]
    by_cases power : isPowerOfTwo (first :: others).length = true
    · obtain ⟨k, count⟩ := isPowerOfTwo_iff.mp power
      rw [if_pos power]
      refine ⟨nofun, ?_⟩
      rintro (⟨⟨⟩, _⟩ | ⟨_, notPower, _⟩)
      exact absurd count (notPower k)
    · rw [if_neg power]
      have notPower : ∀ k, (first :: others).length ≠ 2 ^ k :=
        fun k count => power (isPowerOfTwo_iff.mpr ⟨k, count⟩)
      constructor
      · rintro ⟨⟩
        exact .inr ⟨List.cons_ne_nil first others, notPower, rfl⟩
      · rintro (⟨⟨⟩, _⟩ | ⟨_, _, rfl⟩)
        rfl

theorem checkSlots_eq_error {slots : Nat} :
    checkSlots xs slots = .error error ↔ Misfit xs.length slots error := by
  have check : checkSlots xs slots = checkLengths xs (List.replicate slots ⟨0, 0⟩) := by
    unfold checkSlots checkLengths checkFilled
    rw [List.length_replicate]
    split <;> rfl
  rw [check, checkLengths_eq_error, List.length_replicate]

theorem commonWidth_eq_error :
    commonWidth elements = .error error ↔ Ragged (elements.map List.length) error := by
  cases elements with
  | nil =>
    constructor
    · rintro ⟨⟩
      exact .missing
    · rintro ⟨⟩
      rfl
  | cons first others =>
    rw [List.map_cons, ragged_cons, List.find?_map]
    unfold commonWidth
    dsimp only
    by_cases none : first.isEmpty = true
    · rw [if_pos none, Except.error.injEq, eq_comm]
      simp [List.isEmpty_iff_length_eq_zero.mp none]
    · have filled : first.length ≠ 0 := fun zero => none (List.isEmpty_iff_length_eq_zero.mpr zero)
      have search : (first :: others).find? (fun element => element.length ≠ first.length) =
          others.find? ((fun width => decide (width ≠ first.length)) ∘ List.length) :=
        List.find?_cons_of_neg (by simp)
      rw [if_neg none, search]
      cases others.find? _ with
      | none => simp [filled]
      | some other =>
        rw [Except.error.injEq, eq_comm]
        simp [filled]

theorem checkPositions_eq_error {network : List (Nat × Nat)} :
    checkPositions network elements = .error error ↔ ∃ position before after,
      positionsOf network = before ++ position :: after ∧
        (∀ earlier ∈ before, earlier < elements.length) ∧ elements.length ≤ position ∧
        error = .indexOutOfRange position elements.length := by
  have check : checkPositions network elements =
      ((positionsOf network).find? (elements.length ≤ ·)).elim (.ok ()) fun position =>
        .error (.indexOutOfRange position elements.length) := by
    unfold checkPositions positionsOf
    cases List.find? _ _ <;> rfl
  rw [check]
  constructor
  · intro fails
    cases outside : (positionsOf network).find? (elements.length ≤ ·) with
    | none =>
      rw [outside] at fails
      cases fails
    | some position =>
      rw [outside] at fails
      cases fails
      obtain ⟨beyond, before, after, split, inside⟩ := List.find?_eq_some_iff_append.mp outside
      exact ⟨position, before, after, split, by simpa using inside, by simpa using beyond, rfl⟩
  · rintro ⟨position, before, after, split, inside, beyond, rfl⟩
    have outside : (positionsOf network).find? (elements.length ≤ ·) = some position :=
      List.find?_eq_some_iff_append.mpr
        ⟨by simpa using beyond, before, after, split, by simpa using inside⟩
    rw [outside]
    rfl

theorem forall_positionsOf {network : List (Nat × Nat)} {holds : Nat → Prop} :
    (∀ position ∈ positionsOf network, holds position) ↔
      ∀ comparator ∈ network, holds comparator.1 ∧ holds comparator.2 := by
  simp only [positionsOf, List.mem_flatMap, forall_exists_index, and_imp]
  constructor
  · intro all comparator member
    exact ⟨all _ comparator member List.mem_cons_self,
      all _ comparator member (List.mem_cons_of_mem _ List.mem_cons_self)⟩
  · intro all position comparator member named
    rcases List.mem_pair.mp named with rfl | rfl
    · exact (all comparator member).1
    · exact (all comparator member).2

section Comparator

variable {comparator : Nat × Nat} (inRange : InRange elements comparator)
include inRange

theorem checkComparator_eq_error : checkComparator elements comparator = .error error ↔
    Incomparable (elements.map List.length) comparator error := by
  simp [checkComparator, Incomparable, checkLengths_eq_error, inRange.1, inRange.2]

theorem checkComparator_eq_ok : checkComparator elements comparator = .ok () ↔
    ∀ error, ¬ Incomparable (elements.map List.length) comparator error := by
  simp only [← checkComparator_eq_error inRange]
  cases checkComparator elements comparator <;> simp

end Comparator

def checkNetwork (network : List (Nat × Nat)) (elements : List (List Wire)) : Except Error Unit := do
  checkPositions network elements
  forM network (checkComparator elements)

theorem checkNetwork_eq_error {network : List (Nat × Nat)} :
    checkNetwork network elements = .error error ↔
      Stopped network (elements.map List.length) error := by
  unfold checkNetwork
  cases checked : checkPositions network elements with
  | error refusal =>
    constructor
    · rintro ⟨⟩
      obtain ⟨position, before, after, split, inside, beyond, rfl⟩ :=
        checkPositions_eq_error.mp checked
      rw [← List.length_map (f := List.length)] at inside beyond ⊢
      exact .outside split inside beyond
    · rintro (⟨split, inside, beyond⟩ | ⟨inside, _, _, _⟩)
      · rw [List.length_map] at inside beyond ⊢
        exact checked.symm.trans (checkPositions_eq_error.mpr ⟨_, _, _, split, inside, beyond, rfl⟩)
      · rw [List.length_map, forall_positionsOf] at inside
        cases checked.symm.trans (checkPositions_eq_ok.mpr inside)
  | ok =>
    have inRange := checkPositions_eq_ok.mp checked
    refine Iff.trans forM_eq_error ?_
    constructor
    · rintro ⟨done, comparator, rest, rfl, fits, fails⟩
      obtain ⟨doneInRange, hereInRange⟩ := List.forall_mem_append.mp inRange
      refine .incomparable ?_ rfl (fun earlier member => ?_) ?_
      · rw [List.length_map, forall_positionsOf]
        exact inRange
      · exact (checkComparator_eq_ok (doneInRange earlier member)).mp (fits earlier member)
      · exact (checkComparator_eq_error (hereInRange _ List.mem_cons_self)).mp fails
    · rintro (⟨split, inside, beyond⟩ | ⟨_, split, comparable, here⟩)
      · rw [List.length_map] at inside beyond
        cases checked.symm.trans (checkPositions_eq_error.mpr ⟨_, _, _, split, inside, beyond, rfl⟩)
      · subst split
        obtain ⟨doneInRange, hereInRange⟩ := List.forall_mem_append.mp inRange
        refine ⟨_, _, _, rfl, fun earlier member => ?_, ?_⟩
        · exact (checkComparator_eq_ok (doneInRange earlier member)).mpr (comparable earlier member)
        · exact (checkComparator_eq_error (hereInRange _ List.mem_cons_self)).mpr here

end Checks

def Judged {α : Type} (step : Gadget α) (start : Workspace) (refused : Error → Prop) : Prop :=
  ∃ reply later, step.run start = .ok (reply, later) ∧ ∀ error, reply = .error error ↔ refused error

variable {start : Workspace} {index : Nat}

namespace Judged

variable {α β : Type} {step : Gadget α} {refused : Error → Prop} {check : Except Error β}
  {post : α → Workspace → Prop}

theorem of_check
    (stops : ∀ refusal, check = .error refusal → ∃ later, step.run start = .ok (.error refusal, later))
    (builds : ∀ found, check = .ok found → Builds step start post)
    (verdict : ∀ {error}, check = .error error ↔ refused error) : Judged step start refused := by
  cases checked : check with
  | error refusal =>
    obtain ⟨later, ends⟩ := stops refusal checked
    refine ⟨.error refusal, later, ends, fun error => ?_⟩
    rw [← verdict, checked, Except.error.injEq, Except.error.injEq]
  | ok found =>
    obtain ⟨result, later, gives, _⟩ := builds found checked
    refine ⟨.ok result, later, run_of_outcome gives, fun error => ?_⟩
    rw [← verdict, checked]
    exact ⟨nofun, nofun⟩

theorem of_guarded (guarded : Guarded check step start post)
    (verdict : ∀ {error}, check = .error error ↔ refused error) : Judged step start refused :=
  of_check (fun refusal fails => ⟨start, guarded.refused refusal fails⟩) guarded.accepted verdict

theorem map (judged : Judged step start refused) (f : α → β) :
    Judged (do return f (← step)) start refused := by
  obtain ⟨reply, later, ends, verdict⟩ := judged
  cases reply with
  | error refusal =>
    refine ⟨.error refusal, later, run_bind_of_refused ends _, fun error => ?_⟩
    rw [← verdict, Except.error.injEq, Except.error.injEq]
  | ok result =>
    refine ⟨.ok (f result), later, run_bind_of_answered ends _, fun error => ?_⟩
    rw [← verdict]
    exact ⟨nofun, nofun⟩

end Judged

theorem sortByNetwork_judged {network : List (Nat × Nat)} {elements : List (List Wire)}
    (own : start.OwnsLists index elements) :
    Judged (sortByNetwork network elements) start (Stopped network (elements.map List.length)) := by
  have stops : ∀ refusal, checkNetwork network elements = .error refusal →
      ∃ later, (sortByNetwork network elements).run start = .ok (.error refusal, later) := by
    intro refusal fails
    unfold checkNetwork at fails
    cases checked : checkPositions network elements with
    | error other =>
      rw [checked] at fails
      cases fails
      exact ⟨start, sortByNetwork_outside checked start⟩
    | ok =>
      rw [checked] at fails
      obtain ⟨done, comparator, rest, rfl, fits, failsHere⟩ := forM_eq_error.mp fails
      obtain ⟨_, later, _, _, refused⟩ :=
        sortByNetwork_stops own (checkPositions_eq_ok.mp checked) fits failsHere
      exact ⟨later, refused⟩
  have builds : ∀ found, checkNetwork network elements = .ok found →
      Builds (sortByNetwork network elements) start fun outs next =>
        next.OwnsInPlace index outs elements := by
    intro _ passes
    unfold checkNetwork at passes
    cases checked : checkPositions network elements with
    | error =>
      rw [checked] at passes
      cases passes
    | ok =>
      rw [checked] at passes
      exact sortByNetwork_fits own (checkPositions_eq_ok.mp checked) (forM_eq_ok passes)
  exact .of_check stops builds checkNetwork_eq_error

theorem Call.run_judged {call : Call} (own : start.OwnsAll index call.wires) :
    Judged call.run start call.Refused := by
  cases call with
  | equal xs ys =>
    obtain ⟨left, right⟩ := List.forall_mem_append.mp own
    exact .of_guarded (equal_guarded left right).singleton checkLengths_eq_error
  | less xs ys =>
    obtain ⟨left, right⟩ := List.forall_mem_append.mp own
    exact .of_guarded (less_guarded left right).singleton checkLengths_eq_error
  | select selector xs ys =>
    obtain ⟨selects, operands⟩ := List.forall_mem_cons.mp own
    obtain ⟨left, right⟩ := List.forall_mem_append.mp operands
    exact .of_guarded (select_guarded selects left right) checkLengths_eq_error
  | sum xs ys =>
    obtain ⟨left, right⟩ := List.forall_mem_append.mp own
    exact .of_guarded (sum_guarded left right) checkLengths_eq_error
  | weight bits => exact .of_guarded (weight_guarded own) checkFilled_eq_error
  | weightByAdding bits => exact .of_guarded (weightByAdding_guarded own) checkPower_eq_error
  | sortByNetwork network elements =>
    exact (sortByNetwork_judged (List.forall_mem_flatten.mp own)).map List.flatten
  | sortByRank elements =>
    exact .of_guarded (sortByRank_guarded (List.forall_mem_flatten.mp own)).flatten commonWidth_eq_error
  | sortPacked elements =>
    exact .of_guarded (sortPacked_guarded (List.forall_mem_flatten.mp own)).flatten commonWidth_eq_error
  | packSlots wires slots => exact .of_guarded (packSlots_guarded own slots).singleton checkSlots_eq_error

theorem gate_ends {call : Wiring.Call} (holds : start.Holds index)
    (single : ∀ circuit ∈ call.circuits, circuit = index) (own : start.OwnsAll index call.wires) :
    ∃ outputs later, call.run start = .ok (outputs, later) := by
  have safe : Safe (· = index) call.run start fun outs next => next.HasAll (· = index) outs := by
    refine Wiring.Call.run_safe (fun circuit member => ?_) fun wire member => ?_
    · exact ⟨single circuit member, (single circuit member).symm ▸ holds⟩
    · obtain ⟨same, owned⟩ := own wire member
      exact ⟨same, rfl, same.symm ▸ owned⟩
  obtain ⟨_, first, second, isFirst, isSecond, apart⟩ | ⟨outputs, later, ends, _⟩ := safe.wiring_ends
  · exact absurd (isFirst.trans isSecond.symm) apart
  · exact ⟨outputs, later, ends⟩

theorem gadgets_refuse_misfits :
    (∀ call : Call, start.OwnsAll index call.wires →
      ∃ reply later, call.run.run start = .ok (reply, later) ∧
        (∀ error, reply = .error error ↔ call.Refused error) ∧
        ((∃ outputs, reply = .ok outputs) ↔ ∀ error, ¬ call.Refused error)) ∧
    ∀ call : Wiring.Call, start.Holds index → (∀ circuit ∈ call.circuits, circuit = index) →
      start.OwnsAll index call.wires → ∃ outputs later, call.run start = .ok (outputs, later) := by
  constructor
  · intro call own
    obtain ⟨reply, later, ends, verdict⟩ := Call.run_judged own
    refine ⟨reply, later, ends, verdict, ?_⟩
    simp only [← verdict]
    cases reply <;> simp
  · intro call holds single own
    exact gate_ends holds single own

def threeBits : Call := .weightByAdding [⟨0, 0⟩, ⟨0, 1⟩, ⟨0, 2⟩]

theorem raggedCall_refused : raggedCall.Refused (.lengthMismatch 1 2) := by
  have inside : ∀ position ∈ positionsOf [(0, 1), (0, 2)], position < [1, 1, 2].length := by decide
  refine .incomparable inside (show _ = [(0, 1)] ++ (0, 2) :: [] from rfl) ?_
    ⟨1, 2, rfl, rfl, .lengths (by decide)⟩
  rintro earlier member other ⟨left, right, leftFound, rightFound, misfit⟩
  cases List.mem_singleton.mp member
  cases leftFound
  cases rightFound
  cases misfit with
  | lengths differ => exact differ rfl
  | empty noLeft => cases noLeft

theorem threeBits_refused : threeBits.Refused (.notPowerOfTwo 3) := by
  refine .inr ⟨List.cons_ne_nil _ _, fun k => ?_, rfl⟩
  cases k with
  | zero => decide
  | succ k =>
    rw [pow_succ]
    simp only [List.length_cons, List.length_nil]
    omega

theorem misfits_of_twoInputs :
    (∃ later, raggedCall.run.run twoInputs = .ok (.error (.lengthMismatch 1 2), later)) ∧
      (∃ later, threeBits.run.run twoInputs = .ok (.error (.notPowerOfTwo 3), later)) ∧
      ∃ outputs later, (Wiring.Call.fillSlots ⟨0, 0⟩ 3).run twoInputs = .ok (outputs, later) := by
  obtain ⟨judged, builds⟩ := @gadgets_refuse_misfits twoInputs 0
  have owns : ∀ wires : List Wire, (∀ wire ∈ wires, wire.circuit = 0 ∧ wire.node < 3) →
      twoInputs.OwnsAll 0 wires := fun wires small wire member =>
    twoInputs_owns (small wire member).1 (small wire member).2
  refine ⟨?_, ?_, ?_⟩
  · obtain ⟨_, later, ends, verdict, _⟩ := judged raggedCall (owns raggedCall.wires (by decide))
    exact ⟨later, (verdict _).mpr raggedCall_refused ▸ ends⟩
  · obtain ⟨_, later, ends, verdict, _⟩ := judged threeBits (owns threeBits.wires (by decide))
    exact ⟨later, (verdict _).mpr threeBits_refused ▸ ends⟩
  · exact builds (.fillSlots ⟨0, 0⟩ 3) ⟨_, rfl⟩ (by decide) (owns [⟨0, 0⟩] (by decide))

end Gadget

end ArithCircuit
