import ArithCircuit.Proofs.Guards

set_option autoImplicit false

namespace ArithCircuit

variable {start : Workspace} {index : Nat}

namespace Gadget

theorem checkLengths_congr {xs ys others more : List Wire} (left : xs.length = others.length)
    (right : ys.length = more.length) : checkLengths xs ys = checkLengths others more := by
  have filled : xs.isEmpty = others.isEmpty := by
    rw [Bool.eq_iff_iff, List.isEmpty_iff_length_eq_zero, List.isEmpty_iff_length_eq_zero, left]
  rw [checkLengths, checkLengths, left, right, filled]

section Traversal

variable {α : Type} {check : α → Except Error Unit} {elements : List α}

theorem forM_eq_error {error : Error} : forM elements check = .error error ↔
    ∃ done element rest, elements = done ++ element :: rest ∧
      (∀ earlier ∈ done, check earlier = .ok ()) ∧ check element = .error error := by
  induction elements with
  | nil =>
    refine ⟨nofun, ?_⟩
    rintro ⟨done, element, rest, split, _⟩
    exact absurd split.symm (List.append_ne_nil_of_right_ne_nil done (List.cons_ne_nil element rest))
  | cons first others ih =>
    rw [List.forM_cons]
    cases here : check first with
    | error refusal =>
      constructor
      · rintro ⟨⟩
        exact ⟨[], first, others, rfl, nofun, here⟩
      · rintro ⟨_ | ⟨earlier, done⟩, element, rest, split, fits, fails⟩
        · cases split
          exact here.symm.trans fails
        · cases split
          cases here.symm.trans (fits first List.mem_cons_self)
    | ok =>
      refine Iff.trans ih ?_
      constructor
      · rintro ⟨done, element, rest, rfl, fits, fails⟩
        exact ⟨first :: done, element, rest, rfl, List.forall_mem_cons.mpr ⟨here, fits⟩, fails⟩
      · rintro ⟨_ | ⟨earlier, done⟩, element, rest, split, fits, fails⟩
        · cases split
          cases here.symm.trans fails
        · cases split
          exact ⟨done, element, rest, rfl, (List.forall_mem_cons.mp fits).2, fails⟩

theorem forM_eq_ok (passes : forM elements check = .ok ()) : ∀ element ∈ elements,
    check element = .ok () := by
  induction elements with
  | nil => nofun
  | cons first others ih =>
    rw [List.forM_cons] at passes
    cases here : check first with
    | error refusal =>
      rw [here] at passes
      cases passes
    | ok =>
      rw [here] at passes
      exact List.forall_mem_cons.mpr ⟨here, ih passes⟩

end Traversal

def checkComparator (elements : List (List Wire)) (comparator : Nat × Nat) : Except Error Unit :=
  checkLengths (elements[comparator.1]?.getD []) (elements[comparator.2]?.getD [])

theorem sortByNetwork_outside {network : List (Nat × Nat)} {elements : List (List Wire)}
    {refusal : Error} (fails : checkPositions network elements = .error refusal) (start : Workspace) :
    (sortByNetwork network elements).run start = .ok (.error refusal, start) := by
  unfold checkPositions at fails
  unfold sortByNetwork
  cases outside : List.find? _ _ with
  | some position =>
    rw [outside] at fails
    cases fails
    rfl
  | none =>
    rw [outside] at fails
    cases fails

end Gadget

namespace Workspace

abbrev OwnsInPlace (workspace : Workspace) (index : Nat) :
    List (List Wire) → List (List Wire) → Prop :=
  List.Forall₂ fun now before => workspace.OwnsAll index now ∧ now.length = before.length

theorem ownsAll_lasting (wires : List Wire) : Lasting (OwnsAll · index wires) := by
  intro old new extended own wire member
  obtain ⟨same, circuit, held, inRange⟩ := own wire member
  obtain ⟨grown, heldLater, further⟩ := extended index circuit held
  exact ⟨same, grown, heldLater, inRange.trans_le (Circuit.size_le_of_extends further)⟩

theorem ownsInPlace_lasting (now before : List Wire) :
    Lasting fun workspace => workspace.OwnsAll index now ∧ now.length = before.length :=
  fun _ _ extended holds => ⟨ownsAll_lasting now extended holds.1, holds.2⟩

theorem OwnsLists.inPlace {elements : List (List Wire)} (own : start.OwnsLists index elements) :
    start.OwnsInPlace index elements elements :=
  List.forall₂_same.mpr fun element member => ⟨own element member, rfl⟩

end Workspace

namespace Gadget

variable {elements : List (List Wire)}

-- The elements that are there now are compared, but their widths are those of the first ones.
theorem compareExchange_guarded {current : Array (List Wire)} {comparator : Nat × Nat}
    (related : start.OwnsInPlace index current.toList elements)
    (inRange : InRange elements comparator) :
    Guarded (checkComparator elements comparator) (compareExchange current comparator) start
      fun out next => next.OwnsInPlace index out.toList elements := by
  obtain ⟨low, high⟩ := comparator
  have lowFound := List.getElem?_eq_getElem inRange.1
  have highFound := List.getElem?_eq_getElem inRange.2
  obtain ⟨x, xFound, xOwned, xWidth⟩ := forall₂_getElem? related lowFound
  obtain ⟨y, yFound, yOwned, yWidth⟩ := forall₂_getElem? related highFound
  rw [Array.getElem?_toList] at xFound yFound
  have check : checkComparator elements (low, high) = checkLengths x y := by
    rw [checkComparator, lowFound, highFound]
    exact checkLengths_congr xWidth.symm yWidth.symm
  rw [check]
  unfold compareExchange
  simp only [xFound, yFound]
  refine ⟨fun refusal fails =>
    run_bind_of_refused ((less_guarded xOwned yOwned).refused refusal fails) _, fun _ passes => ?_⟩
  obtain ⟨sameLength, filled⟩ := checkLengths_eq_ok passes
  have turned : checkLengths y x = .ok () := by
    rwa [checkLengths_congr sameLength.symm sameLength]
  apply ((less_guarded xOwned yOwned).accepted _ passes).bind
  intro isLess s₁ grown₁ owned
  apply ((select_guarded owned (Workspace.ownsAll_lasting y grown₁ yOwned)
    (Workspace.ownsAll_lasting x grown₁ xOwned)).accepted _ turned).bind
  rintro smaller s₂ grown₂ ⟨smallerWidth, smallerOwned⟩
  have untilNow := grown₁.trans grown₂
  have ownedStill := Workspace.ownsAll_lasting [isLess] grown₂ (List.forall_mem_singleton.mpr owned)
  apply ((select_guarded (List.forall_mem_singleton.mp ownedStill)
    (Workspace.ownsAll_lasting x untilNow xOwned)
    (Workspace.ownsAll_lasting y untilNow yOwned)).accepted _ passes).bind
  rintro larger s₃ grown₃ ⟨largerWidth, largerOwned⟩
  apply Builds.pure
  rw [Array.toList_setIfInBounds, Array.toList_setIfInBounds]
  have others := forall₂_of_extends Workspace.ownsInPlace_lasting (untilNow.trans grown₃) related
  have placed := forall₂_set (forall₂_set others
    ⟨Workspace.ownsAll_lasting smaller grown₃ smallerOwned,
      smallerWidth.trans (sameLength.symm.trans xWidth)⟩ low)
    ⟨largerOwned, largerWidth.trans (sameLength.trans yWidth)⟩ high
  rwa [List.set_getElem_self, List.set_getElem_self] at placed

theorem exchangeAll_fits {network : List (Nat × Nat)} {current : Array (List Wire)}
    (related : start.OwnsInPlace index current.toList elements)
    (inRange : ∀ comparator ∈ network, InRange elements comparator)
    (fits : ∀ comparator ∈ network, checkComparator elements comparator = .ok ()) :
    Builds (network.foldlM compareExchange current) start fun out next =>
      next.OwnsInPlace index out.toList elements := by
  induction network generalizing start current with
  | nil => exact .pure related
  | cons comparator rest ih =>
    rw [List.foldlM_cons]
    apply ((compareExchange_guarded related (inRange _ List.mem_cons_self)).accepted _
      (fits _ List.mem_cons_self)).bind
    intro exchanged next _ exchangedRelated
    exact ih exchangedRelated (fun other member => inRange other (List.mem_cons_of_mem _ member))
      fun other member => fits other (List.mem_cons_of_mem _ member)

theorem sortByNetwork_fits {network : List (Nat × Nat)} (own : start.OwnsLists index elements)
    (inRange : ∀ comparator ∈ network, InRange elements comparator)
    (fits : ∀ comparator ∈ network, checkComparator elements comparator = .ok ()) :
    Builds (sortByNetwork network elements) start fun outs next =>
      next.OwnsInPlace index outs elements := by
  rw [sortByNetwork_of_inRange inRange]
  exact (exchangeAll_fits own.inPlace inRange fits).bind fun out next _ related => .pure related

def StopsAt (elements : List (List Wire)) (start : Workspace) (network : List (Nat × Nat))
    (refusal : Error) (later : Workspace) : Prop :=
  ∃ done comparator rest outputs, network = done ++ comparator :: rest ∧
    (∀ earlier ∈ done, checkComparator elements earlier = .ok ()) ∧
    checkComparator elements comparator = .error refusal ∧
    (sortByNetwork done elements).run start = .ok (.ok outputs, later)

theorem sortByNetwork_stops {done rest : List (Nat × Nat)} {comparator : Nat × Nat}
    {refusal : Error} (own : start.OwnsLists index elements)
    (inRange : ∀ other ∈ done ++ comparator :: rest, InRange elements other)
    (fits : ∀ earlier ∈ done, checkComparator elements earlier = .ok ())
    (fails : checkComparator elements comparator = .error refusal) :
    ∃ outputs later, (sortByNetwork done elements).run start = .ok (.ok outputs, later) ∧
      start.Extends later ∧
      (sortByNetwork (done ++ comparator :: rest) elements).run start =
        .ok (.error refusal, later) := by
  have doneInRange : ∀ earlier ∈ done, InRange elements earlier :=
    fun earlier member => inRange earlier (List.mem_append_left _ member)
  have here := inRange comparator (List.mem_append_right _ List.mem_cons_self)
  obtain ⟨exchanged, later, gives, extended, related⟩ :=
    exchangeAll_fits own.inPlace doneInRange fits
  have exchanges := run_of_outcome gives
  have refused := (compareExchange_guarded related here).refused refusal fails
  refine ⟨exchanged.toList, later, ?_, extended, ?_⟩
  · rw [sortByNetwork_of_inRange doneInRange, run_bind_of_answered exchanges]
    rfl
  · rw [sortByNetwork_of_inRange inRange, List.foldlM_append]
    refine run_bind_of_refused ?_ _
    rw [run_bind_of_answered exchanges, List.foldlM_cons]
    exact run_bind_of_refused refused _

theorem sortByNetwork_cases (network : List (Nat × Nat)) (own : start.OwnsLists index elements) :
    (∃ refusal, (sortByNetwork network elements).run start = .ok (.error refusal, start)) ∨
      Builds (sortByNetwork network elements) start
        (fun outs next => next.OwnsInPlace index outs elements) ∨
      ∃ refusal later, (sortByNetwork network elements).run start = .ok (.error refusal, later) ∧
        start.Extends later ∧ StopsAt elements start network refusal later := by
  cases checked : checkPositions network elements with
  | error refusal =>
    exact .inl ⟨refusal, sortByNetwork_outside checked start⟩
  | ok =>
    right
    have inRange := checkPositions_eq_ok.mp checked
    cases compared : forM network (checkComparator elements) with
    | ok => exact .inl (sortByNetwork_fits own inRange (forM_eq_ok compared))
    | error refusal =>
      right
      obtain ⟨done, comparator, rest, rfl, fits, fails⟩ := forM_eq_error.mp compared
      obtain ⟨outputs, later, exchanges, extended, refused⟩ :=
        sortByNetwork_stops own inRange fits fails
      exact ⟨refusal, later, refused, extended, done, comparator, rest, outputs, rfl, fits, fails,
        exchanges⟩

inductive Call where
  | equal (xs ys : List Wire)
  | less (xs ys : List Wire)
  | select (selector : Wire) (whenZero whenOne : List Wire)
  | sum (xs ys : List Wire)
  | weight (bits : List Wire)
  | weightByAdding (bits : List Wire)
  | sortByNetwork (network : List (Nat × Nat)) (elements : List (List Wire))
  | sortByRank (elements : List (List Wire))
  | sortPacked (elements : List (List Wire))
  | packSlots (wires : List Wire) (slots : Nat)

namespace Call

def wires : Call → List Wire
  | equal xs ys | less xs ys | sum xs ys => xs ++ ys
  | select selector whenZero whenOne => selector :: (whenZero ++ whenOne)
  | weight bits | weightByAdding bits => bits
  | sortByNetwork _ elements | sortByRank elements | sortPacked elements => elements.flatten
  | packSlots wires _ => wires

def run : Call → Gadget (List Wire)
  | equal xs ys => do return [← Gadget.equal xs ys]
  | less xs ys => do return [← Gadget.less xs ys]
  | select selector whenZero whenOne => Gadget.select selector whenZero whenOne
  | sum xs ys => Gadget.sum xs ys
  | weight bits => Gadget.weight bits
  | weightByAdding bits => Gadget.weightByAdding bits
  | sortByNetwork network elements => do return (← Gadget.sortByNetwork network elements).flatten
  | sortByRank elements => do return (← Gadget.sortByRank elements).flatten
  | sortPacked elements => do return (← Gadget.sortPacked elements).flatten
  | packSlots wires slots => do return [← Gadget.packSlots wires slots]

theorem run_cases {call : Call} (own : start.OwnsAll index call.wires) :
    ((∃ refusal, call.run.run start = .ok (.error refusal, start)) ∨
      Builds call.run start fun outs next => next.OwnsAll index outs) ∨
      ∃ network elements refusal later, call = .sortByNetwork network elements ∧
        call.run.run start = .ok (.error refusal, later) ∧ start.Extends later ∧
        StopsAt elements start network refusal later := by
  cases call with
  | equal xs ys =>
    obtain ⟨left, right⟩ := List.forall_mem_append.mp own
    exact .inl (equal_guarded left right).singleton.cases
  | less xs ys =>
    obtain ⟨left, right⟩ := List.forall_mem_append.mp own
    exact .inl (less_guarded left right).singleton.cases
  | select selector xs ys =>
    obtain ⟨selects, operands⟩ := List.forall_mem_cons.mp own
    obtain ⟨left, right⟩ := List.forall_mem_append.mp operands
    exact .inl ((select_guarded selects left right).mono fun _ _ holds => holds.2).cases
  | sum xs ys =>
    obtain ⟨left, right⟩ := List.forall_mem_append.mp own
    exact .inl (sum_guarded left right).cases
  | weight bits => exact .inl (weight_guarded own).cases
  | weightByAdding bits => exact .inl (weightByAdding_guarded own).cases
  | sortByNetwork network elements =>
    obtain ⟨refusal, refused⟩ | builds | ⟨refusal, later, refused, extended, stops⟩ :=
      sortByNetwork_cases network (List.forall_mem_flatten.mp own)
    · exact .inl (.inl ⟨refusal, run_bind_of_refused refused _⟩)
    · refine .inl (.inr (builds.bind fun outs next _ related => .pure ?_))
      refine List.forall_mem_flatten.mpr fun out member => ?_
      obtain ⟨_, _, owned, _⟩ := exists_of_mem_forall₂ related.flip member
      exact owned
    · exact .inr ⟨network, elements, refusal, later, rfl, run_bind_of_refused refused _, extended,
        stops⟩
  | sortByRank elements =>
    exact .inl (sortByRank_guarded (List.forall_mem_flatten.mp own)).flatten.cases
  | sortPacked elements =>
    exact .inl (sortPacked_guarded (List.forall_mem_flatten.mp own)).flatten.cases
  | packSlots wires slots => exact .inl (packSlots_guarded own slots).singleton.cases

end Call

-- A network that meets elements of different widths keeps what its earlier comparators have built;
-- every other refusal leaves all circuits as they were.
theorem refusal_leaves_circuits {call : Call} (own : start.OwnsAll index call.wires)
    {refusal : Error} {later : Workspace}
    (refused : call.run.run start = .ok (.error refusal, later)) :
    later = start ∨ ∃ elements done comparator rest outputs,
      call = .sortByNetwork (done ++ comparator :: rest) elements ∧ done ≠ [] ∧
      (∀ earlier ∈ done, checkComparator elements earlier = .ok ()) ∧
      checkComparator elements comparator = .error refusal ∧
      (sortByNetwork done elements).run start = .ok (.ok outputs, later) := by
  obtain (⟨other, refuses⟩ | builds) | ⟨network, elements, other, last, rfl, stopped, _, stops⟩ :=
    Call.run_cases own
  · cases refused.symm.trans refuses
    exact .inl rfl
  · obtain ⟨_, _, gives, _⟩ := builds
    cases refused.symm.trans (run_of_outcome gives)
  · cases refused.symm.trans stopped
    obtain ⟨done, comparator, rest, outputs, rfl, fits, fails, exchanges⟩ := stops
    by_cases first : done = []
    · subst first
      cases exchanges
      exact .inl rfl
    · exact .inr ⟨elements, done, comparator, rest, outputs, rfl, first, fits, fails, exchanges⟩

def raggedCall : Call :=
  .sortByNetwork [(0, 1), (0, 2)] [[⟨0, 0⟩], [⟨0, 1⟩], [⟨0, 0⟩, ⟨0, 1⟩]]

theorem raggedCall_stops : ∃ later,
    raggedCall.run.run twoInputs = .ok (.error (.lengthMismatch 1 2), later) ∧
      later.circuits.map Circuit.size = #[17] := by
  have counted : (raggedCall.run.run twoInputs).toOption.map (fun reply =>
      (reply.1, reply.2.circuits.map Circuit.size)) =
        some (.error (.lengthMismatch 1 2), #[17]) := by decide +kernel
  generalize raggedCall.run.run twoInputs = ends at counted ⊢
  cases ends with
  | error => simp [Except.toOption] at counted
  | ok reply =>
    simp only [Except.toOption, Option.map_some, Option.some.injEq, Prod.mk.injEq] at counted
    exact ⟨reply.2, by rw [← counted.1], counted.2⟩

theorem raggedCall_leaves_gates :
    ∃ outputs later, raggedCall.run.run twoInputs = .ok (.error (.lengthMismatch 1 2), later) ∧
      later ≠ twoInputs ∧
      (sortByNetwork [(0, 1)] [[⟨0, 0⟩], [⟨0, 1⟩], [⟨0, 0⟩, ⟨0, 1⟩]]).run twoInputs =
        .ok (.ok outputs, later) := by
  have small : ∀ wire ∈ raggedCall.wires, wire.circuit = 0 ∧ wire.node < 3 := by decide
  obtain ⟨later, refused, sizes⟩ := raggedCall_stops
  have grown : later ≠ twoInputs := by
    rintro rfl
    exact absurd sizes (by decide +kernel)
  obtain rfl | ⟨elements, done, comparator, rest, outputs, same, some, _, _, exchanges⟩ :=
    refusal_leaves_circuits
      (fun wire member => twoInputs_owns (small wire member).1 (small wire member).2) refused
  · exact absurd rfl grown
  · obtain ⟨network, rfl⟩ := Call.sortByNetwork.inj same
    obtain ⟨first, done, rfl⟩ := List.exists_cons_of_ne_nil some
    have single : done = [] := by
      have count := congrArg List.length network
      simp only [List.length_append, List.length_cons, List.length_nil] at count
      exact List.length_eq_zero_iff.mp (by omega)
    subst single
    obtain ⟨rfl, _⟩ := List.cons.inj network
    exact ⟨outputs, later, refused, grown, exchanges⟩

end Gadget

end ArithCircuit
