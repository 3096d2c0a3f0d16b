import ArithCircuit.Proofs.Sort
import Mathlib.Order.Monotone.Basic

set_option autoImplicit false

namespace ArithCircuit

section Comparators

variable {α β : Type} [LinearOrder α] [LinearOrder β]

def exchange (elements : List α) (comparator : Nat × Nat) : List α :=
  match elements[comparator.1]?, elements[comparator.2]? with
  | some x, some y => (elements.set comparator.1 (min x y)).set comparator.2 (max x y)
  | _, _ => elements

def exchangeAll (network : List (Nat × Nat)) (elements : List α) : List α :=
  network.foldl exchange elements

theorem exchange_of_found {elements : List α} {low high : Nat} {x y : α}
    (lowFound : elements[low]? = some x) (highFound : elements[high]? = some y) :
    exchange elements (low, high) = (elements.set low (min x y)).set high (max x y) := by
  unfold exchange
  dsimp only
  rw [lowFound, highFound]

theorem exchange_perm (elements : List α) (comparator : Nat × Nat) :
    (exchange elements comparator).Perm elements := by
  obtain ⟨low, high⟩ := comparator
  cases lowFound : elements[low]? with
  | none => simp [exchange, lowFound]
  | some x =>
    cases highFound : elements[high]? with
    | none => simp [exchange, highFound]
    | some y =>
      rw [exchange_of_found lowFound highFound]
      obtain ⟨lowBound, rfl⟩ := List.getElem?_eq_some_iff.mp lowFound
      obtain ⟨highBound, rfl⟩ := List.getElem?_eq_some_iff.mp highFound
      rcases le_total elements[low] elements[high] with inOrder | swapped
      · rw [min_eq_left inOrder, max_eq_right inOrder, List.set_getElem_self, List.set_getElem_self]
      · rw [min_eq_right swapped, max_eq_left swapped]
        exact List.set_set_perm lowBound highBound

theorem length_exchange (elements : List α) (comparator : Nat × Nat) :
    (exchange elements comparator).length = elements.length :=
  (exchange_perm elements comparator).length_eq

theorem map_exchange {f : α → β} (monotone : Monotone f) (elements : List α)
    (comparator : Nat × Nat) :
    (exchange elements comparator).map f = exchange (elements.map f) comparator := by
  unfold exchange
  rw [List.getElem?_map, List.getElem?_map]
  cases elements[comparator.1]? with
  | none => rfl
  | some x =>
    cases elements[comparator.2]? with
    | none => rfl
    | some y => simp [List.map_set, monotone.map_min, monotone.map_max]

theorem exchangeAll_perm (network : List (Nat × Nat)) (elements : List α) :
    (exchangeAll network elements).Perm elements := by
  induction network generalizing elements with
  | nil => exact .refl elements
  | cons comparator rest ih => exact (ih _).trans (exchange_perm elements comparator)

theorem map_exchangeAll {f : α → β} (monotone : Monotone f) (network : List (Nat × Nat))
    (elements : List α) : (exchangeAll network elements).map f = exchangeAll network (elements.map f) := by
  induction network generalizing elements with
  | nil => rfl
  | cons comparator rest ih =>
    unfold exchangeAll at ih ⊢
    rw [List.foldl_cons, List.foldl_cons, ih, map_exchange monotone]

def digit (threshold x : α) : Nat := if threshold ≤ x then 1 else 0

theorem digit_le_one (threshold x : α) : digit threshold x ≤ 1 := by
  unfold digit
  split <;> decide

theorem digit_monotone (threshold : α) : Monotone (digit threshold) := by
  intro x y le
  unfold digit
  by_cases reached : threshold ≤ x
  · rw [if_pos reached, if_pos (reached.trans le)]
  · rw [if_neg reached]
    exact Nat.zero_le _

def SortsDigits (network : List (Nat × Nat)) (count : Nat) : Prop :=
  ∀ digits : List Nat, digits.length = count → (∀ d ∈ digits, d ≤ 1) →
    (exchangeAll network digits).Pairwise (· ≤ ·)

-- A network moves elements about along with every monotone map, so two elements in the wrong order
-- would stay so when they are told apart by a threshold.
theorem SortsDigits.sorts {network : List (Nat × Nat)} {elements : List α}
    (sortsDigits : SortsDigits network elements.length) :
    (exchangeAll network elements).Pairwise (· ≤ ·) := by
  rw [List.pairwise_iff_getElem]
  intro i j iBound jBound before
  by_contra wrong
  have sorted := sortsDigits (elements.map (digit (exchangeAll network elements)[i]))
    (List.length_map _) (by simp [digit_le_one])
  rw [← map_exchangeAll (digit_monotone _), List.pairwise_map, List.pairwise_iff_getElem] at sorted
  have kept := sorted i j iBound jBound before
  unfold digit at kept
  rw [if_pos le_rfl, if_neg wrong] at kept
  exact absurd kept (by decide)

end Comparators

variable {T : Type} {reading : Reading T} {start : Workspace} {index : Nat}

namespace Workspace

theorem reads_choice {workspace : Workspace} {width : Nat} {wires : List Wire} {isOn : Bool}
    {whenZero whenOne : List Bool} {chosen : Nat}
    (reads : workspace.ReadsAll reading index wires (if isOn then whenOne else whenZero))
    (zeroWidth : whenZero.length = width) (oneWidth : whenOne.length = width)
    (same : chosen = if isOn then Bits.number whenOne else Bits.number whenZero) :
    workspace.ReadsValue reading index width wires chosen := by
  refine ⟨_, ⟨reads, ?_⟩, ?_⟩
  · cases isOn with
    | false => exact zeroWidth
    | true => exact oneWidth
  · rw [same]
    cases isOn <;> rfl

theorem reads_numbers {workspace : Workspace} {width : Nat} {elements : List (List Wire)}
    {values : List (List Bool)}
    (reads : List.Forall₂ (workspace.ReadsNumber reading index width) elements values) :
    List.Forall₂ (workspace.ReadsValue reading index width) elements (values.map Bits.number) :=
  List.forall₂_map_right_iff.mpr (reads.imp fun _ bits here => ⟨bits, here, rfl⟩)

end Workspace

namespace Gadget

theorem compareExchange_builds {elements : Array (List Wire)} {numbers : List Nat}
    {low high a b width : Nat} (positive : 0 < width)
    (related : List.Forall₂ (start.ReadsValue reading index width) elements.toList numbers)
    (lowFound : numbers[low]? = some a) (highFound : numbers[high]? = some b) :
    Builds (compareExchange elements (low, high)) start fun out next =>
      List.Forall₂ (next.ReadsValue reading index width) out.toList (exchange numbers (low, high)) := by
  rw [exchange_of_found lowFound highFound]
  obtain ⟨x, xFound, xBits, ⟨xReads, xWidth⟩, rfl⟩ := forall₂_getElem? related lowFound
  obtain ⟨y, yFound, yBits, ⟨yReads, yWidth⟩, rfl⟩ := forall₂_getElem? related highFound
  rw [Array.getElem?_toList] at xFound yFound
  have sameWidth := xWidth.trans yWidth.symm
  have xFilled : xBits ≠ [] := List.ne_nil_of_length_pos (xWidth ▸ positive)
  have yFilled : yBits ≠ [] := List.ne_nil_of_length_pos (yWidth ▸ positive)
  unfold compareExchange
  simp only [xFound, yFound]
  apply (less_builds xReads yReads sameWidth xFilled).bind
  intro isLess s₁ grown₁ readsLess
  apply (select_builds readsLess (yReads.of_extends grown₁) (xReads.of_extends grown₁)
    sameWidth.symm yFilled).bind
  intro smaller s₂ grown₂ readsSmaller
  have untilNow := grown₁.trans grown₂
  apply (select_builds (readsLess.of_extends grown₂) (xReads.of_extends untilNow)
    (yReads.of_extends untilNow) sameWidth xFilled).bind
  intro larger s₃ grown₃ readsLarger
  apply Builds.pure
  rw [Array.toList_setIfInBounds, Array.toList_setIfInBounds]
  have others := forall₂_of_extends Workspace.readsValue_lasting (untilNow.trans grown₃) related
  have least : min (Bits.number xBits) (Bits.number yBits) =
      if decide (Bits.number xBits < Bits.number yBits) then Bits.number xBits
      else Bits.number yBits := by grind
  have greatest : max (Bits.number xBits) (Bits.number yBits) =
      if decide (Bits.number xBits < Bits.number yBits) then Bits.number yBits
      else Bits.number xBits := by grind
  have lowReads := Workspace.reads_choice (readsSmaller.of_extends grown₃) yWidth xWidth least
  have highReads := Workspace.reads_choice readsLarger xWidth yWidth greatest
  exact forall₂_set (forall₂_set others lowReads low) highReads high

-- The elements stay as many as they were, so the comparators stay in range.
theorem exchangeAll_builds {network : List (Nat × Nat)} {elements : Array (List Wire)}
    {numbers : List Nat} {width : Nat} (positive : 0 < width)
    (related : List.Forall₂ (start.ReadsValue reading index width) elements.toList numbers)
    (inRange : ∀ comparator ∈ network,
      comparator.1 < numbers.length ∧ comparator.2 < numbers.length) :
    Builds (network.foldlM compareExchange elements) start fun out next =>
      List.Forall₂ (next.ReadsValue reading index width) out.toList
        (exchangeAll network numbers) := by
  induction network generalizing start elements numbers with
  | nil => exact .pure related
  | cons comparator rest ih =>
    obtain ⟨low, high⟩ := comparator
    obtain ⟨lowInRange, highInRange⟩ := inRange _ List.mem_cons_self
    rw [List.foldlM_cons]
    apply (compareExchange_builds positive related (List.getElem?_eq_getElem lowInRange)
      (List.getElem?_eq_getElem highInRange)).bind
    intro exchanged next _ exchangedReads
    refine ih exchangedReads ?_
    intro other member
    rw [length_exchange]
    exact inRange other (List.mem_cons_of_mem _ member)

def checkPositions (network : List (Nat × Nat)) (elements : List (List Wire)) : Except Error Unit :=
  match (network.flatMap fun (low, high) => [low, high]).find? (elements.length ≤ ·) with
  | some position => .error (.indexOutOfRange position elements.length)
  | none => .ok ()

def InRange (elements : List (List Wire)) (comparator : Nat × Nat) : Prop :=
  comparator.1 < elements.length ∧ comparator.2 < elements.length

theorem checkPositions_eq_ok {network : List (Nat × Nat)} {elements : List (List Wire)} :
    checkPositions network elements = .ok () ↔ ∀ comparator ∈ network, InRange elements comparator := by
  unfold checkPositions InRange
  cases outside : List.find? _ _ with
  | some position =>
    refine ⟨fun passes => (by cases passes), fun inRange => ?_⟩
    obtain ⟨comparator, present, here⟩ := List.mem_flatMap.mp (List.mem_of_find?_eq_some outside)
    obtain ⟨lowInRange, highInRange⟩ := inRange comparator present
    have beyond := List.find?_some outside
    rcases List.mem_pair.mp here with rfl | rfl <;> simp at beyond <;> omega
  | none =>
    refine ⟨fun _ comparator present => ?_, fun _ => rfl⟩
    have within := List.find?_eq_none.mp outside
    simp only [List.mem_flatMap, decide_eq_true_eq, not_le] at within
    exact ⟨within _ ⟨comparator, present, List.mem_cons_self⟩,
      within _ ⟨comparator, present, List.mem_cons_of_mem _ List.mem_cons_self⟩⟩

theorem sortByNetwork_of_inRange {network : List (Nat × Nat)} {elements : List (List Wire)}
    (inRange : ∀ comparator ∈ network, InRange elements comparator) :
    sortByNetwork network elements = do
      return (← network.foldlM compareExchange elements.toArray).toList := by
  have passes := checkPositions_eq_ok.mpr inRange
  unfold checkPositions at passes
  unfold sortByNetwork
  cases outside : List.find? _ _ with
  | some position =>
    rw [outside] at passes
    cases passes
  | none => rfl

theorem sortByNetwork_builds {network : List (Nat × Nat)} {elements : List (List Wire)}
    {numbers : List Nat} {width : Nat} (positive : 0 < width)
    (related : List.Forall₂ (start.ReadsValue reading index width) elements numbers)
    (inRange : ∀ comparator ∈ network, InRange elements comparator) :
    Builds (sortByNetwork network elements) start fun outs next =>
      List.Forall₂ (next.ReadsValue reading index width) outs (exchangeAll network numbers) := by
  rw [sortByNetwork_of_inRange inRange]
  simp only [InRange, related.length_eq] at inRange
  have initial : List.Forall₂ (start.ReadsValue reading index width) elements.toArray.toList numbers :=
    related
  apply (exchangeAll_builds positive initial inRange).bind
  intro out next _ outReads
  exact .pure outReads

theorem sortByNetwork_exchanges {workspace : Workspace} {index width : Nat}
    {network : List (Nat × Nat)} {elements : List (List Wire)}
    (inRange : ∀ comparator ∈ network,
      comparator.1 < elements.length ∧ comparator.2 < elements.length)
    (positive : 0 < width) (wide : ∀ element ∈ elements, element.length = width)
    (own : ∀ element ∈ elements, ∀ wire ∈ element, workspace.Owns index wire) :
    ∃ outputs later, (sortByNetwork network elements).run workspace = .ok (.ok outputs, later) ∧
      workspace.Extends later ∧
      (∀ output ∈ outputs, output.length = width ∧ ∀ wire ∈ output, later.Owns index wire) ∧
      ∀ inputs values, List.Forall₂ (workspace.EvaluateTo inputs) elements values →
        ∃ results, List.Forall₂ (later.EvaluateTo inputs) outputs results ∧
          results.map Bits.number = exchangeAll network (values.map Bits.number) ∧
          (results.map Bits.number).Perm (values.map Bits.number) ∧
          (SortsDigits network elements.length →
            results.map Bits.number = (values.map Bits.number).mergeSort) := by
  let Asked := {asked : (String → Option Bool) × List (List Bool) //
    List.Forall₂ (workspace.ReadsNumber (.ofBits asked.1) index width) elements asked.2}
  obtain ⟨someValues, someRead⟩ := Workspace.exists_readsNumbers wide own
  have : Nonempty Asked := ⟨⟨(_, someValues), someRead⟩⟩
  obtain ⟨outputs, later, runs, extended, exchanged⟩ := Builds.answers fun asked : Asked =>
    sortByNetwork_builds positive (Workspace.reads_numbers asked.property) inRange
  refine ⟨outputs, later, runs, extended, ?_, ?_⟩
  · intro output member
    obtain ⟨_, _, bits, ⟨bitsRead, length⟩, _⟩ :=
      exists_of_mem_forall₂ (exchanged ⟨(_, someValues), someRead⟩).flip member
    exact ⟨bitsRead.length_eq.trans length, bitsRead.own⟩
  · intro inputs values evaluate
    obtain ⟨results, resultsRead, numbers⟩ := exists_forall₂_map_eq
      (exchanged ⟨(inputs, values), Workspace.readsNumbers_of_evaluate wide own evaluate⟩)
    have permuted := exchangeAll_perm network (values.map Bits.number)
    refine ⟨results, resultsRead.imp fun _ _ reads => reads.1.evaluate, numbers, ?_, ?_⟩
    · rw [numbers]
      exact permuted
    · intro sortsDigits
      rw [evaluate.length_eq, ← List.length_map Bits.number] at sortsDigits
      rw [numbers]
      exact numbers_eq_mergeSort permuted sortsDigits.sorts

def threeSorter : List (Nat × Nat) := [(0, 1), (1, 1), (1, 2), (0, 1)]

theorem threeSorter_sortsDigits : SortsDigits threeSorter 3 := by
  intro digits length small
  obtain ⟨a, b, c, rfl⟩ := List.length_eq_three.mp length
  simp only [List.mem_cons, List.not_mem_nil, or_false, forall_eq_or_imp, forall_eq] at small
  obtain ⟨aSmall, bSmall, cSmall⟩ := small
  rcases Nat.le_one_iff_eq_zero_or_eq_one.mp aSmall with rfl | rfl <;>
    rcases Nat.le_one_iff_eq_zero_or_eq_one.mp bSmall with rfl | rfl <;>
    rcases Nat.le_one_iff_eq_zero_or_eq_one.mp cSmall with rfl | rfl <;>
    decide

theorem sortByNetwork_three_numbers :
    ∃ outputs later results,
      (sortByNetwork threeSorter threeNumbers).run twoInputs = .ok (.ok outputs, later) ∧
      List.Forall₂ (later.EvaluateTo (List.lookup · [("a", false), ("b", true)])) outputs results ∧
      results.map Bits.number = [1, 2, 3] := by
  obtain ⟨outputs, later, runs, _, _, exchanges⟩ := sortByNetwork_exchanges
    (show ∀ comparator ∈ threeSorter, comparator.1 < 3 ∧ comparator.2 < 3 by decide) Nat.two_pos
    threeNumbers_wide threeNumbers_own
  obtain ⟨results, evaluate, _, _, sorts⟩ := exchanges _ _ (threeNumbers_evaluate id rfl)
  refine ⟨outputs, later, results, runs, evaluate, (sorts threeSorter_sortsDigits).trans ?_⟩
  rw [List.mergeSort_eq_insertionSort]
  decide

end Gadget

end ArithCircuit
