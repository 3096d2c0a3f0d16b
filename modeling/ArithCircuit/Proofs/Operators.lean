import ArithCircuit.Gadget.Sort
import ArithCircuit.Proofs.Safety
import ArithCircuit.Proofs.Weight

set_option autoImplicit false

namespace ArithCircuit

variable {used : Nat → Prop} {start : Workspace}

namespace Wiring

variable {x y : Wire}

theorem not_safe (has : start.Has used x) :
    Safe used (Wiring.not x) start fun out next => next.Has used out := by
  rw [Wiring.not]
  apply (lift_safe has 1).bind
  intro one next extended hasOne
  exact binary_safe .add (has.of_extends extended) hasOne

theorem or_safe (first : start.Has used x) (second : start.Has used y) :
    Safe used (Wiring.or x y) start fun out next => next.Has used out := by
  rw [Wiring.or]
  apply (binary_safe .mul first second).bind
  intro both s₁ grown₁ hasBoth
  apply (binary_safe .add hasBoth (first.of_extends grown₁)).bind
  intro some s₂ grown₂ hasSome
  exact binary_safe .add hasSome (second.of_extends (grown₁.trans grown₂))

theorem equalBit_safe (first : start.Has used x) (second : start.Has used y) :
    Safe used (equalBit x y) start fun out next => next.Has used out := by
  rw [equalBit]
  apply (binary_safe .add first second).bind
  intro differ s₁ grown₁ hasDiffer
  apply (lift_safe (first.of_extends grown₁) 1).bind
  intro one s₂ grown₂ hasOne
  exact binary_safe .add (hasDiffer.of_extends grown₂) hasOne

theorem lessBit_safe (first : start.Has used x) (second : start.Has used y) :
    Safe used (lessBit x y) start fun out next => next.Has used out := by
  rw [lessBit]
  apply (not_safe first).bind
  intro negated next extended hasNegated
  exact binary_safe .mul hasNegated (second.of_extends extended)

theorem selectBit_safe {selector : Wire} (selects : start.Has used selector)
    (first : start.Has used x) (second : start.Has used y) :
    Safe used (selectBit selector x y) start fun out next => next.Has used out := by
  rw [selectBit]
  apply (not_safe selects).bind
  intro negated s₁ grown₁ hasNegated
  apply (binary_safe .mul hasNegated (first.of_extends grown₁)).bind
  intro left s₂ grown₂ hasLeft
  have until₂ := grown₁.trans grown₂
  apply (binary_safe .mul (selects.of_extends until₂) (second.of_extends until₂)).bind
  intro right s₃ grown₃ hasRight
  exact binary_safe .add (hasLeft.of_extends grown₃) hasRight

theorem constantBits_safe {index : Nat} (uses : used index) (holds : start.Holds index)
    (value : UInt64) (length : Nat) :
    Safe used (constantBits index value length) start fun wires next => next.HasAll used wires :=
  .mapM Workspace.has_lasting fun _ _ _ ahead =>
    constant_safe uses (holds.of_extends ahead) _

theorem accumulate_safe {α : Type} {terms : List α} {term : α → Wiring Wire}
    (has : start.Has used x)
    (each : ∀ element ∈ terms, ∀ now, start.Extends now →
      Safe used (term element) now fun out next => next.Has used out) :
    Safe used (accumulate x terms term) start fun out next => next.Has used out := by
  refine .foldlM (fun element member soFar now ahead hasSoFar => ?_) has
  apply (each element member now ahead).bind
  intro out next extended hasOut
  exact binary_safe .add (hasSoFar.of_extends extended) hasOut

theorem total_safe {zero : Wiring Wire} {terms : List Wire}
    (zeroSafe : Safe used zero start fun out next => next.Has used out)
    (all : start.HasAll used terms) :
    Safe used (total zero terms) start fun out next => next.Has used out := by
  rw [total]
  apply zeroSafe.bind
  intro out next extended hasOut
  exact accumulate_safe hasOut fun term member now ahead =>
    .pure ((all term member).of_extends (extended.trans ahead))

theorem halfAdd_safe (first : start.Has used x) (second : start.Has used y) :
    Safe used (halfAdd x y) start fun out next =>
      next.Has used out.1 ∧ next.Has used out.2 := by
  rw [halfAdd]
  apply (binary_safe .add first second).bind
  intro sum s₁ grown₁ hasSum
  apply (binary_safe .mul (first.of_extends grown₁) (second.of_extends grown₁)).bind
  intro carry s₂ grown₂ hasCarry
  exact .pure ⟨hasSum.of_extends grown₂, hasCarry⟩

theorem fullAdd_safe {carry : Wire} (first : start.Has used x) (second : start.Has used y)
    (carried : start.Has used carry) :
    Safe used (fullAdd x y carry) start fun out next =>
      next.Has used out.1 ∧ next.Has used out.2 := by
  rw [fullAdd]
  apply (binary_safe .add first second).bind
  intro half s₁ grown₁ hasHalf
  apply (binary_safe .add hasHalf (carried.of_extends grown₁)).bind
  intro sum s₂ grown₂ hasSum
  have until₂ := grown₁.trans grown₂
  apply (binary_safe .mul (carried.of_extends until₂) (first.of_extends until₂)).bind
  intro withX s₃ grown₃ hasWithX
  have until₃ := until₂.trans grown₃
  apply (binary_safe .mul (carried.of_extends until₃) (second.of_extends until₃)).bind
  intro withY s₄ grown₄ hasWithY
  have until₄ := until₃.trans grown₄
  apply (binary_safe .mul (hasWithX.of_extends grown₄) (second.of_extends until₄)).bind
  intro viaX s₅ grown₅ hasViaX
  apply (binary_safe .mul (hasWithY.of_extends grown₅)
    (first.of_extends (until₄.trans grown₅))).bind
  intro viaY s₆ grown₆ hasViaY
  have until₆ := until₄.trans (grown₅.trans grown₆)
  apply (binary_safe .mul (first.of_extends until₆) (second.of_extends until₆)).bind
  intro both s₇ grown₇ hasBoth
  have terms : s₇.HasAll used [withX, withY, viaX, viaY] := by
    simp only [List.forall_mem_cons]
    exact ⟨hasWithX.of_extends (grown₄.trans (grown₅.trans (grown₆.trans grown₇))),
      hasWithY.of_extends (grown₅.trans (grown₆.trans grown₇)),
      hasViaX.of_extends (grown₆.trans grown₇), hasViaY.of_extends grown₇, nofun⟩
  apply (Safe.foldlM (fun term member soFar now ahead hasSoFar =>
    binary_safe .add hasSoFar ((terms term member).of_extends ahead)) hasBoth).bind
  intro out s₈ grown₈ hasOut
  have onward := grown₃.trans (grown₄.trans (grown₅.trans (grown₆.trans (grown₇.trans grown₈))))
  exact .pure ⟨hasSum.of_extends onward, hasOut⟩

theorem addPairs_safe {pairs : List (Wire × Wire)} {carry : Wire}
    (all : start.HasPairs used pairs) (carried : start.Has used carry) :
    Safe used (addPairs pairs carry) start fun outs next => next.HasAll used outs := by
  induction pairs generalizing start carry with
  | nil => exact .pure (List.forall_mem_singleton.mpr carried)
  | cons pair rest ih =>
    obtain ⟨⟨first, second⟩, others⟩ := List.forall_mem_cons.mp all
    rw [addPairs]
    apply (fullAdd_safe first second carried).bind
    rintro out s₁ grown₁ ⟨hasSum, hasCarry⟩
    apply (ih (Workspace.HasPairs.of_extends grown₁ others) hasCarry).bind
    intro above s₂ grown₂ hasAbove
    exact .pure (List.forall_mem_cons.mpr ⟨hasSum.of_extends grown₂, hasAbove⟩)

theorem forall_triples {α : Type} {P : α → Prop} : ∀ {elements : List α},
    (∀ element ∈ elements, P element) →
      (∀ group ∈ (triples elements).1, P group.1 ∧ P group.2.1 ∧ P group.2.2) ∧
        ∀ element ∈ (triples elements).2, P element
  | [], all | [_], all | [_, _], all => ⟨nofun, all⟩
  | x :: y :: z :: rest, all => by
    simp only [List.forall_mem_cons] at all
    obtain ⟨first, second, third, others⟩ := all
    obtain ⟨inGroups, inRest⟩ := forall_triples others
    exact ⟨List.forall_mem_cons.mpr ⟨⟨first, second, third⟩, inGroups⟩, inRest⟩

theorem parity_safe {z : Wire} (first : start.Has used x) (second : start.Has used y)
    (third : start.Has used z) :
    Safe used (parity (x, y, z)) start fun out next => next.Has used out := by
  rw [parity]
  apply (binary_safe .add first second).bind
  intro half next extended hasHalf
  exact binary_safe .add hasHalf (third.of_extends extended)

theorem majority_safe {z : Wire} (first : start.Has used x) (second : start.Has used y)
    (third : start.Has used z) :
    Safe used (majority (x, y, z)) start fun out next => next.Has used out := by
  rw [majority]
  apply (binary_safe .mul first second).bind
  intro left s₁ grown₁ hasLeft
  apply (binary_safe .mul (first.of_extends grown₁) (third.of_extends grown₁)).bind
  intro right s₂ grown₂ hasRight
  apply (binary_safe .add (hasLeft.of_extends grown₂) hasRight).bind
  intro both s₃ grown₃ hasBoth
  have until₃ := grown₁.trans (grown₂.trans grown₃)
  apply (binary_safe .mul (second.of_extends until₃) (third.of_extends until₃)).bind
  intro last s₄ grown₄ hasLast
  exact binary_safe .add (hasBoth.of_extends grown₄) hasLast

theorem suffixProducts_safe {parities : List Wire} (has : start.Has used x)
    (all : start.HasAll used parities) :
    Safe used (suffixProducts x.zero parities) start fun outs next => next.HasAll used outs := by
  induction parities generalizing start with
  | nil => exact .pure nofun
  | cons first later ih =>
    obtain ⟨hasFirst, others⟩ := List.forall_mem_cons.mp all
    rw [suffixProducts]
    apply (lift_safe has 0).bind
    intro none s₁ grown₁ hasNone
    apply (accumulate_safe hasNone fun other member now ahead =>
      binary_safe .mul (hasFirst.of_extends (grown₁.trans ahead))
        ((others other member).of_extends (grown₁.trans ahead))).bind
    intro carry s₂ grown₂ hasCarry
    have until₂ := grown₁.trans grown₂
    apply (ih (has.of_extends until₂) (Workspace.HasAll.of_extends until₂ others)).bind
    intro carries s₃ grown₃ hasCarries
    exact .pure (List.forall_mem_cons.mpr ⟨hasCarry.of_extends grown₃, hasCarries⟩)

theorem parityOfRest_safe {leftOver : List Wire} (has : start.Has used x)
    (all : start.HasAll used leftOver) :
    Safe used (parityOfRest x.zero leftOver) start fun outs next => next.HasAll used outs := by
  rw [parityOfRest]
  by_cases empty : leftOver.isEmpty = true
  · rw [if_pos empty]
    exact .pure nofun
  · rw [if_neg empty]
    apply (total_safe (lift_safe has 0) all).bind
    intro out next _ hasOut
    exact .pure (List.forall_mem_singleton.mpr hasOut)

theorem carryOfRest_safe {leftOver : List Wire} (all : start.HasAll used leftOver) :
    Safe used (carryOfRest leftOver) start fun outs next => next.HasAll used outs := by
  match leftOver, all with
  | [a, b], all =>
    obtain ⟨first, others⟩ := List.forall_mem_cons.mp all
    apply (binary_safe .mul (List.forall_mem_singleton.mp others) first).bind
    intro out next _ hasOut
    exact .pure (List.forall_mem_singleton.mpr hasOut)
  | [], _ | [_], _ | _ :: _ :: _ :: _, _ => exact .pure nofun

theorem halve_safe {bits : List Wire} (has : start.Has used x) (all : start.HasAll used bits) :
    Safe used (halve x.zero bits) start fun out next =>
      next.Has used out.1 ∧ next.HasAll used out.2 := by
  obtain ⟨inGroups, inRest⟩ := forall_triples all
  rw [halve]
  apply (Safe.mapM Workspace.has_lasting fun group member now ahead => by
    obtain ⟨first, second, third⟩ := inGroups group member
    exact parity_safe (first.of_extends ahead) (second.of_extends ahead)
      (third.of_extends ahead)).bind
  intro groupParities s₁ grown₁ hasGroupParities
  apply (parityOfRest_safe (has.of_extends grown₁) (Workspace.HasAll.of_extends grown₁ inRest)).bind
  intro restParity s₂ grown₂ hasRestParity
  have until₂ := grown₁.trans grown₂
  have parities := List.forall_mem_append.mpr
    ⟨Workspace.HasAll.of_extends grown₂ hasGroupParities, hasRestParity⟩
  apply (total_safe (lift_safe (has.of_extends until₂) 0) parities).bind
  intro bit s₃ grown₃ hasBit
  have until₃ := until₂.trans grown₃
  apply (Safe.mapM Workspace.has_lasting fun group member now ahead => by
    obtain ⟨first, second, third⟩ := inGroups group member
    have untilNow := until₃.trans ahead
    exact majority_safe (first.of_extends untilNow) (second.of_extends untilNow)
      (third.of_extends untilNow)).bind
  intro majorities s₄ grown₄ hasMajorities
  have until₄ := until₃.trans grown₄
  apply (carryOfRest_safe (Workspace.HasAll.of_extends until₄ inRest)).bind
  intro pairCarry s₅ grown₅ hasPairCarry
  have until₅ := until₄.trans grown₅
  apply (suffixProducts_safe (has.of_extends until₅) (Workspace.HasAll.of_extends
    (grown₃.trans (grown₄.trans grown₅)) parities)).bind
  intro suffixes s₆ grown₆ hasSuffixes
  refine .pure ⟨hasBit.of_extends (grown₄.trans (grown₅.trans grown₆)), ?_⟩
  exact List.forall_mem_append.mpr ⟨List.forall_mem_append.mpr
    ⟨Workspace.HasAll.of_extends (grown₅.trans grown₆) hasMajorities,
      Workspace.HasAll.of_extends grown₆ hasPairCarry⟩, hasSuffixes⟩

theorem weightBits_safe {bits : List Wire} (rounds : Nat) (has : start.Has used x)
    (all : start.HasAll used bits) :
    Safe used (weightBits x.zero rounds bits) start fun outs next => next.HasAll used outs := by
  induction rounds generalizing start bits with
  | zero => exact .pure nofun
  | succ rounds ih =>
    rw [weightBits]
    apply (halve_safe has all).bind
    rintro ⟨bit, halved⟩ s₁ grown₁ ⟨hasBit, hasHalved⟩
    apply (ih (has.of_extends grown₁) hasHalved).bind
    intro above s₂ grown₂ hasAbove
    exact .pure (List.forall_mem_cons.mpr ⟨hasBit.of_extends grown₂, hasAbove⟩)

end Wiring

namespace Gadget

variable {xs ys : List Wire}

theorem equal_safe (left : start.HasAll used xs) (right : start.HasAll used ys) :
    Safe used (equal xs ys) start fun out next => next.Has used out := by
  refine .check fun _ _ => ?_
  cases xs with
  | nil => exact .refusal _ _
  | cons x rest =>
    apply (Wiring.lift_safe (left x List.mem_cons_self) 1).of_wiring.bind
    intro one next extended hasOne
    refine .foldlM (fun pair member soFar now ahead hasSoFar => ?_) hasOne
    obtain ⟨first, second⟩ := Workspace.hasPairs_of_zip left right pair member
    have untilNow := extended.trans ahead
    apply (Wiring.equalBit_safe (first.of_extends untilNow)
      (second.of_extends untilNow)).of_wiring.bind
    intro here later further hasHere
    exact (Wiring.binary_safe .mul (hasSoFar.of_extends further) hasHere).of_wiring

theorem lessFrom_safe {below : List (Wire × Wire)} {higher : Wire × Wire} {equal less : Wire}
    (pairs : start.HasPairs used below)
    (first : start.Has used higher.1) (second : start.Has used higher.2)
    (hasEqual : start.Has used equal) (hasLess : start.Has used less) :
    Safe used (lessFrom below higher equal less) start fun out next => next.Has used out := by
  induction below generalizing start higher equal less with
  | nil => exact .pure hasLess
  | cons pair rest ih =>
    obtain ⟨⟨left, right⟩, others⟩ := List.forall_mem_cons.mp pairs
    rw [lessFrom]
    apply (Wiring.equalBit_safe first second).bind
    intro alike s₁ grown₁ hasAlike
    apply (Wiring.binary_safe .mul (hasEqual.of_extends grown₁) hasAlike).bind
    intro equalStill s₂ grown₂ hasEqualStill
    have until₂ := grown₁.trans grown₂
    apply (Wiring.lessBit_safe (left.of_extends until₂) (right.of_extends until₂)).bind
    intro lessHere s₃ grown₃ hasLessHere
    apply (Wiring.binary_safe .mul (hasEqualStill.of_extends grown₃) hasLessHere).bind
    intro decided s₄ grown₄ hasDecided
    have until₄ := until₂.trans (grown₃.trans grown₄)
    apply (Wiring.binary_safe .add (hasLess.of_extends until₄) hasDecided).bind
    intro lessNow s₅ grown₅ hasLessNow
    have until₅ := until₄.trans grown₅
    exact ih (Workspace.HasPairs.of_extends until₅ others) (left.of_extends until₅)
      (right.of_extends until₅)
      (hasEqualStill.of_extends (grown₃.trans (grown₄.trans grown₅))) hasLessNow

theorem less_safe (left : start.HasAll used xs) (right : start.HasAll used ys) :
    Safe used (less xs ys) start fun out next => next.Has used out := by
  refine .check fun _ _ => ?_
  cases xs with
  | nil => exact .refusal _ _
  | cons x rest =>
    have pairs : start.HasPairs used ((x :: rest).zip ys).reverse := fun pair member =>
      Workspace.hasPairs_of_zip left right pair (List.mem_reverse.mp member)
    generalize ((x :: rest).zip ys).reverse = reversed at pairs
    cases reversed with
    | nil => exact .refusal _ _
    | cons top below =>
      obtain ⟨topPair, belowPairs⟩ := List.forall_mem_cons.mp pairs
      apply (Wiring.lessBit_safe topPair.1 topPair.2).of_wiring.bind
      intro less s₁ grown₁ hasLess
      apply (Wiring.lift_safe ((left x List.mem_cons_self).of_extends grown₁) 1).of_wiring.bind
      intro one s₂ grown₂ hasOne
      have until₂ := grown₁.trans grown₂
      exact (lessFrom_safe (Workspace.HasPairs.of_extends until₂ belowPairs)
        (topPair.1.of_extends until₂) (topPair.2.of_extends until₂) hasOne
        (hasLess.of_extends grown₂)).of_wiring

theorem select_safe {selector : Wire} (selects : start.Has used selector)
    (left : start.HasAll used xs) (right : start.HasAll used ys) :
    Safe used (select selector xs ys) start fun outs next => next.HasAll used outs := by
  refine .check fun _ _ => .mapM Workspace.has_lasting fun pair member now ahead => ?_
  obtain ⟨first, second⟩ := Workspace.hasPairs_of_zip left right pair member
  exact (Wiring.selectBit_safe (selects.of_extends ahead) (first.of_extends ahead)
    (second.of_extends ahead)).of_wiring

theorem sum_safe (left : start.HasAll used xs) (right : start.HasAll used ys) :
    Safe used (sum xs ys) start fun outs next => next.HasAll used outs := by
  refine .check fun _ _ => ?_
  have pairs := Workspace.hasPairs_of_zip left right
  generalize xs.zip ys = both at pairs
  cases both with
  | nil => exact .refusal _ _
  | cons pair rest =>
    obtain ⟨⟨first, second⟩, others⟩ := List.forall_mem_cons.mp pairs
    apply (Wiring.halfAdd_safe first second).of_wiring.bind
    rintro out s₁ grown₁ ⟨hasSum, hasCarry⟩
    apply (Wiring.addPairs_safe (Workspace.HasPairs.of_extends grown₁ others) hasCarry).of_wiring.bind
    intro above s₂ grown₂ hasAbove
    exact .pure (List.forall_mem_cons.mpr ⟨hasSum.of_extends grown₂, hasAbove⟩)

theorem weight_safe (all : start.HasAll used xs) :
    Safe used (weight xs) start fun outs next => next.HasAll used outs := by
  cases xs with
  | nil => exact .refusal _ _
  | cons first rest =>
    rw [weight, log2Floor_ok (by simp), pure_bind]
    exact (Wiring.weightBits_safe _ (all first List.mem_cons_self) all).of_wiring

theorem joinNeighbours_safe {elements : List (List Wire)} (all : start.HasLists used elements) :
    Safe used (joinNeighbours sum elements) start fun results next =>
      next.HasLists used results := by
  fun_induction joinNeighbours sum elements generalizing start with
  | case1 first second rest ih =>
    simp only [List.forall_mem_cons] at all
    obtain ⟨left, right, others⟩ := all
    apply (sum_safe left right).bind
    intro joined s₁ grown₁ hasJoined
    apply (ih (Workspace.HasLists.of_extends grown₁ others)).bind
    intro results s₂ grown₂ hasResults
    exact .pure (List.forall_mem_cons.mpr
      ⟨Workspace.HasAll.of_extends grown₂ hasJoined, hasResults⟩)
  | case2 => exact .pure all

theorem joinLayers_safe {rounds : Nat} {elements : List (List Wire)}
    (all : start.HasLists used elements) :
    Safe used (joinLayers sum rounds elements) start fun result next =>
      ∀ last, result = some last → next.HasAll used last := by
  fun_induction joinLayers sum rounds elements generalizing start with
  | case1 | case3 => exact .pure nofun
  | case2 _ last =>
    refine .pure ?_
    rintro _ ⟨⟩
    exact List.forall_mem_singleton.mp all
  | case4 rounds layer _ _ ih =>
    exact (joinNeighbours_safe all).bind fun next later _ hasNext => ih next hasNext

theorem weightByAdding_safe (all : start.HasAll used xs) :
    Safe used (weightByAdding xs) start fun outs next => next.HasAll used outs := by
  rw [weightByAdding]
  by_cases empty : xs.isEmpty = true
  · rw [if_pos empty]
    exact .refusal _ _
  · rw [if_neg empty]
    by_cases power : (!isPowerOfTwo xs.length) = true
    · rw [if_pos power]
      exact .refusal _ _
    · rw [if_neg power]
      have singles : start.HasLists used (xs.map fun bit => [bit]) :=
        List.forall_mem_map.mpr fun bit member => List.forall_mem_singleton.mpr (all bit member)
      apply (joinLayers_safe singles).bind
      rintro (_ | last) next _ hasLast
      · exact .refusal _ _
      · exact .pure (hasLast last rfl)

theorem compareExchange_safe {elements : Array (List Wire)} (comparator : Nat × Nat)
    (all : start.HasLists used elements.toList) :
    Safe used (compareExchange elements comparator) start fun out next =>
      next.HasLists used out.toList := by
  obtain ⟨low, high⟩ := comparator
  rw [compareExchange]
  cases lowFound : elements[low]? with
  | none => exact .refusal _ _
  | some x =>
    cases highFound : elements[high]? with
    | none => exact .refusal _ _
    | some y =>
      have left := all x (Array.mem_toList_iff.mpr (Array.mem_of_getElem? lowFound))
      have right := all y (Array.mem_toList_iff.mpr (Array.mem_of_getElem? highFound))
      apply (less_safe left right).bind
      intro isLess s₁ grown₁ hasLess
      apply (select_safe hasLess (Workspace.HasAll.of_extends grown₁ right)
        (Workspace.HasAll.of_extends grown₁ left)).bind
      intro smaller s₂ grown₂ hasSmaller
      have until₂ := grown₁.trans grown₂
      apply (select_safe (hasLess.of_extends grown₂) (Workspace.HasAll.of_extends until₂ left)
        (Workspace.HasAll.of_extends until₂ right)).bind
      intro larger s₃ grown₃ hasLarger
      refine .pure ?_
      rw [Array.toList_setIfInBounds, Array.toList_setIfInBounds]
      intro element member
      obtain there | rfl := List.mem_or_eq_of_mem_set member
      · obtain there | rfl := List.mem_or_eq_of_mem_set there
        · exact Workspace.HasAll.of_extends (until₂.trans grown₃) (all element there)
        · exact Workspace.HasAll.of_extends grown₃ hasSmaller
      · exact hasLarger

theorem sortByNetwork_safe (network : List (Nat × Nat)) {elements : List (List Wire)}
    (all : start.HasLists used elements) :
    Safe used (sortByNetwork network elements) start fun outs next =>
      next.HasLists used outs := by
  rw [sortByNetwork]
  cases List.find? _ _ with
  | some position => exact .refusal _ _
  | none =>
    have kept : start.HasLists used elements.toArray.toList := all
    apply (Safe.foldlM (fun comparator _ soFar now _ hasSoFar =>
      compareExchange_safe comparator hasSoFar) kept).bind
    exact fun out next _ hasOut => .pure hasOut

theorem compareWithLater_safe {later : List (List Wire)} (has : start.HasAll used xs)
    (all : start.HasLists used later) :
    Safe used (compareWithLater xs later) start fun outs next => next.HasPairs used outs := by
  refine .mapM Workspace.hasPair_lasting fun y member now ahead => ?_
  apply (less_safe (Workspace.HasAll.of_extends ahead has)
    (Workspace.HasAll.of_extends ahead (all y member))).bind
  intro isLess s₁ grown₁ hasLess
  apply (Wiring.lift_safe hasLess 1).of_wiring.bind
  intro one s₂ grown₂ hasOne
  apply (Wiring.binary_safe .add (hasLess.of_extends grown₂) hasOne).of_wiring.bind
  intro isNotLess s₃ grown₃ hasNotLess
  exact .pure ⟨hasNotLess, hasLess.of_extends (grown₂.trans grown₃)⟩

theorem precedence_safe {zero : Wire} {elements : List (List Wire)} (has : start.Has used zero)
    (all : start.HasLists used elements) :
    Safe used (precedence zero elements) start fun rows next => next.HasLists used rows := by
  induction elements generalizing start with
  | nil => exact .pure nofun
  | cons x later ih =>
    obtain ⟨hasX, others⟩ := List.forall_mem_cons.mp all
    rw [precedence]
    apply (compareWithLater_safe hasX others).bind
    intro comparisons s₁ grown₁ hasComparisons
    apply (ih (has.of_extends grown₁) (Workspace.HasLists.of_extends grown₁ others)).bind
    intro rows s₂ grown₂ hasRows
    have comparisonsLater := Workspace.HasPairs.of_extends grown₂ hasComparisons
    refine .pure (List.forall_mem_cons.mpr ⟨List.forall_mem_cons.mpr
      ⟨has.of_extends (grown₁.trans grown₂), ?_⟩, ?_⟩)
    · exact List.forall_mem_map.mpr fun pair member => (comparisonsLater pair member).1
    · refine List.forall_mem_map.mpr fun both member => ?_
      obtain ⟨comparison, row⟩ := both
      obtain ⟨here, there⟩ := List.of_mem_zip member
      exact List.forall_mem_cons.mpr ⟨(comparisonsLater comparison here).2, hasRows row there⟩

theorem addMasked_safe {mask : Wire} {sums bits : List Wire} (has : start.Has used mask)
    (sumsThere : start.HasAll used sums) (bitsThere : start.HasAll used bits) :
    Safe used (addMasked mask sums bits) start fun outs next => next.HasAll used outs := by
  fun_induction addMasked mask sums bits generalizing start with
  | case1 sum sums bit bits ih =>
    obtain ⟨hasSum, otherSums⟩ := List.forall_mem_cons.mp sumsThere
    obtain ⟨hasBit, otherBits⟩ := List.forall_mem_cons.mp bitsThere
    apply (Wiring.binary_safe .mul has hasBit).bind
    intro masked s₁ grown₁ hasMasked
    apply (Wiring.binary_safe .add (hasSum.of_extends grown₁) hasMasked).bind
    intro added s₂ grown₂ hasAdded
    have until₂ := grown₁.trans grown₂
    apply (ih (has.of_extends until₂) (Workspace.HasAll.of_extends until₂ otherSums)
      (Workspace.HasAll.of_extends until₂ otherBits)).bind
    intro outs s₃ grown₃ hasOuts
    exact .pure (List.forall_mem_cons.mpr ⟨hasAdded.of_extends grown₃, hasOuts⟩)
  | case2 => exact .pure sumsThere

theorem hasAll_replicate {zero : Wire} (width : Nat) (has : start.Has used zero) :
    start.HasAll used (List.replicate width zero) := by
  intro wire member
  rwa [List.eq_of_mem_replicate member]

theorem elementOfRank_safe {zero : Wire} (width rankWidth place : Nat)
    {ranked : List (List Wire × List Wire)} (has : start.Has used zero)
    (all : ∀ pair ∈ ranked, start.HasAll used pair.1 ∧ start.HasAll used pair.2) :
    Safe used (elementOfRank zero width rankWidth ranked place) start fun outs next =>
      next.HasAll used outs := by
  rw [elementOfRank]
  apply (Wiring.constantBits_safe has.1 has.holds (.ofNat place) rankWidth).of_wiring.bind
  intro target s₁ grown₁ hasTarget
  refine .foldlM (fun pair member sums now ahead hasSums => ?_) ?_
  · obtain ⟨element, rank⟩ := pair
    obtain ⟨elementThere, rankThere⟩ := all _ member
    have untilNow := grown₁.trans ahead
    apply (equal_safe (Workspace.HasAll.of_extends ahead hasTarget)
      (Workspace.HasAll.of_extends untilNow rankThere)).bind
    intro isHere s₂ grown₂ hasIsHere
    exact (addMasked_safe hasIsHere (Workspace.HasAll.of_extends grown₂ hasSums)
      (Workspace.HasAll.of_extends (untilNow.trans grown₂) elementThere)).of_wiring
  · exact hasAll_replicate width (has.of_extends grown₁)

theorem sortByRank_safe {elements : List (List Wire)} (all : start.HasLists used elements) :
    Safe used (sortByRank elements) start fun outs next => next.HasLists used outs := by
  refine .check fun width _ => ?_
  match elements, all with
  | [], all | [] :: _, all | [_ :: _], all => exact .pure all
  | (bit :: bits) :: second :: rest, all =>
    have hasBit := all _ List.mem_cons_self bit List.mem_cons_self
    apply (Wiring.lift_safe hasBit 0).of_wiring.bind
    intro zero s₁ grown₁ hasZero
    apply (precedence_safe hasZero (Workspace.HasLists.of_extends grown₁ all)).bind
    intro rows s₂ grown₂ hasRows
    apply (Safe.mapM Workspace.hasAll_lasting fun row member now ahead => by
      apply (weight_safe (Workspace.HasAll.of_extends ahead (hasRows row member))).bind
      exact fun count next _ hasCount =>
        .pure fun wire here => hasCount wire (List.mem_of_mem_take here)).bind
    intro ranks s₃ grown₃ hasRanks
    refine .mapM Workspace.hasAll_lasting fun place _ now ahead => ?_
    apply elementOfRank_safe
    · exact hasZero.of_extends (grown₂.trans (grown₃.trans ahead))
    · rintro ⟨element, rank⟩ member
      obtain ⟨here, there⟩ := List.of_mem_zip member
      exact ⟨Workspace.HasAll.of_extends (grown₁.trans (grown₂.trans (grown₃.trans ahead)))
        (all element here), Workspace.HasAll.of_extends ahead (hasRanks rank there)⟩

theorem packSlots_safe (slots : Nat) (all : start.HasAll used xs) :
    Safe used (packSlots xs slots) start fun out next => next.Has used out := by
  unfold packSlots
  by_cases differ : xs.length ≠ slots
  · rw [if_pos differ]
    exact .refusal _ _
  · rw [if_neg differ]
    cases xs with
    | nil => exact .refusal _ _
    | cons first rest =>
      apply (Wiring.lift_safe (all first List.mem_cons_self) 0).of_wiring.bind
      intro zero s₁ grown₁ hasZero
      refine .foldlM (fun wire member packed now ahead hasPacked => ?_) hasZero
      apply (Wiring.shift_safe .right 1 hasPacked).of_wiring.bind
      intro moved s₂ grown₂ hasMoved
      have has := all wire (List.mem_reverse.mp member)
      exact (Wiring.binary_safe .add hasMoved
        (has.of_extends (grown₁.trans (ahead.trans grown₂)))).of_wiring

theorem fillSlots_safe {wire : Wire} (slots : Nat) (has : start.Has used wire) :
    Safe used (Wiring.fillSlots wire slots) start fun out next => next.Has used out := by
  rw [Wiring.fillSlots]
  apply (Wiring.lift_safe has 0).bind
  intro zero s₁ grown₁ hasZero
  refine .foldlM (fun _ _ filled now ahead hasFilled => ?_) hasZero
  apply (Wiring.shift_safe .left 1 hasFilled).bind
  intro moved s₂ grown₂ hasMoved
  exact Wiring.binary_safe .add hasMoved (has.of_extends (grown₁.trans (ahead.trans grown₂)))

def SelectsAndSums (used : Nat → Prop) (soFar : Wire × List Wire) (workspace : Workspace) : Prop :=
  workspace.Has used soFar.1 ∧ workspace.HasAll used soFar.2

theorem addRotating_safe {zero selector : Wire} (width : Nat) {elements : List (List Wire)}
    (has : start.Has used zero) (selects : start.Has used selector)
    (all : start.HasLists used elements) :
    Safe used (addRotating zero width selector elements) start fun outs next =>
      next.HasAll used outs := by
  rw [addRotating]
  have kept : SelectsAndSums used (selector, List.replicate width zero) start :=
    ⟨selects, hasAll_replicate width has⟩
  refine Safe.bind (Safe.foldlM (fun element member soFar now ahead hasSoFar => ?_) kept)
    fun out next _ hasOut => .pure hasOut.2
  obtain ⟨turned, sums⟩ := soFar
  obtain ⟨hasTurned, hasSums⟩ := hasSoFar
  apply (addMasked_safe hasTurned hasSums
    (Workspace.HasAll.of_extends ahead (all element member))).bind
  intro added s₁ grown₁ hasAdded
  apply (Wiring.shift_safe .left 1 (hasTurned.of_extends grown₁)).bind
  intro next s₂ grown₂ hasNext
  exact .pure ⟨hasNext, Workspace.HasAll.of_extends grown₂ hasAdded⟩

theorem mem_of_columns {elements : List (List Wire)} {width : Nat} {column : List Wire} {wire : Wire}
    (isColumn : column ∈ columns elements width) (member : wire ∈ column) :
    ∃ element ∈ elements, wire ∈ element := by
  obtain ⟨place, _, rfl⟩ := List.mem_map.mp isColumn
  obtain ⟨element, present, found⟩ := List.mem_filterMap.mp member
  exact ⟨element, present, List.mem_of_getElem? found⟩

theorem comparePacked_safe {element packed : List Wire} (count : Nat)
    (has : start.HasAll used element) (all : start.HasAll used packed) :
    Safe used (do
        let everywhere ← (element.mapM fun bit => Wiring.fillSlots bit count : Wiring (List Wire))
        less everywhere packed : Gadget Wire) start fun out next => next.Has used out := by
  apply (Safe.mapM Workspace.has_lasting fun wire member now ahead =>
    fillSlots_safe count ((has wire member).of_extends ahead)).of_wiring.bind
  intro everywhere next extended hasEverywhere
  exact less_safe hasEverywhere (Workspace.HasAll.of_extends extended all)

theorem pickPacked_safe {zero : Wire} {ranks : List Wire} (width place rankWidth : Nat)
    {elements : List (List Wire)} (has : start.Has used zero) (ranksThere : start.HasAll used ranks)
    (all : start.HasLists used elements) :
    Safe used (do
        let target ← Wiring.constantBits zero.circuit (.ofNat place) rankWidth
        addRotating zero width (← equal target ranks) elements : Gadget (List Wire)) start
      fun outs next => next.HasAll used outs := by
  apply (Wiring.constantBits_safe has.1 has.holds (.ofNat place) rankWidth).of_wiring.bind
  intro target s₁ grown₁ hasTarget
  apply (equal_safe hasTarget (Workspace.HasAll.of_extends grown₁ ranksThere)).bind
  intro isHere s₂ grown₂ hasIsHere
  have until₂ := grown₁.trans grown₂
  exact (addRotating_safe width (has.of_extends until₂) hasIsHere
    (Workspace.HasLists.of_extends until₂ all)).of_wiring

theorem sortPacked_safe {elements : List (List Wire)} (all : start.HasLists used elements) :
    Safe used (sortPacked elements) start fun outs next => next.HasLists used outs := by
  refine .check fun width _ => ?_
  match elements, all with
  | [], all | [] :: _, all | [_ :: _], all => exact .pure all
  | (bit :: bits) :: second :: rest, all =>
    have hasBit := all _ List.mem_cons_self bit List.mem_cons_self
    apply (Wiring.lift_safe hasBit 0).of_wiring.bind
    intro zero s₁ grown₁ hasZero
    apply (Safe.mapM Workspace.has_lasting fun column isColumn now ahead => by
      refine packSlots_safe _ fun wire member => ?_
      obtain ⟨element, present, here⟩ := mem_of_columns isColumn member
      exact (all element present wire here).of_extends (grown₁.trans ahead)).bind
    intro packed s₂ grown₂ hasPacked
    have until₂ := grown₁.trans grown₂
    apply (Safe.mapM Workspace.has_lasting fun element member now ahead =>
      comparePacked_safe _ (Workspace.HasAll.of_extends (until₂.trans ahead) (all element member))
        (Workspace.HasAll.of_extends ahead hasPacked)).bind
    intro precedes s₃ grown₃ hasPrecedes
    apply (weight_safe hasPrecedes).bind
    intro count s₄ grown₄ hasCount
    have ranks : s₄.HasAll used (count.take (log2Ceil ((bit :: bits) :: second :: rest).length)) :=
      fun wire member => hasCount wire (List.mem_of_mem_take member)
    have onward := grown₂.trans (grown₃.trans grown₄)
    exact .mapM Workspace.hasAll_lasting fun place _ now ahead =>
      pickPacked_safe width place _ (hasZero.of_extends (onward.trans ahead))
        (Workspace.HasAll.of_extends ahead ranks)
        (Workspace.HasLists.of_extends (grown₁.trans (onward.trans ahead)) all)

end Gadget

namespace Wiring

inductive Call where
  | constant (circuit : Nat) (value : UInt64)
  | input (circuit : Nat) (name : String)
  | lift (wire : Wire) (value : UInt64)
  | binary (op : BinaryOp) (x y : Wire)
  | shift (direction : Direction) (operand : Wire) (amount : UInt64)
  | not (x : Wire)
  | or (x y : Wire)
  | equalBit (x y : Wire)
  | lessBit (x y : Wire)
  | selectBit (selector whenZero whenOne : Wire)
  | constantBits (circuit : Nat) (value : UInt64) (length : Nat)
  | halfAdd (x y : Wire)
  | fullAdd (x y carry : Wire)
  | fillSlots (wire : Wire) (slots : Nat)

namespace Call

def wires : Call → List Wire
  | constant _ _ | input _ _ | constantBits _ _ _ => []
  | lift x _ | shift _ x _ | not x | fillSlots x _ => [x]
  | binary _ x y | or x y | equalBit x y | lessBit x y | halfAdd x y => [x, y]
  | selectBit x y z | fullAdd x y z => [x, y, z]

def circuits : Call → List Nat
  | constant circuit _ | input circuit _ | constantBits circuit _ _ => [circuit]
  | call => call.wires.map Wire.circuit

def run : Call → Wiring (List Wire)
  | constant circuit value => do return [← Wiring.constant circuit value]
  | input circuit name => do return [← wire circuit (.input name)]
  | lift x value => do return [← x.lift value]
  | binary op x y => do return [← Wiring.binary op x y]
  | shift direction operand amount => do return [← Wiring.shift direction operand amount]
  | not x => do return [← Wiring.not x]
  | or x y => do return [← Wiring.or x y]
  | equalBit x y => do return [← Wiring.equalBit x y]
  | lessBit x y => do return [← Wiring.lessBit x y]
  | selectBit selector whenZero whenOne => do
    return [← Wiring.selectBit selector whenZero whenOne]
  | constantBits circuit value length => Wiring.constantBits circuit value length
  | halfAdd x y => do
    let (sum, carry) ← Wiring.halfAdd x y
    return [sum, carry]
  | fullAdd x y carry => do
    let (sum, carry) ← Wiring.fullAdd x y carry
    return [sum, carry]
  | fillSlots x slots => do return [← Wiring.fillSlots x slots]

theorem mem_circuits {call : Call} {wire : Wire} (member : wire ∈ call.wires) :
    wire.circuit ∈ call.circuits := by
  cases call with
  | constant | input | constantBits => cases member
  | _ => exact List.mem_map_of_mem member

theorem run_safe {call : Call}
    (holds : ∀ index ∈ call.circuits, used index ∧ start.Holds index)
    (all : start.HasAll used call.wires) :
    Safe used call.run start fun outs next => next.HasAll used outs := by
  cases call with
  | constant circuit value =>
    obtain ⟨uses, there⟩ := holds circuit List.mem_cons_self
    exact (constant_safe uses there value).singleton
  | input circuit name =>
    obtain ⟨uses, grown, held⟩ := holds circuit List.mem_cons_self
    exact (wire_safe uses held (Build.input_yields grown name)).singleton
  | lift x value => exact (lift_safe (all x List.mem_cons_self) value).singleton
  | shift direction x amount =>
    exact (shift_safe direction amount (all x List.mem_cons_self)).singleton
  | not x => exact (not_safe (all x List.mem_cons_self)).singleton
  | fillSlots x slots => exact (Gadget.fillSlots_safe slots (all x List.mem_cons_self)).singleton
  | constantBits circuit value length =>
    obtain ⟨uses, there⟩ := holds circuit List.mem_cons_self
    exact constantBits_safe uses there value length
  | binary op x y =>
    obtain ⟨first, second⟩ := Workspace.hasAll_pair.mp all
    exact (binary_safe op first second).singleton
  | or x y =>
    obtain ⟨first, second⟩ := Workspace.hasAll_pair.mp all
    exact (or_safe first second).singleton
  | equalBit x y =>
    obtain ⟨first, second⟩ := Workspace.hasAll_pair.mp all
    exact (equalBit_safe first second).singleton
  | lessBit x y =>
    obtain ⟨first, second⟩ := Workspace.hasAll_pair.mp all
    exact (lessBit_safe first second).singleton
  | halfAdd x y =>
    obtain ⟨first, second⟩ := Workspace.hasAll_pair.mp all
    exact (halfAdd_safe first second).bind fun out _ _ has => .pure (Workspace.hasAll_pair.mpr has)
  | selectBit selector x y =>
    obtain ⟨selects, operands⟩ := List.forall_mem_cons.mp all
    obtain ⟨first, second⟩ := Workspace.hasAll_pair.mp operands
    exact (selectBit_safe selects first second).singleton
  | fullAdd x y carry =>
    obtain ⟨first, operands⟩ := List.forall_mem_cons.mp all
    obtain ⟨second, carried⟩ := Workspace.hasAll_pair.mp operands
    exact (fullAdd_safe first second carried).bind fun out _ _ has => .pure (Workspace.hasAll_pair.mpr has)

end Call

end Wiring

end ArithCircuit
