import ArithCircuit.Proofs.Canonical
import ArithCircuit.Proofs.Decimals
import Mathlib.Data.List.OfFn
import Mathlib.Logic.Function.Basic

set_option autoImplicit false

namespace ArithCircuit

def rowName (name : String) (row : Nat) : String := s!"{name}{row}"

def bitName (name : String) (row place : Nat) : String := rowName (rowName name row) place

theorem toList_rowName (name : String) (row : Nat) :
    (rowName name row).toList = name.toList ++ Nat.toDigits 10 row := by
  have spelled : rowName name row = name ++ toString row := rfl
  rw [spelled, String.toList_append, Nat.toString_eq_ofList_toDigits, String.toList_ofList]

theorem toList_bitName (name : String) (row place : Nat) :
    (bitName name row place).toList =
      name.toList ++ (Nat.toDigits 10 row ++ Nat.toDigits 10 place) := by
  rw [bitName, toList_rowName, toList_rowName, List.append_assoc]

theorem rowName_inj {name : String} {row other : Nat}
    (same : rowName name row = rowName name other) : row = other := by
  have spelled := congrArg String.toList same
  rw [toList_rowName, toList_rowName] at spelled
  exact digits_inj (List.append_cancel_left spelled)

theorem bitName_injective_iff (name : String) (rows width : Nat) :
    (Function.Injective fun place : Fin rows × Fin width => bitName name place.1 place.2) ↔
      rows ≤ 11 ∨ width ≤ 10 := by
  constructor
  · intro injective
    by_contra large
    have beforeRow : 1 < rows ∧ 11 < rows := by omega
    have beforePlace : 10 < width ∧ 0 < width := by omega
    have clash : bitName name 1 10 = bitName name 11 0 := by
      apply String.toList_injective
      rw [toList_bitName, toList_bitName]
      rfl
    have same := @injective (⟨1, beforeRow.1⟩, ⟨10, beforePlace.1⟩)
      (⟨11, beforeRow.2⟩, ⟨0, beforePlace.2⟩) clash
    simp at same
  · intro small
    rintro ⟨⟨i, iBound⟩, ⟨j, jBound⟩⟩ ⟨⟨i', iBound'⟩, ⟨j', jBound'⟩⟩ same
    have spelled := congrArg String.toList same
    simp only [toList_bitName] at spelled
    have digits := List.append_cancel_left spelled
    have equal : i = i' ∧ j = j' := by
      cases small with
      | inl fewRows => exact digits_append_of_le_ten (by omega) (by omega) digits
      | inr narrow =>
        exact digits_append_inj digits (.inr ((length_digits_of_lt_ten (by omega)).trans
          (length_digits_of_lt_ten (by omega)).symm))
    simp only [Prod.mk.injEq, Fin.mk.injEq]
    exact equal

theorem exists_ofFn {α β : Type} {R : α → β → Prop} {length : Nat} {f : Fin length → β}
    {elements : List α} (related : List.Forall₂ R elements (List.ofFn f)) :
    ∃ g : Fin length → α, elements = List.ofFn g ∧ ∀ i, R (g i) (f i) := by
  obtain ⟨sameLength, each⟩ := List.forall₂_iff_get.mp related
  rw [List.length_ofFn] at sameLength
  subst sameLength
  refine ⟨elements.get, (List.ofFn_get elements).symm, fun i => ?_⟩
  have here := each i i.isLt (by simp)
  simpa using here

theorem map_range_eq_ofFn {α : Type} (f : Nat → α) (length : Nat) :
    (List.range length).map f = List.ofFn fun i : Fin length => f i := by
  apply List.ext_getElem
  · simp
  · intro i _ _
    simp

namespace Circuit

section Positions

variable {Position : Type} {circuit : Circuit} {bits : Position → Nat} {names : Position → String}

def Named (circuit : Circuit) (bits : Position → Nat) (names : Position → String) : Prop :=
  ∀ position, circuit.node? (bits position) = some (.input (names position))

def DistinctNames (circuit : Circuit) (bits : Position → Nat) : Prop :=
  ∃ names : Position → String, circuit.Named bits names ∧ Function.Injective names

def Assignable (circuit : Circuit) (bits : Position → Nat) : Prop :=
  ∀ (T : Type) (domain : Domain T) (values : Position → T), ∃ inputs, ∀ position,
    circuit.eval? domain inputs (bits position) = some (.ok (values position))

def KeptApart (circuit : Circuit) (bits : Position → Nat) : Prop :=
  ∀ (larger : Circuit) (merger : Merger), circuit.Extends larger →
    Session Merger.merge .empty larger merger →
      ∀ (first second : Position) (representative : Nat),
        merger.canonical[bits first]? = some representative →
          merger.canonical[bits second]? = some representative → first = second

theorem Named.denotes (named : circuit.Named bits names) (position : Position) :
    circuit.Denotes (bits position) (.input (names position)) :=
  formula?_of_node? (named position)

theorem Named.eval?_eq (named : circuit.Named bits names) {T : Type} (domain : Domain T)
    (inputs : String → Option T) (position : Position) {value : T} :
    circuit.eval? domain inputs (bits position) = some (.ok value) ↔
      inputs (names position) = some value := by
  rw [eval?_of_denotes domain inputs (named.denotes position), Formula.eval]
  cases inputs (names position) <;> simp

theorem Named.distinctNames_iff (named : circuit.Named bits names) :
    circuit.DistinctNames bits ↔ Function.Injective names := by
  constructor
  · intro distinct
    obtain ⟨others, alsoNamed, injective⟩ := distinct
    have same : others = names := by
      funext position
      exact Node.input.inj (Option.some.inj ((alsoNamed position).symm.trans (named position)))
    exact same ▸ injective
  · exact fun injective => ⟨names, named, injective⟩

theorem Named.assignable_iff (named : circuit.Named bits names) :
    circuit.Assignable bits ↔ Function.Injective names := by
  constructor
  · intro assignable first second same
    by_contra different
    classical
    obtain ⟨inputs, binds⟩ := assignable Bool .bits fun position => decide (position = first)
    have atFirst := (named.eval?_eq _ _ _).mp (binds first)
    have atSecond := (named.eval?_eq _ _ _).mp (binds second)
    rw [← same, atFirst] at atSecond
    have values := Option.some.inj atSecond
    simp [Ne.symm different] at values
  · intro injective T domain values
    refine ⟨Function.extend names (fun position => some (values position)) fun _ => none, ?_⟩
    intro position
    exact (named.eval?_eq _ _ _).mpr (injective.extend_apply _ _ position)

theorem Named.name_of_canonical (named : circuit.Named bits names) {larger : Circuit}
    {merger : Merger} (extended : circuit.Extends larger) (right : Merger.Right larger merger)
    {position : Position} {representative : Nat}
    (found : merger.canonical[bits position]? = some representative) :
    ∃ formula, larger.Denotes representative formula ∧
      (Formula.input (names position)).Similar formula :=
  (right.related _ _ found).result_of_denotes
    (denotes_of_extends extended (named.denotes position))

theorem Named.keptApart_iff (named : circuit.Named bits names) :
    circuit.KeptApart bits ↔ Function.Injective names := by
  constructor
  · intro keptApart first second same
    have firstInRange := lt_size_of_node? (named first)
    obtain ⟨⟨form, merger⟩, middle, gives, grows, right, _, known⟩ :=
      Merger.merge_completes (Merger.empty_right circuit) firstInRange
    have secondInRange := Nat.lt_of_lt_of_le (lt_size_of_node? (named second))
      (size_le_of_extends grows.extended)
    obtain ⟨⟨form', last⟩, final, givesNext, further, lastRight, found', complete⟩ :=
      Merger.merge_completes right secondInRange
    have extended := extends_trans grows.extended further.extended
    have kept := complete (bits first) (.inl (known _ (.inr (.refl _))))
    obtain ⟨representative, found⟩ : ∃ form, last.canonical[bits first]? = some form :=
      ⟨_, Std.HashMap.getElem?_eq_some_getElem kept⟩
    dsimp only at found'
    obtain ⟨formula, denotes, similar⟩ := named.name_of_canonical extended lastRight found
    obtain ⟨formula', denotes', similar'⟩ := named.name_of_canonical extended lastRight found'
    have representatives := lastRight.eq_of_similar (lastRight.canonical _ _ found)
      (lastRight.canonical _ _ found') denotes denotes' (similar.symm.trans (same ▸ similar'))
    have session := (Session.call (.start circuit) firstInRange gives).call secondInRange givesNext
    rw [representatives] at found
    exact keptApart final last extended session first second form' found found'
  · intro injective larger merger extended session first second representative found found'
    have right := Merger.session_right session
    obtain ⟨formula, denotes, similar⟩ := named.name_of_canonical extended right found
    obtain ⟨formula', denotes', similar'⟩ := named.name_of_canonical extended right found'
    obtain rfl := Option.some.inj (denotes.symm.trans denotes')
    exact injective (similar.trans similar'.symm)

end Positions

end Circuit

namespace Build

theorem inputs_name (name : String) (length : Nat) (circuit : Circuit) :
    Yields (inputs name length) circuit fun ids grown => circuit.Extends grown ∧
      ∃ bits : Fin length → Nat, ids = List.ofFn bits ∧
        grown.Named bits fun place => rowName name place := by
  refine (inputs_yields name length circuit).mono ?_
  intro ids grown finished
  obtain ⟨extended, denote⟩ := finished
  rw [numbered, map_range_eq_ofFn] at denote
  obtain ⟨bits, listed, each⟩ := exists_ofFn denote
  refine ⟨extended, bits, listed, fun place => ?_⟩
  obtain ⟨node, found, spells⟩ := Circuit.spells_of_denotes (each place)
  cases spells
  exact found

theorem inputRows_name (name : String) (rows width : Nat) (circuit : Circuit) :
    Yields (inputRows name rows width) circuit fun grid grown => circuit.Extends grown ∧
      ∃ bits : Fin rows × Fin width → Nat,
        grid = (List.ofFn fun row => List.ofFn fun place => bits (row, place)) ∧
        grown.Named bits fun position => bitName name position.1 position.2 := by
  refine (inputRows_yields name rows width circuit).mono ?_
  intro grid grown finished
  obtain ⟨extended, denote⟩ := finished
  rw [map_range_eq_ofFn] at denote
  obtain ⟨row, listed, each⟩ := exists_ofFn denote
  simp only [numbered, map_range_eq_ofFn] at each
  choose bits rowListed denotes using fun i => exists_ofFn (each i)
  refine ⟨extended, fun position => bits position.1 position.2, ?_, fun position => ?_⟩
  · rw [listed, show row = fun i => List.ofFn (bits i) from funext rowListed]
  · obtain ⟨node, found, spells⟩ := Circuit.spells_of_denotes (denotes position.1 position.2)
    cases spells
    exact found

-- A row is always told apart, and several rows are only while their names do not clash: from twelve
-- rows of eleven on, the places (1, 10) and (11, 0) have one name and so one value and one
-- representative.
theorem numbered_inputs_told_apart (name : String) (circuit : Circuit) :
    (∀ length, ∃ ids grown, inputs name length circuit = some (ids, grown) ∧
      circuit.Extends grown ∧ ∃ bits : Fin length → Nat, ids = List.ofFn bits ∧
        grown.DistinctNames bits ∧ grown.Assignable bits ∧ grown.KeptApart bits) ∧
    ∀ rows width, ∃ grid grown, inputRows name rows width circuit = some (grid, grown) ∧
      circuit.Extends grown ∧ ∃ bits : Fin rows × Fin width → Nat,
        grid = (List.ofFn fun row => List.ofFn fun place => bits (row, place)) ∧
        (grown.DistinctNames bits ↔ rows ≤ 11 ∨ width ≤ 10) ∧
        (grown.Assignable bits ↔ rows ≤ 11 ∨ width ≤ 10) ∧
        (grown.KeptApart bits ↔ rows ≤ 11 ∨ width ≤ 10) := by
  constructor
  · intro length
    obtain ⟨ids, grown, gives, extended, bits, listed, named⟩ := inputs_name name length circuit
    have injective : Function.Injective fun place : Fin length => rowName name place :=
      fun _ _ same => Fin.ext (rowName_inj same)
    exact ⟨ids, grown, gives, extended, bits, listed, named.distinctNames_iff.mpr injective,
      named.assignable_iff.mpr injective, named.keptApart_iff.mpr injective⟩
  · intro rows width
    obtain ⟨grid, grown, gives, extended, bits, listed, named⟩ :=
      inputRows_name name rows width circuit
    have small := bitName_injective_iff name rows width
    exact ⟨grid, grown, gives, extended, bits, listed, named.distinctNames_iff.trans small,
      named.assignable_iff.trans small, named.keptApart_iff.trans small⟩

end Build

end ArithCircuit
