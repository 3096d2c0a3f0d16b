import ArithCircuit.Proofs.Slots
import ArithCircuit.Proofs.Sort

set_option autoImplicit false

namespace ArithCircuit

namespace Gadget

section Columns

variable {α β : Type}

theorem forall₂_columns {R : α → β → Prop} {rows : List (List α)} {others : List (List β)}
    (related : List.Forall₂ (List.Forall₂ R) rows others) (width : Nat) :
    List.Forall₂ (List.Forall₂ R) (columns rows width) (columns others width) := by
  refine List.forall₂_map_left_iff.mpr (List.forall₂_map_right_iff.mpr
    (List.forall₂_same.mpr fun k _ => List.rel_filterMap ?_ related))
  intro row other here
  change Option.Rel R row[k]? other[k]?
  by_cases bound : k < other.length
  · obtain ⟨a, found, holds⟩ := forall₂_getElem? here (List.getElem?_eq_getElem bound)
    rw [found, List.getElem?_eq_getElem bound]
    exact .some holds
  · rw [List.getElem?_eq_none (Nat.le_of_not_lt (here.length_eq ▸ bound)),
      List.getElem?_eq_none (Nat.le_of_not_lt bound)]
    exact .none

theorem length_of_mem_columns {rows : List (List α)} {width : Nat}
    (wide : ∀ row ∈ rows, row.length = width) {column : List α}
    (member : column ∈ columns rows width) : column.length = rows.length := by
  obtain ⟨k, inRange, rfl⟩ := List.mem_map.mp member
  refine List.filterMap_length_eq_length.mpr fun row present => ?_
  rw [List.getElem?_eq_getElem ((wide row present).symm ▸ List.mem_range.mp inRange)]
  rfl

theorem columns_map (f : α → β) (rows : List (List α)) (width : Nat) :
    columns (rows.map (List.map f)) width = (columns rows width).map (List.map f) := by
  simp only [columns, List.map_map]
  refine List.map_congr_left fun k _ => ?_
  simp [List.filterMap_map, List.map_filterMap]

end Columns

theorem getElem?_columns {rows : List (List Bool)} {width position : Nat} {row : List Bool}
    (wide : ∀ row ∈ rows, row.length = width) (found : rows[position]? = some row) :
    (columns rows width).map (fun column => column[position]?.getD false) = row := by
  have rowWidth := wide row (List.mem_of_getElem? found)
  apply List.ext_getElem
  · simp [columns, rowWidth]
  · intro k _ bound
    have total : rows.filterMap (fun row => row[k]?) = rows.map fun row => row[k]?.getD false := by
      rw [← List.filterMap_eq_map]
      refine List.filterMap_congr fun row member => ?_
      have inRange : k < row.length := by rw [wide row member, ← rowWidth]; exact bound
      simp [inRange]
    simp [columns, total, found, bound]

end Gadget

namespace Slots

variable {n : Nat}

def less (first second : List (Vector Bool n)) : Vector Bool n :=
  Vector.ofFn fun slot =>
    decide (Bits.number (first.map (·.get slot)) < Bits.number (second.map (·.get slot)))

def comparisons (width : Nat) (elements : List (List (Vector Bool n))) : List (Vector Bool n) :=
  elements.map fun element => less (element.map (fill n)) ((Gadget.columns elements width).map pack)

def rank (comparisons : List (Vector Bool n)) (slot : Fin n) : Nat :=
  (comparisons.map (·.get slot)).count true % 2 ^ log2Ceil n

def sorted [NeZero n] (width : Nat) (elements : List (List (Vector Bool n))) : List (List Bool) :=
  Bits.byRank width n
    ((elements.map (List.map (·.get 0))).zip (List.ofFn (rank (comparisons width elements))))

def placed [NeZero n] (width : Nat) (elements : List (List (Vector Bool n))) : List (List Bool) :=
  Bits.byWrittenRank width (log2Ceil n) n
    ((elements.map (List.map (·.get 0))).zip (List.ofFn (rank (comparisons width elements))))

theorem placed_eq_sorted [NeZero n] (addressable : n ≤ UInt64.size) (width : Nat)
    (elements : List (List (Vector Bool n))) : placed width elements = sorted width elements :=
  Bits.byWrittenRank_eq (le_two_pow_log2Ceil n) addressable _ _

theorem placed_single {width : Nat} {element : List (Vector Bool 1)} (wide : element.length = width) :
    placed width [element] = [element.map (·.get 0)] := by
  subst wide
  have zeros := Bits.addMasked_zeros (element.map (·.get 0))
  rw [List.length_map] at zeros
  simpa [placed, Bits.byWrittenRank, Bits.written, rank, Bits.ofRank, log2Ceil, Nat.mod_one]
    using zeros

section Distinct

variable {values : List (List Bool)} {width : Nat}

theorem get_packed (wide : ∀ bits ∈ values, bits.length = width) (counted : values.length = n)
    {slot : Fin n} {bits : List Bool} (found : values[slot.val]? = some bits) :
    ((Gadget.columns (values.map (List.map (inFirst n))) width).map pack).map (·.get slot) = bits := by
  rw [Gadget.columns_map, List.map_map, List.map_map, ← Gadget.getElem?_columns wide found]
  refine List.map_congr_left fun column member => ?_
  exact get_pack (Nat.le_of_eq ((Gadget.length_of_mem_columns wide member).trans counted)) slot

theorem get_filled (bits : List Bool) (slot : Fin n) :
    ((bits.map (inFirst n)).map (fill n)).map (·.get slot) = bits := by
  simp [Function.comp_def, get_fill]

-- An element is not less than itself, so the count is never cut off.
theorem rank_comparisons (wide : ∀ bits ∈ values, bits.length = width) (counted : values.length = n)
    {slot : Fin n} {bits : List Bool} (found : values[slot.val]? = some bits) :
    rank (comparisons width (values.map (List.map (inFirst n)))) slot =
      values.countP (Bits.number · < Bits.number bits) := by
  have compared : (comparisons width (values.map (List.map (inFirst n)))).map (·.get slot) =
      values.map fun other => decide (Bits.number other < Bits.number bits) := by
    rw [comparisons, List.map_map, List.map_map]
    refine List.map_congr_left fun other _ => ?_
    simp only [Function.comp_apply, less, get_ofFn]
    rw [get_packed wide counted found, get_filled]
  have below : values.countP (Bits.number · < Bits.number bits) < n := by
    rw [← counted]
    exact List.countP_lt_length_iff.mpr ⟨bits, List.mem_of_getElem? found, by simp⟩
  rw [rank, compared, List.count_eq_countP, List.countP_map]
  simp only [Function.comp_def, beq_true]
  exact Nat.mod_eq_of_lt (below.trans_le (le_two_pow_log2Ceil n))

theorem ranks_comparisons (wide : ∀ bits ∈ values, bits.length = width) (counted : values.length = n)
    (distinct : (values.map Bits.number).Nodup) :
    List.ofFn (rank (n := n) (comparisons width (values.map (List.map (inFirst n))))) =
      ranks Bits.number values := by
  rw [ranks_of_distinct distinct]
  apply List.ext_getElem
  · simp [counted]
  · intro slot bound _
    rw [List.getElem_ofFn, List.getElem_map]
    exact rank_comparisons wide counted (List.getElem?_eq_getElem _)

theorem sorted_of_distinct [NeZero n] (wide : ∀ bits ∈ values, bits.length = width)
    (counted : values.length = n) (distinct : (values.map Bits.number).Nodup) :
    (sorted (n := n) width (values.map (List.map (inFirst n)))).Perm values ∧
      (sorted (n := n) width (values.map (List.map (inFirst n)))).Pairwise
        (Bits.number · ≤ Bits.number ·) := by
  obtain ⟨results, same, ascending, places⟩ := ranks_are_places Bits.number values
  have firsts : (values.map (List.map (inFirst n))).map (List.map (·.get 0)) = values := by
    simp [Function.comp_def, get_inFirst]
  have whole : sorted width (values.map (List.map (inFirst n))) = results := by
    rw [sorted, firsts, ranks_comparisons wide counted distinct, ← counted, ← same.length_eq]
    exact Bits.byRank_of_places places fun bits member => wide bits (same.mem_iff.mp member)
  rw [whole]
  exact ⟨same, ascending⟩

end Distinct

def turn [NeZero n] (state : Vector Bool n × List Bool) (bits : List Bool) :
    Vector Bool n × List Bool :=
  ((Domain.slots n).shiftLeft state.1 1, Bits.addMasked (state.1.get 0) state.2 bits)

theorem foldl_turn [NeZero n] {values : List (List Bool)} {masks : List Bool}
    {selector : Vector Bool n} (starts : masks <+: selector.toList)
    (counted : values.length = masks.length) (sums : List Bool) :
    (values.foldl turn (selector, sums)).2 =
      (values.zip masks).foldl (fun sums pair => Bits.addMasked pair.2 sums pair.1) sums := by
  induction values generalizing masks selector sums with
  | nil => rfl
  | cons bits later ih =>
    match masks with
    | mask :: masks =>
      obtain ⟨rest, whole⟩ := starts
      have first : mask = selector.get 0 := by
        have found := toList_getElem? selector 0
        rw [← whole] at found
        exact Option.some.inj found
      have turned : masks <+: ((Domain.slots n).shiftLeft selector 1).toList := by
        refine ⟨rest ++ [mask], ?_⟩
        change _ = (Domain.rotate 1 selector).toList
        rw [toList_rotate, ← whole, List.cons_append, List.rotate_cons_succ, List.rotate_zero,
          List.append_assoc]
      rw [List.foldl_cons, turn, ← first]
      exact ih turned (by simpa using counted) _

theorem foldl_turn_rank [NeZero n] (ranks : Fin n → Nat) (place : Nat) {values : List (List Bool)}
    (counted : values.length = n) (sums : List Bool) :
    (values.foldl turn (Vector.ofFn fun slot => ranks slot == place, sums)).2 =
      (values.zip (List.ofFn ranks)).foldl (Bits.ofRank place) sums := by
  have masks : (Vector.ofFn fun slot => ranks slot == place).toList =
      (List.ofFn ranks).map (· == place) := by
    rw [Vector.toList_ofFn, List.map_ofFn]
    rfl
  rw [foldl_turn (List.prefix_refl _) (by simp [counted]), masks, List.zip_map_right,
    List.foldl_map]
  rfl

end Slots

variable {n : Nat} {inputs : String → Option (Vector Bool n)} {start : Workspace} {index : Nat}

namespace Workspace

def ReadsTurning [NeZero n] (workspace : Workspace) (inputs : String → Option (Vector Bool n))
    (index : Nat) (state : Wire × List Wire) (meaning : Vector Bool n × List Bool) : Prop :=
  workspace.ReadsSlots inputs index state.1 meaning.1 ∧
    workspace.ReadsAll (.ofSlot inputs 0) index state.2 meaning.2

end Workspace

namespace Gadget

variable [NeZero n]

theorem lessSlots_builds {xs ys : List Wire} {first second : List (Vector Bool n)}
    (left : start.ReadsAllSlots inputs index xs first)
    (right : start.ReadsAllSlots inputs index ys second)
    (sameLength : first.length = second.length) (filled : first ≠ []) :
    Builds (less xs ys) start fun out next =>
      next.ReadsSlots inputs index out (Slots.less first second) := by
  apply Builds.all
  intro slot
  rw [Slots.less, Slots.get_ofFn]
  exact less_builds (left.get slot) (right.get slot) (by simpa using sameLength)
    (by simpa using filled)

theorem packColumns_builds {elements : List (List Wire)} {contents : List (List (Vector Bool n))}
    {width : Nat} (related : List.Forall₂ (start.ReadsAllSlots inputs index) elements contents)
    (wide : ∀ element ∈ elements, element.length = width) (counted : elements.length = n) :
    Builds ((columns elements width).mapM fun column => packSlots column n) start fun outs next =>
      next.ReadsAllSlots inputs index outs ((columns contents width).map Slots.pack) := by
  exact Builds.mapM
    (fun column bits => (Workspace.readsAllSlots_lasting column bits).beside (column.length = n))
    Workspace.readsSlots_lasting
    (fun column bits now _ reads => packSlots_builds reads.2 reads.1)
    ((List.forall₂_and_left _ _).mpr
      ⟨fun column member => (length_of_mem_columns wide member).trans counted,
        forall₂_columns related width⟩)

theorem precedes_builds {elements : List (List Wire)} {contents : List (List (Vector Bool n))}
    {packed : List Wire} {width : Nat}
    (related : List.Forall₂ (start.ReadsAllSlots inputs index) elements contents)
    (wide : ∀ element ∈ elements, element.length = width) (positive : 0 < width)
    (packedReads : start.ReadsAllSlots inputs index packed ((columns contents width).map Slots.pack)) :
    Builds (elements.mapM fun element => (do
        let everywhere ← (element.mapM fun bit => Wiring.fillSlots bit n : Wiring (List Wire))
        less everywhere packed : Gadget Wire)) start fun outs next =>
      next.ReadsAllSlots inputs index outs (Slots.comparisons width contents) := by
  refine Builds.mapM
    (fun element bits => (Workspace.readsAllSlots_lasting element bits).beside (element.length = width))
    Workspace.readsSlots_lasting ?_ ((List.forall₂_and_left _ _).mpr ⟨wide, related⟩)
  rintro element bits now ahead ⟨elementWidth, reads⟩
  have bitsWidth : bits.length = width := reads.length_eq.symm.trans elementWidth
  apply (Builds.mapM Workspace.readsSlots_lasting Workspace.readsSlots_lasting
    (fun _ _ _ _ here => Wiring.fillSlots_builds here n) reads).of_wiring.bind
  intro everywhere next extended everywhereReads
  apply lessSlots_builds everywhereReads
    (Workspace.readsAllSlots_lasting _ _ (ahead.trans extended) packedReads)
  · simp [Gadget.columns, bitsWidth]
  · rw [Ne, List.map_eq_nil_iff, ← List.length_eq_zero_iff]
    omega

theorem turn_builds {elements : List (List Wire)} {values : List (List Bool)}
    {state : Wire × List Wire} {meaning : Vector Bool n × List Bool}
    (stateReads : start.ReadsTurning inputs index state meaning)
    (related : List.Forall₂ (start.ReadsAll (.ofSlot inputs 0) index) elements values) :
    Builds (elements.foldlM (fun state element => do
        let sums ← addMasked state.1 state.2 element
        return (← Wiring.shift .left state.1 1, sums)) state : Wiring (Wire × List Wire)) start
      fun out next => next.ReadsTurning inputs index out (values.foldl Slots.turn meaning) := by
  refine Builds.foldlM Workspace.readsAll_lasting ?_ related stateReads
  intro state meaning element bits now _ stateReads reads
  obtain ⟨selects, sumsRead⟩ := stateReads
  apply (addMasked_builds (selects 0) sumsRead reads).bind
  intro sums s₁ grown₁ readsSums
  apply (Wiring.shift_builds .left 1 (selects.of_extends grown₁)).bind
  intro turned s₂ grown₂ turnedReads
  exact .pure ⟨turnedReads, readsSums.of_extends grown₂⟩

theorem addRotating_builds {zero selector : Wire} {width : Nat} {elements : List (List Wire)}
    {values : List (List Bool)} {contents : Vector Bool n}
    (zeroReads : start.Reads (.ofSlot inputs 0) index zero false)
    (selects : start.ReadsSlots inputs index selector contents)
    (related : List.Forall₂ (start.ReadsAll (.ofSlot inputs 0) index) elements values) :
    Builds (addRotating zero width selector elements) start fun outs next =>
      next.ReadsAll (.ofSlot inputs 0) index outs
        (values.foldl Slots.turn (contents, List.replicate width false)).2 := by
  unfold addRotating
  have initially : start.ReadsTurning inputs index (selector, List.replicate width zero)
      (contents, List.replicate width false) :=
    ⟨selects, Workspace.reads_replicate zeroReads width⟩
  apply (turn_builds initially related).bind
  intro reply next _ reads
  exact .pure reads.2

theorem placePacked_builds {zero : Wire} {ranks : List Wire} {rankOf : Fin n → Nat}
    {elements : List (List Wire)} {values : List (List Bool)} {width rankWidth place : Nat}
    (zeroReads : start.Reads (.ofSlot inputs 0) index zero false) (positive : 0 < rankWidth)
    (ranksRead : ∀ slot, start.ReadsValue (.ofSlot inputs slot) index rankWidth ranks (rankOf slot))
    (related : List.Forall₂ (start.ReadsAll (.ofSlot inputs 0) index) elements values)
    (counted : values.length = n) :
    Builds (do
        let target ← Wiring.constantBits zero.circuit (.ofNat place) rankWidth
        addRotating zero width (← equal target ranks) elements : Gadget (List Wire)) start
      fun outs next => next.ReadsAll (.ofSlot inputs 0) index outs
        ((values.zip (List.ofFn rankOf)).foldl (Bits.ofRank (Bits.written rankWidth place))
          (List.replicate width false)) := by
  obtain rfl := zeroReads.1
  apply (Builds.all fun slot => (target_builds (.ofSlot inputs slot) zeroReads.holds place
    rankWidth).of_wiring).bind
  intro target s₁ grown₁ targetReads
  have selects : Builds (equal target ranks) s₁ fun out next =>
      next.ReadsSlots inputs zero.circuit out
        (Vector.ofFn fun slot => rankOf slot == Bits.written rankWidth place) := by
    apply Builds.all
    intro slot
    rw [Slots.get_ofFn]
    exact isHere_builds positive (targetReads slot)
      (Workspace.readsValue_lasting _ _ grown₁ (ranksRead slot))
  apply selects.bind
  intro selector s₂ grown₂ selectorReads
  have untilNow := grown₁.trans grown₂
  rw [← Slots.foldl_turn_rank rankOf (Bits.written rankWidth place) counted]
  exact (addRotating_builds (zeroReads.of_extends untilNow) selectorReads
    (forall₂_of_extends Workspace.readsAll_lasting untilNow related)).of_wiring

theorem sortPacked_places {elements : List (List Wire)} {contents : List (List (Vector Bool n))}
    {width : Nat} (related : List.Forall₂ (start.ReadsAllSlots inputs index) elements contents)
    (wide : ∀ element ∈ elements, element.length = width) (positive : 0 < width)
    (counted : elements.length = n) :
    Builds (sortPacked elements) start fun outs next =>
      List.Forall₂ (next.ReadsNumber (.ofSlot inputs 0) index width) outs
        (Slots.placed width contents) := by
  have filled : elements ≠ [] := by
    rintro rfl
    exact NeZero.ne n counted.symm
  unfold sortPacked
  rw [commonWidth_ok filled positive wide, pure_bind]
  match elements, related with
  | [] :: others, related => exact absurd (wide [] List.mem_cons_self) (Nat.ne_of_lt positive)
  | [bit :: bits], related =>
    obtain rfl := counted
    obtain ⟨element, rfl⟩ := List.length_eq_one_iff.mp related.length_eq.symm
    obtain _ | ⟨reads, _⟩ := related
    have elementWidth := reads.length_eq.symm.trans (wide _ List.mem_cons_self)
    rw [Slots.placed_single elementWidth]
    exact .pure (.cons ⟨reads.get 0, (List.length_map _).trans elementWidth⟩ .nil)
  | (bit :: bits) :: second :: others, related =>
    obtain ⟨_, _, firstReads⟩ := exists_of_mem_forall₂ related.flip List.mem_cons_self
    obtain ⟨_, _, bitReads⟩ := exists_of_mem_forall₂ firstReads.flip List.mem_cons_self
    obtain rfl := Workspace.ReadsSlots.own bitReads
    dsimp only
    rw [counted]
    apply (Wiring.zero_builds (.ofSlot inputs 0) (bitReads 0).holds).of_wiring.bind
    intro zero s₁ grown₁ zeroReads
    apply (packColumns_builds (forall₂_of_extends Workspace.readsAllSlots_lasting grown₁ related)
      wide counted).bind
    intro packed s₂ grown₂ packedReads
    have until₂ := grown₁.trans grown₂
    apply (precedes_builds (forall₂_of_extends Workspace.readsAllSlots_lasting until₂ related)
      wide positive packedReads).bind
    intro precedes s₃ grown₃ precedesRead
    have until₃ := until₂.trans grown₃
    have valuesRead := List.forall₂_map_right_iff.mpr
      ((forall₂_of_extends Workspace.readsAllSlots_lasting until₃ related).imp
        fun _ _ reads => reads.get 0)
    have compared : (Slots.comparisons width contents).length = n := by
      rw [Slots.comparisons, List.length_map, ← related.length_eq, counted]
    have precedesFilled : precedes ≠ [] := by
      rintro rfl
      exact NeZero.ne n (compared.symm.trans precedesRead.length_eq.symm)
    apply (Builds.all fun slot => count_builds precedesFilled
      ⟨precedesRead.get slot, (List.length_map _).trans compared⟩).bind
    intro weights s₄ grown₄ ranksRead
    apply byRank_builds
    intro place now ahead
    have sinceCompared := grown₄.trans ahead
    apply placePacked_builds (zeroReads.of_extends ((grown₂.trans grown₃).trans sinceCompared))
    · rw [← counted]
      simp [log2Ceil]
    · exact fun slot => Workspace.readsValue_lasting _ _ ahead (ranksRead slot)
    · exact forall₂_of_extends Workspace.readsAll_lasting sinceCompared valuesRead
    · rw [List.length_map, ← related.length_eq, counted]

theorem sortPacked_builds {elements : List (List Wire)} {contents : List (List (Vector Bool n))}
    {width : Nat} (related : List.Forall₂ (start.ReadsAllSlots inputs index) elements contents)
    (wide : ∀ element ∈ elements, element.length = width) (positive : 0 < width)
    (counted : elements.length = n) (addressable : n ≤ UInt64.size) :
    Builds (sortPacked elements) start fun outs next =>
      List.Forall₂ (next.ReadsNumber (.ofSlot inputs 0) index width) outs
        (Slots.sorted width contents) := by
  rw [← Slots.placed_eq_sorted addressable]
  exact sortPacked_places related wide positive counted

section Answers

variable {workspace : Workspace} {elements : List (List Wire)} {width : Nat}

theorem sortPacked_answers (counted : elements.length = n) (positive : 0 < width)
    (wide : ∀ element ∈ elements, element.length = width)
    (own : ∀ element ∈ elements, ∀ wire ∈ element, workspace.Owns index wire)
    (addressable : n ≤ UInt64.size) :
    ∃ outputs later, (sortPacked elements).run workspace = .ok (.ok outputs, later) ∧
      workspace.Extends later ∧
      (∀ output ∈ outputs, output.length = width ∧ ∀ wire ∈ output, later.Owns index wire) ∧
      ∀ (inputs : String → Option (Vector Bool n)) contents,
        List.Forall₂ (workspace.ReadsAllSlots inputs index) elements contents →
          List.Forall₂ (later.FirstEvaluateTo inputs) outputs (Slots.sorted width contents) := by
  let Asked := {asked : (String → Option (Vector Bool n)) × List (List (Vector Bool n)) //
    List.Forall₂ (workspace.ReadsAllSlots asked.1 index) elements asked.2}
  obtain ⟨someContents, someRead⟩ := Workspace.exists_readsAllSlots (n := n) own
  have : Nonempty Asked := ⟨⟨(_, someContents), someRead⟩⟩
  obtain ⟨outputs, later, runs, extended, sorts⟩ := Builds.answers fun asked : Asked =>
    sortPacked_builds asked.property wide positive counted addressable
  refine ⟨outputs, later, runs, extended, ?_, ?_⟩
  · intro output member
    obtain ⟨bits, _, bitsRead, length⟩ :=
      exists_of_mem_forall₂ (sorts ⟨(_, someContents), someRead⟩).flip member
    exact ⟨bitsRead.length_eq.trans length, bitsRead.own⟩
  · exact fun inputs contents reads =>
      (sorts ⟨(inputs, contents), reads⟩).imp fun _ _ here => here.1.first

theorem sortPacked_agrees (counted : elements.length = n) (positive : 0 < width)
    (wide : ∀ element ∈ elements, element.length = width)
    (own : ∀ element ∈ elements, ∀ wire ∈ element, workspace.Owns index wire)
    (addressable : n ≤ UInt64.size) :
    ∃ outputs later ranked rankedLater,
      (sortPacked elements).run workspace = .ok (.ok outputs, later) ∧
      (sortByRank elements).run workspace = .ok (.ok ranked, rankedLater) ∧
      workspace.Extends later ∧
      (∀ output ∈ outputs, output.length = width ∧ ∀ wire ∈ output, later.Owns index wire) ∧
      ∀ (inputs : String → Option (Vector Bool n)) values,
        List.Forall₂ (workspace.EvaluateInFirst inputs) elements values →
        (values.map Bits.number).Nodup →
          ∃ results, List.Forall₂ (later.FirstEvaluateTo inputs) outputs results ∧
            results.map Bits.number = (values.map Bits.number).mergeSort ∧
            ∀ bits, List.Forall₂ (workspace.EvaluateTo bits) elements values →
              List.Forall₂ (rankedLater.EvaluateTo bits) ranked results := by
  have filled : elements ≠ [] := by
    rintro rfl
    exact NeZero.ne n counted.symm
  obtain ⟨outputs, later, runs, extended, fit, sorts⟩ :=
    sortPacked_answers counted positive wide own addressable
  obtain ⟨ranked, rankedLater, rankedRuns, rankedSorts⟩ :=
    sortByRank_answers filled positive wide own (counted ▸ addressable)
  refine ⟨outputs, later, ranked, rankedLater, runs, rankedRuns, extended, fit, ?_⟩
  intro inputs values evaluate distinct
  have valuesWide : ∀ bits ∈ values, bits.length = width := by
    intro bits member
    obtain ⟨element, present, here⟩ := exists_of_mem_forall₂ evaluate member
    exact here.length_eq.symm.trans (wide element present)
  obtain ⟨same, ascending⟩ := Slots.sorted_of_distinct valuesWide
    (evaluate.length_eq.symm.trans counted) distinct
  refine ⟨_, sorts inputs _ (Workspace.readsAllSlots_of_evaluate own evaluate),
    eq_mergeSort same ascending, ?_⟩
  intro bits bitsEvaluate
  obtain ⟨sorted, sortedEvaluate, sameAgain, ascendingAgain⟩ := rankedSorts bits values bitsEvaluate
  have equal := eq_of_sorted (same.trans sameAgain.symm)
    (fun row member => valuesWide row (same.mem_iff.mp member)) ascending ascendingAgain
  rw [equal]
  exact sortedEvaluate

theorem sortPacked_three_numbers :
    ∃ outputs later ranked rankedLater results,
      (sortPacked threeNumbers).run twoInputs = .ok (.ok outputs, later) ∧
      (sortByRank threeNumbers).run twoInputs = .ok (.ok ranked, rankedLater) ∧
      List.Forall₂ (later.FirstEvaluateTo
        (List.lookup · [("a", Slots.inFirst 3 false), ("b", Slots.inFirst 3 true)])) outputs results ∧
      List.Forall₂ (rankedLater.EvaluateTo (List.lookup · [("a", false), ("b", true)])) ranked
        results ∧
      results.map Bits.number = [1, 2, 3] := by
  obtain ⟨outputs, later, ranked, rankedLater, runs, rankedRuns, _, _, agrees⟩ :=
    sortPacked_agrees (show threeNumbers.length = 3 from rfl) Nat.two_pos threeNumbers_wide
      threeNumbers_own (by decide)
  obtain ⟨results, evaluate, sorted, same⟩ :=
    agrees _ _ (threeNumbers_evaluate _ (Slots.mul_inFirst false true)) (by decide)
  refine ⟨outputs, later, ranked, rankedLater, results, runs, rankedRuns, evaluate,
    same _ (threeNumbers_evaluate id rfl), sorted.trans ?_⟩
  rw [List.mergeSort_eq_insertionSort]
  decide

end Answers

end Gadget

end ArithCircuit
