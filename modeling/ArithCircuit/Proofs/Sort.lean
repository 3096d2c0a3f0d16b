import ArithCircuit.Gadget.Sort
import ArithCircuit.Proofs.Rank
import ArithCircuit.Proofs.Weight
import Mathlib.Data.List.Sort

set_option autoImplicit false

namespace ArithCircuit

variable {T : Type} {reading : Reading T} {start : Workspace} {index : Nat}

namespace Workspace

def ReadsRow (workspace : Workspace) (reading : Reading T) (index count : Nat) (wires : List Wire)
    (rank : Nat) : Prop :=
  ∃ bits, workspace.ReadsNumber reading index count wires bits ∧ bits.count true = rank ∧
    rank < count

def ReadsRanked (workspace : Workspace) (reading : Reading T) (index width : Nat)
    (wires : List Wire × List Wire) (ranked : List Bool × Nat) : Prop :=
  workspace.ReadsAll reading index wires.1 ranked.1 ∧
    workspace.ReadsValue reading index width wires.2 ranked.2

theorem readsNumbers_of_evaluate {workspace : Workspace} {inputs : String → Option Bool} {width : Nat}
    {elements : List (List Wire)} {values : List (List Bool)}
    (wide : ∀ element ∈ elements, element.length = width)
    (own : ∀ element ∈ elements, ∀ wire ∈ element, workspace.Owns index wire)
    (evaluate : List.Forall₂ (workspace.EvaluateTo inputs) elements values) :
    List.Forall₂ (workspace.ReadsNumber (.ofBits inputs) index width) elements values := by
  have each := (List.forall₂_and_left _ _).mpr
    ⟨fun element member => And.intro (wide element member) (own element member), evaluate⟩
  apply each.imp
  intro element bits here
  have reads := here.2.reads here.1.2
  exact ⟨reads, reads.length_eq.symm.trans here.1.1⟩

theorem exists_readsNumbers {workspace : Workspace} {width : Nat} {elements : List (List Wire)}
    (wide : ∀ element ∈ elements, element.length = width)
    (own : ∀ element ∈ elements, ∀ wire ∈ element, workspace.Owns index wire) :
    ∃ values, List.Forall₂ (workspace.ReadsNumber (.ofBits fun _ => some false) index width)
      elements values := by
  apply exists_forall₂
  intro element member
  obtain ⟨bits, reads⟩ := exists_readsAll (own element member)
  exact ⟨bits, reads, reads.length_eq.symm.trans (wide element member)⟩

theorem readsRow_lasting {count : Nat} (wires : List Wire) (rank : Nat) :
    Lasting (ReadsRow · reading index count wires rank) := by
  rintro old new extended ⟨bits, reads, counted⟩
  exact ⟨bits, readsNumber_lasting _ _ extended reads, counted⟩

theorem readsRanked_lasting {width : Nat} (wires : List Wire × List Wire) (ranked : List Bool × Nat) :
    Lasting (ReadsRanked · reading index width wires ranked) :=
  fun _ _ extended reads =>
    ⟨reads.1.of_extends extended, readsValue_lasting _ _ extended reads.2⟩

theorem reads_replicate {workspace : Workspace} {wire : Wire} {bit : Bool}
    (reads : workspace.Reads reading index wire bit) (count : Nat) :
    workspace.ReadsAll reading index (List.replicate count wire) (List.replicate count bit) := by
  induction count with
  | zero => exact .nil
  | succ count ih => exact .cons reads ih

theorem ReadsRow.cons {workspace : Workspace} {count rank : Nat} {wire : Wire} {wires : List Wire}
    {bit : Bool} (reads : workspace.Reads reading index wire bit)
    (row : workspace.ReadsRow reading index count wires rank) :
    workspace.ReadsRow reading index (count + 1) (wire :: wires) (rank + bit.toNat) := by
  obtain ⟨bits, ⟨rowReads, length⟩, counted, below⟩ := row
  refine ⟨bit :: bits, ⟨.cons reads rowReads, by simp [length]⟩, ?_, ?_⟩
  · rw [Bits.count_true_cons, counted, Nat.add_comm]
  · have step := bit.toNat_le
    omega

end Workspace

namespace Bits

def addMasked (mask : Bool) : (sums bits : List Bool) → List Bool
  | sum :: sums, bit :: bits => xor sum (mask && bit) :: addMasked mask sums bits
  | sums, _ => sums

theorem addMasked_false (sums bits : List Bool) : addMasked false sums bits = sums := by
  induction sums generalizing bits with
  | nil => rfl
  | cons sum sums ih =>
    cases bits with
    | nil => rfl
    | cons bit bits => simp [addMasked, ih]

theorem addMasked_zeros (bits : List Bool) :
    addMasked true (List.replicate bits.length false) bits = bits := by
  induction bits with
  | nil => rfl
  | cons bit bits ih => simp [addMasked, List.replicate_succ, ih]

theorem length_addMasked (mask : Bool) (sums bits : List Bool) :
    (addMasked mask sums bits).length = sums.length := by
  induction sums generalizing bits with
  | nil => rfl
  | cons sum sums ih =>
    cases bits with
    | nil => rfl
    | cons bit bits => simp [addMasked, ih]

def ofRank (place : Nat) (sums : List Bool) (ranked : List Bool × Nat) : List Bool :=
  addMasked (ranked.2 == place) sums ranked.1

theorem foldl_ofRank_of_absent {place : Nat} {ranked : List (List Bool × Nat)}
    (absent : ∀ pair ∈ ranked, pair.2 ≠ place) (sums : List Bool) :
    ranked.foldl (ofRank place) sums = sums := by
  induction ranked generalizing sums with
  | nil => rfl
  | cons pair rest ih =>
    have here : (pair.2 == place) = false := by simpa using absent pair List.mem_cons_self
    rw [List.foldl_cons, ofRank, here, addMasked_false]
    exact ih (fun other member => absent other (List.mem_cons_of_mem pair member)) sums

-- Ranks are distinct, so one element is added up and all others are masked out.
theorem foldl_ofRank {sorted : List (List Bool)} {ranked : List (List Bool × Nat)}
    (places : ranked.Perm sorted.zipIdx) {place : Nat} {bits : List Bool}
    (found : sorted[place]? = some bits) :
    ranked.foldl (ofRank place) (List.replicate bits.length false) = bits := by
  have distinct : (ranked.map Prod.snd).Nodup := by
    rw [(places.map Prod.snd).nodup_iff, List.zipIdx_map_snd]
    exact List.nodup_range'
  have member : (bits, place) ∈ ranked :=
    places.mem_iff.mpr (List.mem_zipIdx_iff_getElem?.mpr found)
  obtain ⟨before, after, rfl⟩ := List.append_of_mem member
  rw [List.map_append, List.map_cons, List.nodup_middle, List.nodup_cons] at distinct
  have elsewhere : ∀ pair ∈ before ++ after, pair.2 ≠ place := by
    intro pair other same
    have repeated := List.mem_map_of_mem (f := Prod.snd) other
    rw [List.map_append, same] at repeated
    exact distinct.1 repeated
  rw [List.foldl_append, List.foldl_cons,
    foldl_ofRank_of_absent fun pair other => elsewhere pair (List.mem_append_left after other),
    ofRank, beq_self_eq_true, addMasked_zeros,
    foldl_ofRank_of_absent fun pair other => elsewhere pair (List.mem_append_right before other)]

theorem length_foldl_ofRank (place : Nat) (ranked : List (List Bool × Nat)) (sums : List Bool) :
    (ranked.foldl (ofRank place) sums).length = sums.length := by
  induction ranked generalizing sums with
  | nil => rfl
  | cons pair rest ih => rw [List.foldl_cons, ih, ofRank, length_addMasked]

def byRank (width count : Nat) (ranked : List (List Bool × Nat)) : List (List Bool) :=
  (List.range count).map fun place => ranked.foldl (ofRank place) (List.replicate width false)

def written (width place : Nat) : Nat := (UInt64.ofNat place).toNat % 2 ^ width

theorem written_eq {width place : Nat} (inRange : place < 2 ^ width)
    (addressable : place < UInt64.size) : written width place = place := by
  rw [written, UInt64.toNat_ofNat_of_lt' addressable, Nat.mod_eq_of_lt inRange]

def byWrittenRank (width rankWidth count : Nat) (ranked : List (List Bool × Nat)) :
    List (List Bool) :=
  (List.range count).map fun place =>
    ranked.foldl (ofRank (written rankWidth place)) (List.replicate width false)

-- A machine word can count more elements than any list has that is held in memory.
theorem byWrittenRank_eq {count rankWidth : Nat} (inRange : count ≤ 2 ^ rankWidth)
    (addressable : count ≤ UInt64.size) (width : Nat) (ranked : List (List Bool × Nat)) :
    byWrittenRank width rankWidth count ranked = byRank width count ranked := by
  refine List.map_congr_left fun place member => ?_
  have bound := List.mem_range.mp member
  rw [written_eq (bound.trans_le inRange) (bound.trans_le addressable)]

theorem byRank_of_places {sorted : List (List Bool)} {ranked : List (List Bool × Nat)} {width : Nat}
    (places : ranked.Perm sorted.zipIdx) (wide : ∀ bits ∈ sorted, bits.length = width) :
    byRank width sorted.length ranked = sorted := by
  apply List.ext_getElem
  · simp [byRank]
  · intro place _ bound
    have found := List.getElem?_eq_getElem bound
    simp only [byRank, List.getElem_map, List.getElem_range]
    rw [← wide _ (List.getElem_mem bound), foldl_ofRank places found]

end Bits

namespace Gadget

theorem commonWidth_ok {elements : List (List Wire)} {width : Nat} (filled : elements ≠ [])
    (positive : 0 < width) (wide : ∀ element ∈ elements, element.length = width) :
    (liftM (commonWidth elements) : Gadget Nat) = pure width := by
  have ok : commonWidth elements = .ok width := by
    cases elements with
    | nil => exact absurd rfl filled
    | cons first others =>
      have firstWidth := wide first List.mem_cons_self
      have same : ((first :: others).find? fun element => element.length ≠ first.length) = none := by
        simp only [List.find?_eq_none, decide_eq_true_eq, not_not]
        exact fun element member => (wide element member).trans firstWidth.symm
      unfold commonWidth
      dsimp only
      rw [if_neg (by rw [List.isEmpty_iff, ← List.length_eq_zero_iff]; omega), same, firstWidth]
  rw [ok]
  rfl

theorem compareWithLater_builds {x : List Wire} {xBits : List Bool} {later : List (List Wire)}
    {laterBits : List (List Bool)} {width : Nat} (positive : 0 < width)
    (here : start.ReadsNumber reading index width x xBits)
    (there : List.Forall₂ (start.ReadsNumber reading index width) later laterBits) :
    Builds (compareWithLater x later) start fun comparisons next =>
      List.Forall₂ (next.ReadsPair reading index) comparisons (laterBits.map fun yBits =>
        (!decide (Bits.number xBits < Bits.number yBits),
          decide (Bits.number xBits < Bits.number yBits))) := by
  have filled : xBits ≠ [] := by
    rintro rfl
    exact absurd here.2 (Nat.ne_of_lt positive)
  refine Builds.mapM Workspace.readsNumber_lasting Workspace.readsPair_lasting ?_ there
  intro y yBits now ahead reads
  apply (less_builds (here.1.of_extends ahead) reads.1 (here.2.trans reads.2.symm) filled).bind
  intro isLess s₁ grown₁ readsLess
  obtain rfl := readsLess.1
  apply (Wiring.one_builds reading readsLess.holds).of_wiring.bind
  intro one s₂ grown₂ readsOne
  apply (Wiring.add_builds (readsLess.of_extends grown₂) readsOne).of_wiring.bind
  intro isNotLess s₃ grown₃ readsNot
  rw [Bool.xor_true] at readsNot
  exact .pure ⟨readsNot, readsLess.of_extends (grown₂.trans grown₃)⟩

theorem firstRow_reads {zero : Wire} {comparisons : List (Wire × Wire)} {xBits : List Bool}
    {laterBits : List (List Bool)} (zeroReads : start.Reads reading index zero false)
    (compared : List.Forall₂ (fun comparison yBits => start.ReadsPair reading index comparison
      (!decide (Bits.number xBits < Bits.number yBits),
        decide (Bits.number xBits < Bits.number yBits))) comparisons laterBits) :
    start.ReadsRow reading index (laterBits.length + 1) (zero :: comparisons.map (·.1))
      (laterBits.countP (Bits.number · ≤ Bits.number xBits)) := by
  refine ⟨false :: laterBits.map fun yBits => !decide (Bits.number xBits < Bits.number yBits),
    ⟨.cons zeroReads ?_, by simp⟩, ?_, Nat.lt_succ_of_le List.countP_le_length⟩
  · exact List.forall₂_map_left_iff.mpr
      (List.forall₂_map_right_iff.mpr (compared.imp fun _ _ reads => reads.1))
  · rw [List.count_cons_of_ne (by decide), List.count_eq_countP, List.countP_map]
    exact List.countP_congr fun yBits _ => by simp

theorem precedence_builds {zero : Wire} {elements : List (List Wire)} {values : List (List Bool)}
    {width : Nat} (positive : 0 < width) (zeroReads : start.Reads reading index zero false)
    (related : List.Forall₂ (start.ReadsNumber reading index width) elements values) :
    Builds (precedence zero elements) start fun rows next =>
      List.Forall₂ (next.ReadsRow reading index values.length) rows (ranks Bits.number values) := by
  induction elements generalizing start values with
  | nil =>
    cases related
    exact .pure .nil
  | cons x later ih =>
    obtain _ | @⟨_, xBits, _, laterBits, here, there⟩ := related
    unfold precedence
    apply (compareWithLater_builds positive here there).bind
    intro comparisons s₁ grown₁ compared
    apply (ih (zeroReads.of_extends grown₁)
      (forall₂_of_extends Workspace.readsNumber_lasting grown₁ there)).bind
    intro rows s₂ grown₂ ranked
    have pairs := List.forall₂_map_right_iff.mp
      (forall₂_of_extends Workspace.readsPair_lasting grown₂ compared)
    have zeroLater := zeroReads.of_extends (grown₁.trans grown₂)
    refine .pure (.cons (firstRow_reads zeroLater pairs) ?_)
    rw [List.forall₂_map_left_iff, List.forall₂_map_right_iff, List.forall₂_map_right_iff]
    exact (forall₂_zip pairs ranked).imp fun _ _ reads => reads.2.cons reads.1.2

theorem addMasked_builds {mask : Wire} {sums wires : List Wire} {isOn : Bool}
    {sumBits bits : List Bool} (maskReads : start.Reads reading index mask isOn)
    (sumsRead : start.ReadsAll reading index sums sumBits)
    (reads : start.ReadsAll reading index wires bits) :
    Builds (addMasked mask sums wires) start fun outs next =>
      next.ReadsAll reading index outs (Bits.addMasked isOn sumBits bits) := by
  induction sums generalizing start sumBits wires bits with
  | nil =>
    cases sumsRead
    exact .pure .nil
  | cons sum sums ih =>
    obtain _ | @⟨_, sumBit, _, sumBits, sumReads, sumsRead⟩ := sumsRead
    obtain _ | @⟨wire, bit, wires, bits, here, there⟩ := reads
    · exact .pure (.cons sumReads sumsRead)
    · have there : start.ReadsAll reading index wires bits := there
      have sumsRead : start.ReadsAll reading index sums sumBits := sumsRead
      unfold addMasked
      apply (Wiring.mul_builds maskReads here).bind
      intro product s₁ grown₁ readsProduct
      apply (Wiring.add_builds (sumReads.of_extends grown₁) readsProduct).bind
      intro sum s₂ grown₂ readsSum
      have untilNow := grown₁.trans grown₂
      apply (ih (maskReads.of_extends untilNow) (sumsRead.of_extends untilNow)
        (there.of_extends untilNow)).bind
      intro sums s₃ grown₃ readsSums
      exact .pure (.cons (readsSum.of_extends grown₃) readsSums)

theorem target_builds (reading : Reading T) (holds : start.Holds index) (place width : Nat) :
    Builds (Wiring.constantBits index (.ofNat place) width) start fun target next =>
      next.ReadsValue reading index width target (Bits.written width place) :=
  (Wiring.constantBits_builds reading holds _ width).mono fun _ _ _ reads =>
    ⟨_, ⟨reads, Bits.length_ofPattern _ _⟩, Bits.number_ofPattern _ _⟩

theorem isHere_builds {target wires : List Wire} {place rank width : Nat} (positive : 0 < width)
    (targetReads : start.ReadsValue reading index width target place)
    (rankReads : start.ReadsValue reading index width wires rank) :
    Builds (equal target wires) start fun out next =>
      next.Reads reading index out (rank == place) := by
  obtain ⟨placeBits, ⟨targetReads, placeLength⟩, rfl⟩ := targetReads
  obtain ⟨rankBits, ⟨rankReads, rankLength⟩, rfl⟩ := rankReads
  have sameLength := placeLength.trans rankLength.symm
  have filled : placeBits ≠ [] := by
    rintro rfl
    exact absurd placeLength (Nat.ne_of_lt positive)
  have same : (Bits.number rankBits == Bits.number placeBits) = (placeBits == rankBits) := by
    rw [Bool.eq_iff_iff, beq_iff_eq, beq_iff_eq, eq_comm, Bits.number_inj sameLength]
  rw [same]
  exact equal_builds targetReads rankReads sameLength filled

theorem elementOfRank_builds {zero : Wire} {width rankWidth place : Nat}
    {ranked : List (List Wire × List Wire)} {rankedBits : List (List Bool × Nat)}
    (zeroReads : start.Reads reading index zero false) (positive : 0 < rankWidth)
    (related : List.Forall₂ (start.ReadsRanked reading index rankWidth) ranked rankedBits) :
    Builds (elementOfRank zero width rankWidth ranked place) start fun outs next =>
      next.ReadsAll reading index outs (rankedBits.foldl
        (Bits.ofRank (Bits.written rankWidth place)) (List.replicate width false)) := by
  unfold elementOfRank
  obtain rfl := zeroReads.1
  apply (target_builds reading zeroReads.holds place rankWidth).of_wiring.bind
  intro target s₁ grown₁ targetReads
  have zeros : s₁.ReadsAll reading zero.circuit (List.replicate width zero)
      (List.replicate width false) :=
    Workspace.reads_replicate (zeroReads.of_extends grown₁) width
  refine Builds.foldlM Workspace.readsRanked_lasting ?_
    (forall₂_of_extends Workspace.readsRanked_lasting grown₁ related) zeros
  intro sums sumBits pair bits now ahead sumsRead reads
  apply (isHere_builds positive (Workspace.readsValue_lasting _ _ ahead targetReads)
    reads.2).bind
  intro isHere s₂ grown₂ readsHere
  exact (addMasked_builds readsHere (sumsRead.of_extends grown₂)
    (reads.1.of_extends grown₂)).of_wiring

theorem count_builds {row : List Wire} {bits : List Bool} {count : Nat} (filled : row ≠ [])
    (reads : start.ReadsNumber reading index count row bits) :
    Builds (weight row) start fun out next =>
      next.ReadsValue reading index (log2Ceil count) (out.take (log2Ceil count))
        (bits.count true % 2 ^ log2Ceil count) := by
  have rowLength : row.length = count := reads.1.length_eq.trans reads.2
  refine (weight_builds reads.1 filled).mono ?_
  rintro outs next _ ⟨results, readsResults, resultsLength, number⟩
  rw [rowLength] at resultsLength
  refine ⟨results.take (log2Ceil count), ⟨List.forall₂_take _ readsResults, ?_⟩, ?_⟩
  · rw [List.length_take, resultsLength, Nat.min_eq_left (log2Ceil_le count)]
  · rw [Bits.number_take, number]

theorem rank_builds {row : List Wire} {rank count : Nat}
    (reads : start.ReadsRow reading index count row rank) :
    Builds (do return (← weight row).take (log2Ceil count)) start fun out next =>
      next.ReadsValue reading index (log2Ceil count) out rank := by
  obtain ⟨bits, rowReads, rfl, below⟩ := reads
  have filled : row ≠ [] := by
    rintro rfl
    exact absurd (rowReads.1.length_eq.trans rowReads.2) (Nat.ne_of_lt (Nat.zero_lt_of_lt below))
  apply (count_builds filled rowReads).bind
  intro outs next _ readsRank
  rw [Nat.mod_eq_of_lt (below.trans_le (le_two_pow_log2Ceil count))] at readsRank
  exact .pure readsRank

theorem byRank_builds {step : Nat → Gadget (List Wire)} {width rankWidth count : Nat}
    {ranked : List (List Bool × Nat)}
    (each : ∀ place now, start.Extends now →
      Builds (step place) now fun outs next => next.ReadsAll reading index outs (ranked.foldl
        (Bits.ofRank (Bits.written rankWidth place)) (List.replicate width false))) :
    Builds ((List.range count).mapM step) start fun outs next =>
      List.Forall₂ (next.ReadsNumber reading index width) outs
        (Bits.byWrittenRank width rankWidth count ranked) := by
  have built : ∀ place same now, start.Extends now → place = same →
      Builds (step place) now fun outs next => next.ReadsNumber reading index width outs
        (ranked.foldl (Bits.ofRank (Bits.written rankWidth same))
          (List.replicate width false)) := by
    rintro place _ now ahead rfl
    refine (each place now ahead).mono fun outs next _ reads => ⟨reads, ?_⟩
    rw [Bits.length_foldl_ofRank, List.length_replicate]
  exact Builds.mapM (fun _ _ _ _ _ here => here) Workspace.readsNumber_lasting built
    (List.forall₂_refl (List.range count))

theorem places_build {zero : Wire} {width rankWidth count : Nat}
    {ranked : List (List Wire × List Wire)} {rankedBits : List (List Bool × Nat)}
    (zeroReads : start.Reads reading index zero false) (positive : 0 < rankWidth)
    (related : List.Forall₂ (start.ReadsRanked reading index rankWidth) ranked rankedBits) :
    Builds ((List.range count).mapM (elementOfRank zero width rankWidth ranked)) start
      fun outs next => List.Forall₂ (next.ReadsNumber reading index width) outs
        (Bits.byWrittenRank width rankWidth count rankedBits) :=
  byRank_builds fun _ _ ahead => elementOfRank_builds (zeroReads.of_extends ahead) positive
    (forall₂_of_extends Workspace.readsRanked_lasting ahead related)

theorem sortByRank_places {elements : List (List Wire)} {values : List (List Bool)} {width : Nat}
    (related : List.Forall₂ (start.ReadsNumber reading index width) elements values)
    (filled : elements ≠ []) (positive : 0 < width) :
    Builds (sortByRank elements) start fun outs next =>
      ∃ placed, List.Forall₂ (next.ReadsNumber reading index width) outs placed ∧
        (elements.length ≤ UInt64.size →
          placed.Perm values ∧ placed.Pairwise (Bits.number · ≤ Bits.number ·)) := by
  have wide : ∀ element ∈ elements, element.length = width := by
    intro element member
    obtain ⟨_, _, reads⟩ := exists_of_mem_forall₂ related.flip member
    exact reads.1.length_eq.trans reads.2
  have count := related.length_eq
  have wideBits : ∀ bits ∈ values, bits.length = width := by
    intro bits member
    obtain ⟨_, _, reads⟩ := exists_of_mem_forall₂ related member
    exact reads.2
  obtain ⟨sorted, same, ascending, places⟩ := ranks_are_places Bits.number values
  unfold sortByRank
  rw [commonWidth_ok filled positive wide, pure_bind]
  match elements, related with
  | [] :: others, related => exact absurd (wide [] List.mem_cons_self) (Nat.ne_of_lt positive)
  | [bit :: bits], related =>
    obtain ⟨value, rfl⟩ := List.length_eq_one_iff.mp count.symm
    apply Builds.pure
    exact ⟨[value], related, fun _ => ⟨.refl _, List.pairwise_singleton _ _⟩⟩
  | (bit :: bits) :: second :: others, related =>
    obtain ⟨_, _, firstReads, _⟩ := exists_of_mem_forall₂ related.flip List.mem_cons_self
    obtain ⟨_, _, bitReads⟩ := exists_of_mem_forall₂ firstReads.flip List.mem_cons_self
    have holds := Workspace.Reads.holds bitReads
    obtain rfl := bitReads.1
    apply (Wiring.zero_builds reading holds).of_wiring.bind
    intro zero s₁ grown₁ zeroReads
    apply (precedence_builds positive zeroReads
      (forall₂_of_extends Workspace.readsNumber_lasting grown₁ related)).bind
    intro rows s₂ grown₂ rowsRead
    rw [← count] at rowsRead
    apply (Builds.mapM Workspace.readsRow_lasting Workspace.readsValue_lasting
      (fun row rank now _ reads => rank_builds reads) rowsRead).bind
    intro ranks s₃ grown₃ ranksRead
    rw [List.map_id'] at ranksRead
    have untilNow := grown₁.trans (grown₂.trans grown₃)
    have ranked := forall₂_zip
      ((forall₂_of_extends Workspace.readsNumber_lasting untilNow related).imp
        fun _ _ reads => reads.1) ranksRead
    refine (places_build (zeroReads.of_extends (grown₂.trans grown₃)) (by simp [log2Ceil])
      ranked).mono ?_
    intro outs next _ reads
    refine ⟨_, reads, fun addressable => ?_⟩
    rw [Bits.byWrittenRank_eq (le_two_pow_log2Ceil _) addressable, count, ← same.length_eq,
      Bits.byRank_of_places places fun bits member => wideBits bits (same.mem_iff.mp member)]
    exact ⟨same, ascending⟩

theorem sortByRank_builds {elements : List (List Wire)} {values : List (List Bool)} {width : Nat}
    (related : List.Forall₂ (start.ReadsNumber reading index width) elements values)
    (filled : elements ≠ []) (positive : 0 < width) (addressable : elements.length ≤ UInt64.size) :
    Builds (sortByRank elements) start fun outs next =>
      ∃ sorted, List.Forall₂ (next.ReadsNumber reading index width) outs sorted ∧
        sorted.Perm values ∧ sorted.Pairwise (Bits.number · ≤ Bits.number ·) :=
  (sortByRank_places related filled positive).mono fun _ _ _ placed =>
    placed.imp fun _ reads => ⟨reads.1, reads.2 addressable⟩

theorem sortByRank_answers {workspace : Workspace} {index width : Nat} {elements : List (List Wire)}
    (filled : elements ≠ []) (positive : 0 < width)
    (wide : ∀ element ∈ elements, element.length = width)
    (own : ∀ element ∈ elements, ∀ wire ∈ element, workspace.Owns index wire)
    (addressable : elements.length ≤ UInt64.size) :
    ∃ outputs later, (sortByRank elements).run workspace = .ok (.ok outputs, later) ∧
      ∀ inputs values, List.Forall₂ (workspace.EvaluateTo inputs) elements values →
        ∃ sorted, List.Forall₂ (later.EvaluateTo inputs) outputs sorted ∧ sorted.Perm values ∧
          sorted.Pairwise (Bits.number · ≤ Bits.number ·) := by
  let Asked := {asked : (String → Option Bool) × List (List Bool) //
    List.Forall₂ (workspace.ReadsNumber (.ofBits asked.1) index width) elements asked.2}
  obtain ⟨someValues, someRead⟩ := Workspace.exists_readsNumbers wide own
  have : Nonempty Asked := ⟨⟨(_, someValues), someRead⟩⟩
  obtain ⟨outputs, later, runs, _, sorts⟩ := Builds.answers fun asked : Asked =>
    sortByRank_builds asked.property filled positive addressable
  refine ⟨outputs, later, runs, fun inputs values evaluate => ?_⟩
  obtain ⟨sorted, sortedRead, ordered⟩ :=
    sorts ⟨(inputs, values), Workspace.readsNumbers_of_evaluate wide own evaluate⟩
  exact ⟨sorted, sortedRead.imp fun _ _ reads => reads.1.evaluate, ordered⟩

theorem numbers_eq_mergeSort {sorted numbers : List Nat} (same : sorted.Perm numbers)
    (ascending : sorted.Pairwise (· ≤ ·)) : sorted = numbers.mergeSort := by
  have merged : numbers.mergeSort.Pairwise (· ≤ ·) := List.pairwise_mergeSort' _ _
  exact (same.trans (List.mergeSort_perm _ _).symm).eq_of_pairwise' ascending merged

theorem eq_mergeSort {sorted values : List (List Bool)} (same : sorted.Perm values)
    (ascending : sorted.Pairwise (Bits.number · ≤ Bits.number ·)) :
    sorted.map Bits.number = (values.map Bits.number).mergeSort :=
  numbers_eq_mergeSort (same.map Bits.number) (List.pairwise_map.mpr ascending)

theorem eq_of_sorted {first second : List (List Bool)} {width : Nat} (same : first.Perm second)
    (wide : ∀ bits ∈ first, bits.length = width)
    (ascending : first.Pairwise (Bits.number · ≤ Bits.number ·))
    (ascendingToo : second.Pairwise (Bits.number · ≤ Bits.number ·)) : first = second := by
  refine List.Perm.eq_of_pairwise (fun a b here there notAfter notBefore => ?_) ascending
    ascendingToo same
  have sameWidth := (wide a here).trans (wide b (same.mem_iff.mpr there)).symm
  exact (Bits.number_inj sameWidth).mp (Nat.le_antisymm notAfter notBefore)

theorem sortByRank_sorts {workspace : Workspace} {index width : Nat} {elements : List (List Wire)}
    (filled : elements ≠ []) (positive : 0 < width)
    (wide : ∀ element ∈ elements, element.length = width)
    (own : ∀ element ∈ elements, ∀ wire ∈ element, workspace.Owns index wire)
    (addressable : elements.length ≤ UInt64.size) :
    ∃ outputs later, (sortByRank elements).run workspace = .ok (.ok outputs, later) ∧
      workspace.Extends later ∧
      (∀ output ∈ outputs, output.length = width ∧ ∀ wire ∈ output, later.Owns index wire) ∧
      ∀ inputs values, List.Forall₂ (workspace.EvaluateTo inputs) elements values →
        ∃ results, List.Forall₂ (later.EvaluateTo inputs) outputs results ∧
          results.map Bits.number = (values.map Bits.number).mergeSort := by
  let Asked := {asked : (String → Option Bool) × List (List Bool) //
    List.Forall₂ (workspace.ReadsNumber (.ofBits asked.1) index width) elements asked.2}
  obtain ⟨someValues, someRead⟩ := Workspace.exists_readsNumbers wide own
  have : Nonempty Asked := ⟨⟨(_, someValues), someRead⟩⟩
  obtain ⟨outputs, later, runs, extended, sorts⟩ := Builds.answers fun asked : Asked =>
    sortByRank_builds asked.property filled positive addressable
  refine ⟨outputs, later, runs, extended, ?_, ?_⟩
  · obtain ⟨sorted, sortedRead, _⟩ := sorts ⟨(_, someValues), someRead⟩
    intro output member
    obtain ⟨bits, _, bitsRead, length⟩ := exists_of_mem_forall₂ sortedRead.flip member
    exact ⟨bitsRead.length_eq.trans length, bitsRead.own⟩
  · intro inputs values evaluate
    obtain ⟨sorted, sortedRead, same, ascending⟩ :=
      sorts ⟨(inputs, values), Workspace.readsNumbers_of_evaluate wide own evaluate⟩
    exact ⟨sorted, sortedRead.imp fun _ _ bitsRead => bitsRead.1.evaluate,
      eq_mergeSort same ascending⟩

theorem sortByRank_repeated_number :
    ∃ outputs later results,
      (sortByRank [[⟨0, 0⟩, ⟨0, 1⟩], [⟨0, 1⟩, ⟨0, 1⟩], [⟨0, 1⟩, ⟨0, 2⟩], [⟨0, 0⟩, ⟨0, 1⟩]]).run
        twoInputs = .ok (.ok outputs, later) ∧
      List.Forall₂ (later.EvaluateTo (List.lookup · [("a", false), ("b", true)])) outputs results ∧
      results.map Bits.number = [1, 2, 2, 3] := by
  have small : ∀ element ∈ ([[⟨0, 0⟩, ⟨0, 1⟩], [⟨0, 1⟩, ⟨0, 1⟩], [⟨0, 1⟩, ⟨0, 2⟩],
      [⟨0, 0⟩, ⟨0, 1⟩]] : List (List Wire)), element.length = 2 ∧
        ∀ wire ∈ element, wire.circuit = 0 ∧ wire.node < 3 := by decide
  have first := twoInputs_evaluates false true (show (⟨0, 0⟩ : Wire).circuit = 0 from rfl) rfl rfl
  have second := twoInputs_evaluates false true (show (⟨0, 1⟩ : Wire).circuit = 0 from rfl) rfl rfl
  have both := twoInputs_evaluates false true (show (⟨0, 2⟩ : Wire).circuit = 0 from rfl) rfl rfl
  obtain ⟨outputs, later, runs, _, _, sorts⟩ := sortByRank_sorts (List.cons_ne_nil _ _) Nat.two_pos
    (fun element member => (small element member).1)
    (fun element member wire present => twoInputs_owns ((small element member).2 wire present).1
      ((small element member).2 wire present).2)
    (show 4 ≤ UInt64.size by decide)
  have two : twoInputs.EvaluateTo (List.lookup · [("a", false), ("b", true)])
      [⟨0, 0⟩, ⟨0, 1⟩] [false, true] := .cons first (.cons second .nil)
  have three : twoInputs.EvaluateTo (List.lookup · [("a", false), ("b", true)])
      [⟨0, 1⟩, ⟨0, 1⟩] [true, true] := .cons second (.cons second .nil)
  have one : twoInputs.EvaluateTo (List.lookup · [("a", false), ("b", true)])
      [⟨0, 1⟩, ⟨0, 2⟩] [true, false] := .cons second (.cons both .nil)
  obtain ⟨results, evaluate, sorted⟩ :=
    sorts _ _ (.cons two (.cons three (.cons one (.cons two .nil))))
  refine ⟨outputs, later, results, runs, evaluate, sorted.trans ?_⟩
  rw [List.mergeSort_eq_insertionSort]
  decide

def threeNumbers : List (List Wire) :=
  [[⟨0, 0⟩, ⟨0, 1⟩], [⟨0, 1⟩, ⟨0, 1⟩], [⟨0, 1⟩, ⟨0, 2⟩]]

theorem threeNumbers_wide : ∀ element ∈ threeNumbers, element.length = 2 := by decide

theorem threeNumbers_own : ∀ element ∈ threeNumbers, ∀ wire ∈ element, twoInputs.Owns 0 wire := by
  have small : ∀ element ∈ threeNumbers, ∀ wire ∈ element, wire.circuit = 0 ∧ wire.node < 3 := by
    decide
  exact fun element member wire present =>
    twoInputs_owns (small element member wire present).1 (small element member wire present).2

theorem threeNumbers_evaluate {T : Type} {domain : Domain T} (value : Bool → T)
    (product : domain.mul (value false) (value true) = value false) :
    List.Forall₂ (List.Forall₂ fun wire bit => twoInputs.eval? domain
        (List.lookup · [("a", value false), ("b", value true)]) wire = some (.ok (value bit)))
      threeNumbers [[false, true], [true, true], [true, false]] := by
  have evaluates : ∀ node formula bit, twoInputs.circuits[0].Denotes node formula →
      formula.Evaluates domain (List.lookup · [("a", value false), ("b", value true)]) (value bit) →
      twoInputs.eval? domain (List.lookup · [("a", value false), ("b", value true)]) ⟨0, node⟩ =
        some (.ok (value bit)) :=
    fun _ _ _ => twoInputs_eval?
  have first := evaluates 0 (.input "a") false rfl rfl
  have second := evaluates 1 (.input "b") true rfl rfl
  have both := evaluates 2 (.binary .mul (.input "a") (.input "b")) false rfl
    (Formula.evaluates_binary.mpr ⟨_, _, rfl, rfl, product⟩)
  exact .cons (.cons first (.cons second .nil)) (.cons (.cons second (.cons second .nil))
    (.cons (.cons second (.cons both .nil)) .nil))

end Gadget

end ArithCircuit
