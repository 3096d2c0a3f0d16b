import ArithCircuit.Proofs.Weight

set_option autoImplicit false

namespace ArithCircuit

variable {T : Type} {reading : Reading T} {start : Workspace} {index : Nat}

theorem Bits.fullAdd_eq (a b carry : Bool) :
    (xor (xor a b) carry).toNat + 2 * (Bool.atLeastTwo a b carry).toNat =
      a.toNat + b.toNat + carry.toNat := by
  cases a <;> cases b <;> cases carry <;> rfl

namespace Workspace

theorem readsValue_of_bit {wire : Wire} {bit : Bool} (reads : start.Reads reading index wire bit) :
    start.ReadsValue reading index 1 [wire] bit.toNat :=
  ⟨[bit], ⟨.cons reads .nil, rfl⟩, by simp⟩

theorem ReadsValue.cons {wire : Wire} {wires : List Wire} {bit : Bool} {width value : Nat}
    (reads : start.Reads reading index wire bit)
    (above : start.ReadsValue reading index width wires value) :
    start.ReadsValue reading index (width + 1) (wire :: wires) (bit.toNat + 2 * value) := by
  obtain ⟨bits, ⟨bitsRead, length⟩, rfl⟩ := above
  exact ⟨bit :: bits, ⟨.cons reads bitsRead, by simp [length]⟩, by simp⟩

end Workspace

namespace Wiring

variable {x y carry : Wire} {a b c : Bool}

theorem halfAdd_builds (first : start.Reads reading index x a)
    (second : start.Reads reading index y b) :
    Builds (halfAdd x y) start fun out next => next.ReadsPair reading index out (xor a b, a && b) := by
  unfold halfAdd
  apply (add_builds first second).bind
  intro sum s₁ grown₁ readsSum
  apply (mul_builds (first.of_extends grown₁) (second.of_extends grown₁)).bind
  intro both s₂ grown₂ readsBoth
  exact .pure ⟨readsSum.of_extends grown₂, readsBoth⟩

theorem fullAdd_builds (first : start.Reads reading index x a)
    (second : start.Reads reading index y b) (carried : start.Reads reading index carry c) :
    Builds (fullAdd x y carry) start fun out next =>
      next.ReadsPair reading index out (xor (xor a b) c, Bool.atLeastTwo a b c) := by
  unfold fullAdd
  apply (add_builds first second).bind
  intro partialSum s₁ grown₁ readsPartial
  apply (add_builds readsPartial (carried.of_extends grown₁)).bind
  intro sum s₂ grown₂ readsSum
  have until₂ := grown₁.trans grown₂
  apply (mul_builds (carried.of_extends until₂) (first.of_extends until₂)).bind
  intro withX s₃ grown₃ readsX
  have until₃ := until₂.trans grown₃
  apply (mul_builds (carried.of_extends until₃) (second.of_extends until₃)).bind
  intro withY s₄ grown₄ readsY
  have until₄ := until₃.trans grown₄
  apply (mul_builds (readsX.of_extends grown₄) (second.of_extends until₄)).bind
  intro allThree s₅ grown₅ readsAllThree
  have until₅ := until₄.trans grown₅
  apply (mul_builds (readsY.of_extends grown₅) (first.of_extends until₅)).bind
  intro again s₆ grown₆ readsAgain
  have until₆ := until₅.trans grown₆
  apply (mul_builds (first.of_extends until₆) (second.of_extends until₆)).bind
  intro both s₇ grown₇ readsBoth
  have sinceX := grown₄.trans (grown₅.trans (grown₆.trans grown₇))
  have terms : s₇.ReadsAll reading index [withX, withY, allThree, again]
      [c && a, c && b, (c && a) && b, (c && b) && a] :=
    .cons (readsX.of_extends sinceX)
      (.cons (readsY.of_extends (grown₅.trans (grown₆.trans grown₇)))
        (.cons (readsAllThree.of_extends (grown₆.trans grown₇))
          (.cons (readsAgain.of_extends grown₇) .nil)))
  apply (Builds.foldlM Workspace.reads_lasting
    (fun _ _ _ _ _ _ soFar term => add_builds soFar term) terms readsBoth).bind
  intro out s₈ grown₈ readsOut
  have majority : [c && a, c && b, (c && a) && b, (c && b) && a].foldl xor (a && b) =
      Bool.atLeastTwo a b c := by cases a <;> cases b <;> cases c <;> rfl
  rw [majority] at readsOut
  exact .pure ⟨readsSum.of_extends (grown₃.trans (sinceX.trans grown₈)), readsOut⟩

theorem addPairs_builds {pairs : List (Wire × Wire)} {bits : List (Bool × Bool)}
    (related : List.Forall₂ (start.ReadsPair reading index) pairs bits)
    (carried : start.Reads reading index carry c) :
    Builds (addPairs pairs carry) start fun outs next =>
      next.ReadsValue reading index (bits.length + 1) outs
        (Bits.number (bits.map Prod.fst) + Bits.number (bits.map Prod.snd) + c.toNat) := by
  induction pairs generalizing start bits carry c with
  | nil =>
    cases related
    apply Builds.pure
    simpa using Workspace.readsValue_of_bit carried
  | cons pair pairs ih =>
    obtain _ | @⟨_, here, _, later, reads, rest⟩ := related
    unfold addPairs
    apply (fullAdd_builds reads.1 reads.2 carried).bind
    intro out s₁ grown₁ readsOut
    apply (ih (forall₂_of_extends Workspace.readsPair_lasting grown₁ rest) readsOut.2).bind
    intro outs s₂ grown₂ readsOuts
    apply Builds.pure
    have whole := Workspace.ReadsValue.cons (readsOut.1.of_extends grown₂) readsOuts
    have total := Bits.fullAdd_eq here.1 here.2 c
    simp only [List.map_cons, List.length_cons, Bits.number_cons]
    convert whole using 1
    dsimp only
    omega

end Wiring

namespace Gadget

theorem sum_builds {xs ys : List Wire} {width a b : Nat} (positive : 0 < width)
    (left : start.ReadsValue reading index width xs a)
    (right : start.ReadsValue reading index width ys b) :
    Builds (sum xs ys) start fun outs next =>
      next.ReadsValue reading index (width + 1) outs (a + b) := by
  obtain ⟨first, ⟨leftReads, leftLength⟩, rfl⟩ := left
  obtain ⟨second, ⟨rightReads, rightLength⟩, rfl⟩ := right
  subst leftLength
  have sameWires : xs.length = ys.length := by
    rw [leftReads.length_eq, rightReads.length_eq, rightLength]
  have filled : xs ≠ [] := List.ne_nil_of_length_pos (leftReads.length_eq ▸ positive)
  have pairs := forall₂_zip leftReads rightReads
  have firsts := List.map_fst_zip (Nat.le_of_eq rightLength.symm)
  have seconds := List.map_snd_zip (Nat.le_of_eq rightLength)
  unfold sum
  rw [checkLengths_ok sameWires filled, pure_bind]
  generalize first.zip second = bits at pairs firsts seconds
  generalize xs.zip ys = wires at pairs ⊢
  cases pairs with
  | nil => exact absurd positive (by simp [← firsts])
  | @cons pair here pairs later reads rest =>
    apply (Wiring.halfAdd_builds reads.1 reads.2).of_wiring.bind
    intro out s₁ grown₁ readsOut
    apply (Wiring.addPairs_builds (forall₂_of_extends Workspace.readsPair_lasting grown₁ rest)
      readsOut.2).of_wiring.bind
    intro outs s₂ grown₂ readsOuts
    apply Builds.pure
    have whole := Workspace.ReadsValue.cons (readsOut.1.of_extends grown₂) readsOuts
    have total := Bits.fullAdd_eq here.1 here.2 false
    have carry : Bool.atLeastTwo here.1 here.2 false = (here.1 && here.2) := by simp [Bool.atLeastTwo]
    rw [carry, Bool.xor_false] at total
    rw [← firsts, ← seconds]
    simp only [List.map_cons, List.length_cons, List.length_map, Bits.number_cons]
    convert whole using 1
    simp only [Bool.toNat_false] at total
    dsimp only
    omega

theorem joinNeighbours_builds {width : Nat} (positive : 0 < width) :
    ∀ {half : Nat} {elements : List (List Wire)} {numbers : List Nat} {start : Workspace},
      List.Forall₂ (start.ReadsValue reading index width) elements numbers →
      elements.length = 2 * half →
      Builds (joinNeighbours sum elements) start fun outs next =>
        ∃ sums, List.Forall₂ (next.ReadsValue reading index (width + 1)) outs sums ∧
          outs.length = half ∧ sums.sum = numbers.sum
  | 0, [], _, _, .nil, _ => .pure ⟨[], .nil, rfl, rfl⟩
  | _ + 1, [], _, _, _, even => by simp at even
  | _, [_], _, _, _, even => by
    simp only [List.length_singleton] at even
    omega
  | 0, _ :: _ :: _, _, _, _, even => by simp at even
  | half + 1, _ :: _ :: rest, _, _, .cons first (.cons second others), even => by
    have restEven : rest.length = 2 * half := by
      simp only [List.length_cons] at even
      omega
    apply (sum_builds positive first second).bind
    intro joined s₁ grown₁ readsJoined
    apply (joinNeighbours_builds positive
      (forall₂_of_extends Workspace.readsValue_lasting grown₁ others) restEven).bind
    rintro outs s₂ grown₂ ⟨sums, readsSums, count, total⟩
    refine .pure ⟨_ :: sums, .cons (Workspace.readsValue_lasting _ _ grown₂ readsJoined) readsSums,
      by simp [count], ?_⟩
    simp only [List.sum_cons, total]
    omega

theorem joinLayers_builds {layers rounds width : Nat} {elements : List (List Wire)}
    {numbers : List Nat} (positive : 0 < width) (enough : layers ≤ rounds)
    (related : List.Forall₂ (start.ReadsValue reading index width) elements numbers)
    (count : elements.length = 2 ^ layers) :
    Builds (joinLayers sum rounds elements) start fun reply next =>
      ∃ out, reply = some out ∧ next.ReadsValue reading index (width + layers) out numbers.sum := by
  induction layers generalizing rounds width elements numbers start with
  | zero =>
    obtain ⟨element, rfl⟩ := List.length_eq_one_iff.mp count
    obtain _ | ⟨reads, ⟨⟩⟩ := related
    have single : joinLayers sum rounds [element] = pure (some element) := by cases rounds <;> rfl
    rw [single]
    exact .pure ⟨element, rfl, by simpa using reads⟩
  | succ layers ih =>
    obtain ⟨rounds, rfl⟩ : ∃ fewer, rounds = fewer + 1 := ⟨rounds - 1, by omega⟩
    have even : elements.length = 2 * 2 ^ layers := by rw [count, pow_succ']
    have several : 2 ≤ elements.length := by
      have some := Nat.one_le_two_pow (n := layers)
      omega
    match elements, several with
    | first :: second :: rest, _ =>
      unfold joinLayers
      apply (joinNeighbours_builds positive related even).bind
      rintro outs s₁ grown₁ ⟨sums, readsSums, fewer, total⟩
      have built := ih (show 0 < width + 1 by omega) (Nat.le_of_succ_le_succ enough) readsSums fewer
      rwa [total, Nat.add_right_comm] at built

theorem isPowerOfTwo_iff {n : Nat} : isPowerOfTwo n = true ↔ ∃ k, n = 2 ^ k := by
  rw [isPowerOfTwo, beq_iff_eq, Nat.one_shiftLeft]
  constructor
  · intro power
    exact ⟨Nat.log2 n, power⟩
  · rintro ⟨k, rfl⟩
    rw [Nat.log2_two_pow]

theorem weightByAdding_builds {wires : List Wire} {bits : List Bool} {layers : Nat}
    (reads : start.ReadsAll reading index wires bits) (count : wires.length = 2 ^ layers) :
    Builds (weightByAdding wires) start fun outs next =>
      next.ReadsValue reading index (layers + 1) outs (bits.count true) := by
  have filled : wires.isEmpty = false := by
    cases wires with
    | nil => exact absurd count (Nat.ne_of_lt (Nat.two_pow_pos layers))
    | cons => rfl
  have power : isPowerOfTwo wires.length = true := isPowerOfTwo_iff.mpr ⟨layers, count⟩
  have singles : List.Forall₂ (start.ReadsValue reading index 1) (wires.map fun wire => [wire])
      (bits.map Bool.toNat) :=
    List.forall₂_map_left_iff.mpr (List.forall₂_map_right_iff.mpr
      (reads.imp fun _ _ => Workspace.readsValue_of_bit))
  have total : (bits.map Bool.toNat).sum = bits.count true := by
    clear reads singles
    induction bits with
    | nil => rfl
    | cons bit rest ih => rw [List.map_cons, List.sum_cons, ih, Bits.count_true_cons]
  have enough : layers ≤ (wires.map fun wire => [wire]).length := by
    rw [List.length_map, count]
    exact Nat.lt_two_pow_self.le
  unfold weightByAdding
  simp only [filled, power, Bool.not_true, Bool.false_eq_true, if_false]
  refine (joinLayers_builds Nat.one_pos enough singles (by simpa using count)).bind ?_
  rintro _ next _ ⟨out, rfl, readsOut⟩
  rw [total, Nat.add_comm] at readsOut
  exact .pure readsOut

theorem weights_agree {workspace first second : Workspace} {wires : List Wire} {layers : Nat}
    (own : ∀ wire ∈ wires, workspace.Owns index wire) (count : wires.length = 2 ^ layers)
    (firstGrown : workspace.Extends first) (secondGrown : workspace.Extends second) :
    ∃ halved afterHalving added afterAdding,
      (weight wires).run first = .ok (.ok halved, afterHalving) ∧ first.Extends afterHalving ∧
      (weightByAdding wires).run second = .ok (.ok added, afterAdding) ∧
      second.Extends afterAdding ∧ added.length = layers + 1 ∧ halved.length = added.length ∧
      ∀ inputs, workspace.BindsAll inputs wires →
        ∃ bits results, workspace.EvaluateTo inputs wires bits ∧
          afterHalving.EvaluateTo inputs halved results ∧
          afterAdding.EvaluateTo inputs added results ∧ Bits.number results = bits.count true := by
  let Asked := {asked : (String → Option Bool) × List Bool //
    workspace.ReadsAll (.ofBits asked.1) index wires asked.2}
  obtain ⟨someBits, someRead⟩ := Workspace.exists_readsAll own
  have : Nonempty Asked := ⟨⟨(_, someBits), someRead⟩⟩
  have filled : wires ≠ [] := List.ne_nil_of_length_pos (count ▸ Nat.two_pow_pos layers)
  obtain ⟨halved, afterHalving, halves, halvedGrown, halvedCounts⟩ :=
    Builds.answers fun asked : Asked => weight_builds (asked.property.of_extends firstGrown) filled
  obtain ⟨added, afterAdding, adds, addedGrown, addedCounts⟩ :=
    Builds.answers fun asked : Asked =>
      weightByAdding_builds (asked.property.of_extends secondGrown) count
  have width : Nat.log2 wires.length = layers := by rw [count, Nat.log2_two_pow]
  obtain ⟨_, halvedReads, halvedWidth, _⟩ := halvedCounts ⟨(_, someBits), someRead⟩
  obtain ⟨_, ⟨addedReads, addedWidth⟩, _⟩ := addedCounts ⟨(_, someBits), someRead⟩
  refine ⟨halved, afterHalving, added, afterAdding, halves, halvedGrown, adds, addedGrown,
    addedReads.length_eq.trans addedWidth, ?_, ?_⟩
  · rw [halvedReads.length_eq, halvedWidth, width, addedReads.length_eq, addedWidth]
  · intro inputs binds
    obtain ⟨bits, reads⟩ := Workspace.exists_readsAll_of_binds own binds
    obtain ⟨results, resultsRead, length, number⟩ := halvedCounts ⟨(inputs, bits), reads⟩
    obtain ⟨sums, ⟨sumsRead, sumsLength⟩, sumsNumber⟩ := addedCounts ⟨(inputs, bits), reads⟩
    have sameLength : results.length = sums.length := by rw [length, width, sumsLength]
    obtain rfl := (Bits.number_inj sameLength).mp (number.trans sumsNumber.symm)
    exact ⟨bits, results, reads.evaluate, resultsRead.evaluate, sumsRead.evaluate, number⟩

theorem weights_of_repeated_wire :
    ∃ halved middle added later results,
      (weight [⟨0, 0⟩, ⟨0, 1⟩, ⟨0, 2⟩, ⟨0, 0⟩]).run twoInputs = .ok (.ok halved, middle) ∧
      (weightByAdding [⟨0, 0⟩, ⟨0, 1⟩, ⟨0, 2⟩, ⟨0, 0⟩]).run middle = .ok (.ok added, later) ∧
      halved.length = 3 ∧ added.length = 3 ∧
      middle.EvaluateTo (List.lookup · [("a", true), ("b", false)]) halved results ∧
      later.EvaluateTo (List.lookup · [("a", true), ("b", false)]) added results ∧
      Bits.number results = 2 := by
  have small : ∀ wire ∈ ([⟨0, 0⟩, ⟨0, 1⟩, ⟨0, 2⟩, ⟨0, 0⟩] : List Wire),
      wire.circuit = 0 ∧ wire.node < 3 := by decide
  have own : ∀ wire ∈ ([⟨0, 0⟩, ⟨0, 1⟩, ⟨0, 2⟩, ⟨0, 0⟩] : List Wire), twoInputs.Owns 0 wire :=
    fun wire member => twoInputs_owns (small wire member).1 (small wire member).2
  have four : ([⟨0, 0⟩, ⟨0, 1⟩, ⟨0, 2⟩, ⟨0, 0⟩] : List Wire).length = 2 ^ 2 := rfl
  obtain ⟨halved, middle, _, _, halves, grown, _⟩ :=
    weights_agree own four twoInputs.extends_refl twoInputs.extends_refl
  obtain ⟨_, _, added, later, also, _, adds, _, width, sameWidth, counts⟩ :=
    weights_agree own four twoInputs.extends_refl grown
  cases halves.symm.trans also
  have first := twoInputs_evaluates true false (show (⟨0, 0⟩ : Wire).circuit = 0 from rfl) rfl rfl
  have second := twoInputs_evaluates true false (show (⟨0, 1⟩ : Wire).circuit = 0 from rfl) rfl rfl
  have both := twoInputs_evaluates true false (show (⟨0, 2⟩ : Wire).circuit = 0 from rfl) rfl rfl
  have known : twoInputs.EvaluateTo (List.lookup · [("a", true), ("b", false)])
      [⟨0, 0⟩, ⟨0, 1⟩, ⟨0, 2⟩, ⟨0, 0⟩] [true, false, false, true] :=
    .cons first (.cons second (.cons both (.cons first .nil)))
  obtain ⟨bits, results, evaluate, halvedEvaluate, addedEvaluate, number⟩ :=
    counts _ (known.binds own)
  cases evaluate.unique known
  exact ⟨halved, middle, added, later, results, halves, adds, sameWidth.trans width, width,
    halvedEvaluate, addedEvaluate, number⟩

end Gadget

end ArithCircuit
