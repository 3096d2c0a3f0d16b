import ArithCircuit.Proofs.Expand

set_option autoImplicit false

namespace ArithCircuit

namespace Formula

theorem split?_eq_some {op : BinaryOp} {formula left right : Formula} :
    formula.split? op = some (left, right) ↔ formula = .binary op left right := by
  cases formula with
  | constant | input | shift => simp [split?]
  | binary other a b =>
    by_cases same : other = op
    · simp [split?, same]
    · simp [split?, same]

theorem isSum_iff_split? {formula : Formula} :
    formula.isSum = true ↔ ∃ pair, formula.split? .add = some pair := by
  cases formula with
  | constant | input | shift => simp [isSum, split?]
  | binary op left right => cases op <;> simp [isSum, split?]

-- One of two factors is a sum, the left one if both are, and the other factor goes into both products
-- as it is. Sums and products with a constant in front may fold.
inductive Distributes : Formula → Formula → Prop where
  | left (x y second : Formula) :
      Distributes (.binary .mul (.binary .add x y) second) ((x.times second).plus (y.times second))
  | right {first : Formula} (x y : Formula) (noSum : first.isSum = false) :
      Distributes (.binary .mul first (.binary .add x y)) ((first.times x).plus (first.times y))

theorem distributed?_eq_some_iff {formula form : Formula} :
    formula.distributed? = some form ↔ formula.Distributes form := by
  constructor
  · intro gives
    rw [distributed?] at gives
    cases product : formula.split? .mul with
    | none => simp [product] at gives
    | some pair =>
      obtain ⟨left, right⟩ := pair
      obtain rfl := split?_eq_some.mp product
      simp only [product] at gives
      cases first : left.split? .add with
      | some pair =>
        obtain ⟨x, y⟩ := pair
        obtain rfl := split?_eq_some.mp first
        simp only [first, Option.some.injEq] at gives
        exact gives ▸ .left x y right
      | none =>
        simp only [first, Option.map_eq_some_iff] at gives
        obtain ⟨⟨x, y⟩, second, rfl⟩ := gives
        obtain rfl := split?_eq_some.mp second
        refine .right x y (Bool.eq_false_iff.mpr fun isSum => ?_)
        obtain ⟨pair, splits⟩ := isSum_iff_split?.mp isSum
        rw [first] at splits
        contradiction
  · intro distributes
    cases distributes with
    | left x y second => rfl
    | @right first x y noSum =>
      have whole : first.split? .add = none := by
        rw [Option.eq_none_iff_forall_ne_some]
        intro pair splits
        rw [isSum_iff_split?.mpr ⟨pair, splits⟩] at noSum
        contradiction
      have factors : (binary .mul first (binary .add x y)).split? .mul = some (first, .binary .add x y) :=
        split?_eq_some.mpr rfl
      have addends : (binary .add x y).split? .add = some (x, y) := split?_eq_some.mpr rfl
      simp only [distributed?, factors, whole, addends, Option.map_some]

theorem exists_distributes_iff {formula : Formula} : (∃ form, formula.Distributes form) ↔
    ∃ left right, formula = .binary .mul left right ∧ (left.isSum ∨ right.isSum) := by
  constructor
  · rintro ⟨form, ⟨x, y, second⟩ | ⟨x, y, _⟩⟩
    · exact ⟨_, _, rfl, .inl rfl⟩
    · exact ⟨_, _, rfl, .inr rfl⟩
  · rintro ⟨left, right, rfl, either⟩
    cases isSum : left.isSum with
    | true =>
      obtain ⟨⟨x, y⟩, first⟩ := isSum_iff_split?.mp isSum
      obtain rfl := split?_eq_some.mp first
      exact ⟨_, .left x y right⟩
    | false =>
      obtain ⟨⟨x, y⟩, second⟩ := isSum_iff_split?.mp (either.resolve_left (by simp [isSum]))
      obtain rfl := split?_eq_some.mp second
      exact ⟨_, .right x y isSum⟩

theorem refines_of_distributes {formula form : Formula} (distributes : formula.Distributes form) :
    Refines Domain.IsSemiring formula form := by
  intro T domain semiring inputs value evaluates
  obtain ⟨_, laws⟩ := semiring
  have multiply : ∀ x y, domain.binary .mul x y = x * y := laws.mul_eq
  have add : ∀ x y, domain.binary .add x y = x + y := laws.add_eq
  cases distributes with
  | left a b second =>
    obtain ⟨l, r, leftEvaluates, rightEvaluates, rfl⟩ := evaluates_binary.mp evaluates
    obtain ⟨x, y, aEvaluates, bEvaluates, rfl⟩ := evaluates_binary.mp leftEvaluates
    rw [multiply, add, add_mul]
    exact evaluates_plus laws (evaluates_times laws aEvaluates rightEvaluates)
      (evaluates_times laws bEvaluates rightEvaluates)
  | right a b =>
    obtain ⟨l, r, leftEvaluates, rightEvaluates, rfl⟩ := evaluates_binary.mp evaluates
    obtain ⟨x, y, aEvaluates, bEvaluates, rfl⟩ := evaluates_binary.mp rightEvaluates
    rw [multiply, add, mul_add]
    exact evaluates_plus laws (evaluates_times laws leftEvaluates aEvaluates)
      (evaluates_times laws leftEvaluates bEvaluates)

end Formula

namespace Circuit

def MultipliesSum (circuit : Circuit) (root : Nat) : Prop :=
  ∃ left right, circuit.node? root = some (.product left right) ∧
    ∃ operand ∈ [left, right], ∃ x y, circuit.node? operand = some (.sum x y)

theorem isSum_iff {circuit : Circuit} {id : Nat} {formula : Formula}
    (denotes : circuit.Denotes id formula) :
    formula.isSum = true ↔ ∃ x y, circuit.node? id = some (.sum x y) := by
  obtain ⟨node, found, _⟩ := denotes_iff.mp denotes
  rw [← Distributor.isSome_operands?_add found denotes, found, Option.isSome_iff_exists, Prod.exists]
  simp only [Node.operands?_eq_some, Option.some.injEq]

theorem multipliesSum_iff {circuit : Circuit} {root : Nat} {formula : Formula}
    (denotes : circuit.Denotes root formula) :
    circuit.MultipliesSum root ↔ ∃ form, formula.Distributes form := by
  rw [Formula.exists_distributes_iff]
  constructor
  · rintro ⟨left, right, found, operand, member, isSum⟩
    obtain ⟨first, second, rfl, leftDenotes, rightDenotes⟩ := denotes_binary found denotes
    refine ⟨first, second, rfl, ?_⟩
    rcases List.mem_pair.mp member with rfl | rfl
    · exact .inl ((isSum_iff leftDenotes).mpr isSum)
    · exact .inr ((isSum_iff rightDenotes).mpr isSum)
  · rintro ⟨first, second, rfl, either⟩
    obtain ⟨left, right, found⟩ := node?_of_denotes_binary denotes
    obtain ⟨_, _, same, leftDenotes, rightDenotes⟩ := denotes_binary found denotes
    cases same
    refine ⟨left, right, found, ?_⟩
    rcases either with isSum | isSum
    · exact ⟨left, List.mem_pair.mpr (.inl rfl), (isSum_iff leftDenotes).mp isSum⟩
    · exact ⟨right, List.mem_pair.mpr (.inr rfl), (isSum_iff rightDenotes).mp isSum⟩

end Circuit

namespace Build

variable {circuit : Circuit} {factor term root : Nat}

theorem scaled_multiplies (factorInRange : factor < circuit.size) (termInRange : term < circuit.size) :
    ∃ id grown, scaled factor term circuit = some (id, grown) ∧ circuit.Extends grown ∧
      (∃ first second, circuit.Denotes factor first ∧ circuit.Denotes term second ∧
        grown.Denotes id (first.scaled second)) ∧
      ∀ (T : Type) [CommSemiring T] (domain : Domain T), domain.OverSemiring → ∀ inputs x y,
        circuit.eval? domain inputs factor = some (.ok x) →
        circuit.eval? domain inputs term = some (.ok y) →
          grown.eval? domain inputs id = some (.ok (x * y)) := by
  obtain ⟨first, factorDenotes⟩ := circuit.formula?_of_lt_size factorInRange
  obtain ⟨second, termDenotes⟩ := circuit.formula?_of_lt_size termInRange
  obtain ⟨id, grown, gives, gains⟩ := scaled_yields factorDenotes termDenotes
  refine ⟨id, grown, gives, gains.extended,
    ⟨first, second, factorDenotes, termDenotes, gains.denotes⟩, ?_⟩
  intro T _ domain laws inputs x y factorEvaluates termEvaluates
  rw [Circuit.eval?_of_denotes domain inputs factorDenotes] at factorEvaluates
  rw [Circuit.eval?_of_denotes domain inputs termDenotes] at termEvaluates
  rw [Circuit.eval?_of_denotes domain inputs gains.denotes]
  exact congrArg some (Formula.evaluates_scaled laws (Option.some.inj factorEvaluates)
    (Option.some.inj termEvaluates))

theorem distributed?_distributes (inRange : root < circuit.size) :
    ∃ reply grown, distributed? root circuit = some (reply, grown) ∧ circuit.Extends grown ∧
      (reply.isSome = true ↔ circuit.MultipliesSum root) ∧ (reply = none → grown = circuit) ∧
      ∀ form, reply = some form → ∃ formula result, circuit.Denotes root formula ∧
        grown.Denotes form result ∧ formula.Distributes result := by
  obtain ⟨formula, denotes⟩ := circuit.formula?_of_lt_size inRange
  obtain ⟨reply, grown, gives, extended, related, unchanged⟩ := distributed?_yields denotes
  refine ⟨reply, grown, gives, extended, ?_, unchanged, ?_⟩
  · rw [Circuit.multipliesSum_iff denotes]
    simp only [← Formula.distributed?_eq_some_iff, ← Option.isSome_iff_exists]
    generalize formula.distributed? = result at related
    cases related <;> simp
  · rintro form rfl
    cases spelled : formula.distributed? with
    | none =>
      rw [spelled] at related
      cases related
    | some result =>
      rw [spelled] at related
      cases related with
      | some formDenotes =>
        exact ⟨formula, result, denotes, formDenotes, Formula.distributed?_eq_some_iff.mp spelled⟩

theorem distributive_law (factorInRange : factor < circuit.size) (termInRange : term < circuit.size)
    (rootInRange : root < circuit.size) :
    (∃ id grown, scaled factor term circuit = some (id, grown) ∧ circuit.Extends grown ∧
      (∃ first second, circuit.Denotes factor first ∧ circuit.Denotes term second ∧
        grown.Denotes id (first.scaled second)) ∧
      ∀ (T : Type) [CommSemiring T] (domain : Domain T), domain.OverSemiring → ∀ inputs x y,
        circuit.eval? domain inputs factor = some (.ok x) →
        circuit.eval? domain inputs term = some (.ok y) →
          grown.eval? domain inputs id = some (.ok (x * y))) ∧
    ∃ reply grown, distributed? root circuit = some (reply, grown) ∧ circuit.Extends grown ∧
      (reply.isSome = true ↔ ∃ left right, circuit.node? root = some (.product left right) ∧
        ∃ operand ∈ [left, right], ∃ x y, circuit.node? operand = some (.sum x y)) ∧
      (reply = none → grown = circuit) ∧
      ∀ form, reply = some form →
        (∃ formula result, circuit.Denotes root formula ∧ grown.Denotes form result ∧
          formula.Distributes result) ∧
        ∀ (T : Type) [CommSemiring T] (domain : Domain T), domain.OverSemiring → ∀ inputs value,
          circuit.eval? domain inputs root = some (.ok value) →
            grown.eval? domain inputs form = some (.ok value) := by
  refine ⟨scaled_multiplies factorInRange termInRange, ?_⟩
  obtain ⟨reply, grown, gives, extended, splits, unchanged, spells⟩ :=
    distributed?_distributes rootInRange
  refine ⟨reply, grown, gives, extended, splits, unchanged, ?_⟩
  intro form isForm
  obtain ⟨formula, result, denotes, formDenotes, distributes⟩ := spells form isForm
  refine ⟨⟨formula, result, denotes, formDenotes, distributes⟩, ?_⟩
  intro T semiring domain laws inputs value evaluates
  rw [Circuit.eval?_of_denotes domain inputs denotes] at evaluates
  rw [Circuit.eval?_of_denotes domain inputs formDenotes]
  exact congrArg some (Formula.refines_of_distributes distributes T domain ⟨semiring, laws⟩ inputs value
    (Option.some.inj evaluates))

theorem distributive_law_product_of_sums :
    ∃ scaledId larger form grown,
      scaled 5 4 Distributor.productOfSums = some (scaledId, larger) ∧
      larger.eval? .words (List.lookup · [("a", 2), ("b", 3), ("c", 5)]) scaledId = some (.ok 30) ∧
      distributed? 6 Distributor.productOfSums = some (some form, grown) ∧
      grown.Denotes form (.binary .add
        (.binary .mul (.input "a") (.binary .add (.input "c") (.constant 1)))
        (.binary .mul (.input "b") (.binary .add (.input "c") (.constant 1)))) ∧
      grown.eval? .words (List.lookup · [("a", 2), ("b", 3), ("c", 5)]) form = some (.ok 30) := by
  let _ := UInt64.instCommRing.toCommSemiring
  let circuit := Distributor.productOfSums
  have evaluates : ∀ {id : Nat} {formula : Formula} {value : UInt64}, circuit.Denotes id formula →
      formula.eval .words (List.lookup · [("a", 2), ("b", 3), ("c", 5)]) = .ok value →
      circuit.eval? .words (List.lookup · [("a", 2), ("b", 3), ("c", 5)]) id = some (.ok value) := by
    intro id formula value denotes same
    rw [Circuit.eval?_of_denotes _ _ denotes, same]
  obtain ⟨⟨scaledId, larger, scales, _, _, scaledValue⟩, reply, grown, distributes, _, splits, _,
      replies⟩ :=
    distributive_law (show 5 < circuit.size by decide) (show 4 < circuit.size by decide)
      (show 6 < circuit.size by decide)
  obtain ⟨form, rfl⟩ := Option.isSome_iff_exists.mp
    (splits.mpr ⟨4, 5, rfl, 4, List.mem_cons_self, 0, 1, rfl⟩)
  obtain ⟨⟨formula, result, denotes, formDenotes, becomes⟩, values⟩ := replies form rfl
  obtain rfl := Option.some.inj (denotes.symm.trans (show circuit.Denotes 6 _ from rfl))
  cases becomes with
  | right _ _ noSum => cases noSum
  | left =>
    refine ⟨scaledId, larger, form, grown, scales, ?_, distributes, formDenotes, ?_⟩
    · exact scaledValue UInt64 .words Domain.words_over_semiring _ 6 5 (evaluates rfl rfl)
        (evaluates rfl rfl)
    · exact values UInt64 .words Domain.words_over_semiring _ 30 (evaluates rfl rfl)

end Build

end ArithCircuit
