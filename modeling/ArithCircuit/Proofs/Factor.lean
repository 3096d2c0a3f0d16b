import ArithCircuit.Proofs.Needs
import ArithCircuit.Proofs.Products
import ArithCircuit.Proofs.Rewriting
import ArithCircuit.Proofs.Trades
import ArithCircuit.Rewrite.Factor

set_option autoImplicit false

namespace ArithCircuit

namespace Formula

section Semiring

variable {T : Type} [CommSemiring T] {domain : Domain T} {inputs : String → Option T}

theorem Chain.product_of_evaluates (semiring : domain.OverSemiring) {factors : List Formula}
    {formula : Formula} (chain : Chain .mul factors formula) {value : T}
    (evaluates : formula.Evaluates domain inputs value) :
    ∃ values, List.Forall₂ (Evaluates domain inputs) factors values ∧ value = values.prod := by
  have folded := @Chain.value_of_evaluates T domain inputs T _ .mul id semiring.mul_eq
    factors formula chain value evaluates
  simpa using folded

theorem Product.evaluates (semiring : domain.OverSemiring) {factors : List Formula}
    {product : Formula} (holds : Product factors product) {values : List T}
    (evaluate : List.Forall₂ (Evaluates domain inputs) factors values) :
    product.Evaluates domain inputs values.prod :=
  (holds.evaluates_iff semiring.mul_eq semiring.lift_one).mpr ⟨values, evaluate, rfl⟩

end Semiring

-- Two products as far as they have factors in common. No factor that is left over on one side has
-- its like left over on the other.
structure Shares (lefts rights commons partners leftRests rightRests : List Formula) : Prop where
  left : (commons ++ leftRests).Perm lefts
  right : (partners ++ rightRests).Perm rights
  similar : List.Forall₂ Similar commons partners
  apart : ∀ left ∈ leftRests, ∀ right ∈ rightRests, ¬left.Similar right

theorem values_of_similar {T : Type} {domain : Domain T} {inputs : String → Option T}
    (semiring : domain.IsSemiring) {commons partners : List Formula}
    (similar : List.Forall₂ Similar commons partners) {values others : List T}
    (evaluate : List.Forall₂ (Evaluates domain inputs) commons values)
    (othersEvaluate : List.Forall₂ (Evaluates domain inputs) partners others) : others = values := by
  induction similar generalizing values others with
  | nil =>
    cases evaluate
    cases othersEvaluate
    rfl
  | cons here _ ih =>
    cases evaluate with
    | cons evaluates rest =>
      cases othersEvaluate with
      | cons otherEvaluates othersRest =>
        have same := here.refines _ domain semiring inputs _ evaluates
        obtain rfl := Except.ok.inj (otherEvaluates.symm.trans same)
        rw [ih rest othersRest]

theorem refines_factored {lefts rights commons partners leftRests rightRests : List Formula}
    (shares : Shares lefts rights commons partners leftRests rightRests)
    {left right leftRest rightRest common : Formula} (leftChain : Chain .mul lefts left)
    (rightChain : Chain .mul rights right) (leftProduct : Product leftRests leftRest)
    (rightProduct : Product rightRests rightRest) (commonProduct : Product commons common) :
    Refines Domain.IsSemiring (.binary .add left right)
      ((leftRest.plus rightRest).times common) := by
  intro T domain semiring inputs value evaluates
  obtain ⟨x, y, leftEvaluates, rightEvaluates, rfl⟩ := evaluates_binary.mp evaluates
  have similarValues := fun {values others} => @values_of_similar T domain inputs semiring _ _
    shares.similar values others
  obtain ⟨_, laws⟩ := semiring
  obtain ⟨xs, leftsEvaluate, rfl⟩ := leftChain.product_of_evaluates laws leftEvaluates
  obtain ⟨ys, rightsEvaluate, rfl⟩ := rightChain.product_of_evaluates laws rightEvaluates
  obtain ⟨xs', leftsMoved, leftPerm⟩ := List.perm_comp_forall₂ shares.left leftsEvaluate
  obtain ⟨ys', rightsMoved, rightPerm⟩ := List.perm_comp_forall₂ shares.right rightsEvaluate
  obtain ⟨cs, us, rfl, commonsEvaluate, leftRestsEvaluate⟩ := forall₂_split leftsMoved
  obtain ⟨ds, vs, rfl, partnersEvaluate, rightRestsEvaluate⟩ := forall₂_split rightsMoved
  obtain rfl := similarValues commonsEvaluate partnersEvaluate
  have result := evaluates_times laws
    (evaluates_plus laws (leftProduct.evaluates laws leftRestsEvaluate)
      (rightProduct.evaluates laws rightRestsEvaluate))
    (commonProduct.evaluates laws commonsEvaluate)
  have same : domain.binary .add xs.prod ys.prod = (us.prod + vs.prod) * ds.prod := by
    calc domain.binary .add xs.prod ys.prod
      _ = xs.prod + ys.prod := laws.add_eq _ _
      _ = (ds ++ us).prod + (ds ++ vs).prod := by rw [leftPerm.prod_eq, rightPerm.prod_eq]
      _ = us.prod * ds.prod + vs.prod * ds.prod := by
        rw [List.prod_append, List.prod_append, mul_comm ds.prod, mul_comm ds.prod]
      _ = (us.prod + vs.prod) * ds.prod := (add_mul _ _ _).symm
  rw [same]
  exact result

theorem Product.needs_iff {factors : List Formula} {product : Formula}
    (holds : Product factors product) {name : String} :
    product.Needs name ↔ ∃ factor ∈ factors, factor.Needs name := by
  cases holds with
  | inl none =>
    obtain ⟨rfl, rfl⟩ := none
    simp [Needs]
  | inr some =>
    obtain ⟨leaves, reordered, chain⟩ := some
    simp only [chain.needs_iff, reordered.mem_iff]

theorem Product.mem_of_constant {factors : List Formula} {value : UInt64}
    (holds : Product factors (.constant value)) (other : value ≠ 1) : .constant value ∈ factors := by
  cases holds with
  | inl none => exact absurd (Formula.constant.inj none.2) other
  | inr some =>
    obtain ⟨leaves, reordered, chain⟩ := some
    cases chain
    exact reordered.mem_iff.mp List.mem_cons_self

-- Two rests that are both zero would have been matched, so the sum of the rests is not the zero that
-- absorbs the common factors.
theorem retains_factored {lefts rights commons partners leftRests rightRests : List Formula}
    (shares : Shares lefts rights commons partners leftRests rightRests)
    {left right leftRest rightRest common : Formula} (leftChain : Chain .mul lefts left)
    (rightChain : Chain .mul rights right) (leftProduct : Product leftRests leftRest)
    (rightProduct : Product rightRests rightRest) (commonProduct : Product commons common) :
    Retains (.binary .add left right) ((leftRest.plus rightRest).times common) := by
  have absorbsNothing : leftRest.plus rightRest ≠ .constant 0 := by
    intro isZero
    unfold plus at isZero
    by_cases leftZero : leftRest = .constant 0
    · rw [if_pos leftZero] at isZero
      subst leftZero isZero
      have leftMember := leftProduct.mem_of_constant (by decide)
      have rightMember := rightProduct.mem_of_constant (by decide)
      exact shares.apart _ leftMember _ rightMember (.refl (.constant 0))
    · rw [if_neg leftZero] at isZero
      contradiction
  intro name needed
  rw [needs_times absorbsNothing, needs_plus, leftProduct.needs_iff, rightProduct.needs_iff,
    commonProduct.needs_iff]
  have split : ∀ {factors rests all : List Formula}, (factors ++ rests).Perm all →
      (∃ factor ∈ all, factor.Needs name) →
        (∃ factor ∈ factors, factor.Needs name) ∨ ∃ factor ∈ rests, factor.Needs name := by
    intro factors rests all reordered found
    obtain ⟨factor, member, factorNeeds⟩ := found
    cases List.mem_append.mp (reordered.mem_iff.mpr member) with
    | inl matched => exact .inl ⟨factor, matched, factorNeeds⟩
    | inr left => exact .inr ⟨factor, left, factorNeeds⟩
  cases needed with
  | inl inLeft =>
    cases split shares.left (leftChain.needs_iff.mp inLeft) with
    | inl inCommon => exact .inr inCommon
    | inr inRest => exact .inl (.inl inRest)
  | inr inRight =>
    cases split shares.right (rightChain.needs_iff.mp inRight) with
    | inl inPartner =>
      obtain ⟨partner, member, partnerNeeds⟩ := inPartner
      obtain ⟨factor, isCommon, similar⟩ := exists_of_mem_forall₂ shares.similar member
      exact .inr ⟨factor, isCommon, similar.symm.retains name partnerNeeds⟩
    | inr inRest => exact .inl (.inr inRest)

end Formula

namespace Circuit

-- Every factor of either side is accounted for once: as common, as a partner or as a rest. No two
-- rests could have been matched.
structure Matched (circuit : Circuit) (left right : List Nat) (found : FactorMatch) : Prop where
  left : (found.common ++ found.leftRest).Perm left
  right : ∃ partners, (partners ++ found.rightRest).Perm right ∧
    List.Forall₂ (circuit.Relates Formula.Similar) found.common partners
  apart : ∀ first ∈ found.leftRest, ∀ second ∈ found.rightRest,
    ¬circuit.Relates Formula.Similar first second

theorem Matched.shares {circuit : Circuit} {left right : List Nat} {found : FactorMatch}
    (matched : circuit.Matched left right found) {lefts rights : List Formula}
    (leftDenote : List.Forall₂ circuit.Denotes left lefts)
    (rightDenote : List.Forall₂ circuit.Denotes right rights) :
    ∃ commons partners leftRests rightRests,
      Formula.Shares lefts rights commons partners leftRests rightRests ∧
      List.Forall₂ circuit.Denotes found.common commons ∧
      List.Forall₂ circuit.Denotes found.leftRest leftRests ∧
      List.Forall₂ circuit.Denotes found.rightRest rightRests := by
  obtain ⟨partnerIds, rightPerm, alike⟩ := matched.right
  obtain ⟨moved, movedDenote, movedPerm⟩ := List.perm_comp_forall₂ matched.left leftDenote
  obtain ⟨others, othersDenote, othersPerm⟩ := List.perm_comp_forall₂ rightPerm rightDenote
  obtain ⟨commons, leftRests, rfl, commonsDenote, leftRestsDenote⟩ := forall₂_split movedDenote
  obtain ⟨partners, rightRests, rfl, partnersDenote, rightRestsDenote⟩ :=
    forall₂_split othersDenote
  have half := forall₂_trans (P := fun common partner => ∃ second, circuit.Denotes partner second ∧
    common.Similar second) ?_ commonsDenote.flip alike
  have similar := forall₂_trans (P := Formula.Similar) ?_ half partnersDenote
  · refine ⟨commons, partners, leftRests, rightRests, ⟨movedPerm, othersPerm, similar, ?_⟩,
      commonsDenote, leftRestsDenote, rightRestsDenote⟩
    intro first firstMember second secondMember alike
    obtain ⟨a, aMember, aDenotes⟩ := exists_of_mem_forall₂ leftRestsDenote firstMember
    obtain ⟨b, bMember, bDenotes⟩ := exists_of_mem_forall₂ rightRestsDenote secondMember
    exact matched.apart a aMember b bMember ⟨first, second, aDenotes, bDenotes, alike⟩
  · intro common partner formula finished denotes
    obtain ⟨second, also, holds⟩ := finished
    obtain rfl := Option.some.inj (also.symm.trans denotes)
    exact holds
  · intro common id partner denotes finished
    obtain ⟨first, second, also, partnerDenotes, holds⟩ := finished
    obtain rfl := Option.some.inj (also.symm.trans denotes)
    exact ⟨second, partnerDenotes, holds⟩

end Circuit

section Matching

variable {circuit : Circuit}

structure FactorMatch.Ordered (left right : List Nat) (found : FactorMatch) : Prop where
  common : found.common.Sublist left
  leftRest : found.leftRest.Sublist left
  rightRest : found.rightRest.Sublist right

theorem removeEqual?_yields {table : EqualityTable} {factor : Nat} {candidates : List Nat}
    (right : table.Right circuit) (factorInRange : factor < circuit.size)
    (inRange : ∀ candidate ∈ candidates, candidate < circuit.size) :
    Yields (removeEqual? (EqualityTable.equal circuit) factor candidates) table fun reply next =>
      next.Right circuit ∧
        (∀ remaining, reply = some remaining → remaining.Sublist candidates ∧
          ∃ partner, (partner :: remaining).Perm candidates ∧
            circuit.Relates Formula.Similar factor partner) ∧
        (reply = none → ∀ candidate ∈ candidates,
          ¬circuit.Relates Formula.Similar factor candidate) := by
  induction candidates generalizing table with
  | nil => exact .intro rfl ⟨right, fun remaining none => by contradiction, by simp⟩
  | cons candidate others ih =>
    obtain ⟨first, factorDenotes⟩ := circuit.formula?_of_lt_size factorInRange
    obtain ⟨second, candidateDenotes⟩ := circuit.formula?_of_lt_size
      (inRange candidate List.mem_cons_self)
    refine .bind (EqualityTable.equal_yields right factorDenotes candidateDenotes) ?_
    intro verdict next compared
    obtain ⟨decided, nextRight⟩ := compared
    cases verdict with
    | true =>
      refine .intro rfl ⟨nextRight, ?_, fun none => by contradiction⟩
      intro remaining taken
      obtain rfl := Option.some.inj taken
      exact ⟨List.sublist_cons_self _ _, candidate, .refl _, first, second, factorDenotes,
        candidateDenotes, decided.mp rfl⟩
    | false =>
      refine .bind (ih nextRight fun other member => inRange other (List.mem_cons_of_mem _ member)) ?_
      intro reply last searched
      obtain ⟨lastRight, found, noOther⟩ := searched
      refine .intro rfl ⟨lastRight, ?_, ?_⟩
      · intro remaining taken
        obtain ⟨rest, rfl, rfl⟩ := Option.map_eq_some_iff.mp taken
        obtain ⟨inOrder, partner, reordered, alike⟩ := found rest rfl
        exact ⟨inOrder.cons_cons candidate, partner,
          (List.Perm.swap candidate partner rest).trans (reordered.cons candidate), alike⟩
      · intro nothing other member relates
        cases List.mem_cons.mp member with
        | inl same =>
          subst same
          obtain ⟨result, denotes, alike⟩ := relates.result_of_denotes factorDenotes
          obtain rfl := Option.some.inj (denotes.symm.trans candidateDenotes)
          cases decided.mpr alike
        | inr later => exact noOther (Option.map_eq_none_iff.mp nothing) other later relates

theorem matchFactors_yields {table : EqualityTable} {left candidates : List Nat}
    (right : table.Right circuit) (leftInRange : ∀ factor ∈ left, factor < circuit.size)
    (inRange : ∀ candidate ∈ candidates, candidate < circuit.size) :
    Yields (matchFactors (EqualityTable.equal circuit) left candidates) table fun found next =>
      next.Right circuit ∧ circuit.Matched left candidates found ∧ found.Ordered left candidates := by
  induction left generalizing table candidates with
  | nil =>
    exact .intro rfl ⟨right, ⟨.refl _, ⟨[], .refl _, .nil⟩, by simp⟩, .refl _, .refl _, .refl _⟩
  | cons factor left ih =>
    have leftRestInRange : ∀ other ∈ left, other < circuit.size :=
      fun other member => leftInRange other (List.mem_cons_of_mem factor member)
    refine .bind (removeEqual?_yields right (leftInRange factor List.mem_cons_self) inRange) ?_
    intro reply next removed
    obtain ⟨nextRight, taken, noneAlike⟩ := removed
    cases reply with
    | none =>
      refine .bind (ih nextRight leftRestInRange inRange) ?_
      intro rest last matched
      obtain ⟨lastRight, ⟨leftPerm, ⟨partners, rightPerm, alike⟩, apart⟩, ordered⟩ := matched
      refine .intro rfl ⟨lastRight, ⟨List.perm_middle.trans (leftPerm.cons factor),
        ⟨partners, rightPerm, alike⟩, ?_⟩, ordered.common.cons factor,
        ordered.leftRest.cons_cons factor, ordered.rightRest⟩
      intro first firstMember second secondMember
      cases List.mem_cons.mp firstMember with
      | inl same =>
        have isCandidate := rightPerm.mem_iff.mp (List.mem_append_right partners secondMember)
        exact same ▸ noneAlike rfl second isCandidate
      | inr later => exact apart first later second secondMember
    | some remaining =>
      obtain ⟨inOrder, partner, reordered, here⟩ := taken remaining rfl
      have remainingInRange : ∀ other ∈ remaining, other < circuit.size := fun other member =>
        inRange other (reordered.mem_iff.mp (List.mem_cons_of_mem partner member))
      refine .bind (ih nextRight leftRestInRange remainingInRange) ?_
      intro rest last matched
      obtain ⟨lastRight, ⟨leftPerm, ⟨partners, rightPerm, alike⟩, apart⟩, ordered⟩ := matched
      exact .intro rfl ⟨lastRight, ⟨leftPerm.cons factor, ⟨partner :: partners,
        (rightPerm.cons partner).trans reordered, .cons here alike⟩, apart⟩,
        ordered.common.cons_cons factor, ordered.leftRest.cons factor, ordered.rightRest.trans inOrder⟩

end Matching

namespace Factorizer

variable {circuit : Circuit} {memory : FactorizerMemory}

abbrev Simplifies : Formula → Formula → Prop := Formula.Refines Domain.IsSemiring

structure Restates (formula form : Formula) : Prop where
  simplifies : Simplifies formula form
  retains : Formula.Retains formula form

theorem restates_congruence : Formula.Congruence Restates := by
  intro formula form layer
  exact ⟨Formula.refines_congruence (layer.mono fun _ _ restates => restates.simplifies),
    Formula.retains_congruence (layer.mono fun _ _ restates => restates.retains)⟩

theorem Restates.trans {first second third : Formula} (start : Restates first second)
    (next : Restates second third) : Restates first third :=
  ⟨start.simplifies.trans next.simplifies, start.retains.trans next.retains⟩

structure MemoryRight (circuit : Circuit) (memory : FactorizerMemory) : Prop where
  equality : memory.equality.Right circuit
  depths : memory.depths.Right circuit

theorem memory_right_of_extends {old new : Circuit} (extended : old.Extends new)
    (right : MemoryRight old memory) : MemoryRight new memory :=
  ⟨EqualityTable.right_of_extends extended right.equality,
    DepthTable.right_of_extends extended right.depths⟩

theorem balancedProduct_yields {factors : List Nat} {formulas : List Formula}
    (right : MemoryRight circuit memory)
    (denote : List.Forall₂ circuit.Denotes factors formulas) :
    Yields (balancedProduct factors memory) circuit fun reply grown =>
      circuit.Weaves grown factors [reply.1] ∧ MemoryRight grown reply.2 ∧
        reply.2.fanOut = memory.fanOut ∧
        ∃ product, grown.Denotes reply.1 product ∧ Formula.Product formulas product := by
  have inRange : ∀ id ∈ factors, id < circuit.size := fun id => Circuit.lt_size_of_mem denote
  refine .bind (Build.balancedProduct_yields right.depths inRange) ?_
  intro reply grown built
  obtain ⟨balances, depths⟩ := built
  obtain ⟨formula, denotes⟩ := grown.formula?_of_lt_size balances.inRange
  have later := Circuit.forall_denotes_of_extends balances.extended denote
  exact .intro rfl ⟨balances.weaves,
    ⟨EqualityTable.right_of_extends balances.extended right.equality, depths⟩, rfl,
    formula, denotes, balances.product.denotes later denotes⟩

theorem matchProducts_yields {left right a b c d : Nat} (memoryRight : MemoryRight circuit memory)
    (leftFound : circuit.node? left = some (.product a b))
    (rightFound : circuit.node? right = some (.product c d)) :
    Yields (matchProducts left right memory) circuit fun reply grown =>
      grown = circuit ∧ MemoryRight circuit reply.2 ∧ reply.2.fanOut = memory.fanOut ∧
        ∃ lefts rights, memory.fanOut.factors? circuit left = some lefts ∧
          memory.fanOut.factors? circuit right = some rights ∧
          circuit.Chain .mul lefts left ∧ circuit.Chain .mul rights right ∧
          circuit.Matched lefts rights reply.1 ∧ reply.1.Ordered lefts rights := by
  have leftInRange := Circuit.lt_size_of_node? leftFound
  have rightInRange := Circuit.lt_size_of_node? rightFound
  obtain ⟨lefts, leftSplit, leftChain, _, leftSmaller⟩ :=
    @FanOut.factors?_of_product memory.fanOut _ _ _ _ leftFound
  obtain ⟨rights, rightSplit, rightChain, _, rightSmaller⟩ :=
    @FanOut.factors?_of_product memory.fanOut _ _ _ _ rightFound
  obtain ⟨found, equality, gives, equalityRight, matched, ordered⟩ :=
    matchFactors_yields memoryRight.equality
      (fun factor member => Nat.lt_trans (leftSmaller factor member) leftInRange)
      (fun factor member => Nat.lt_trans (rightSmaller factor member) rightInRange)
  refine .after rfl (.after (Build.lift_eq leftSplit circuit) ?_)
  refine .after (Build.lift_eq rightSplit circuit) (.after (Build.lift_eq gives circuit) ?_)
  exact .intro rfl ⟨rfl, ⟨equalityRight, memoryRight.depths⟩, rfl, lefts, rights, leftSplit,
    rightSplit, leftChain, rightChain, matched, ordered⟩

def FactorsOf (fanOut : FanOut) (circuit : Circuit) (sides factors : List Nat) : Prop :=
  ∀ factor ∈ factors, ∃ side ∈ sides, ∃ operands,
    fanOut.factors? circuit side = some operands ∧ factor ∈ operands

theorem factorsOf_matched {fanOut : FanOut} {left right : Nat} {lefts rights : List Nat}
    {found : FactorMatch} (matched : circuit.Matched lefts rights found)
    (leftSplit : fanOut.factors? circuit left = some lefts)
    (rightSplit : fanOut.factors? circuit right = some rights) :
    FactorsOf fanOut circuit [left, right] (found.leftRest ++ found.rightRest ++ found.common) := by
  obtain ⟨partners, rightPerm, _⟩ := matched.right
  intro factor member
  rcases List.mem_append.mp member with rest | isCommon
  · rcases List.mem_append.mp rest with inLeft | inRight
    · exact ⟨left, by simp, lefts, leftSplit,
        matched.left.mem_iff.mp (List.mem_append_right _ inLeft)⟩
    · exact ⟨right, by simp, rights, rightSplit,
        rightPerm.mem_iff.mp (List.mem_append_right _ inRight)⟩
  · exact ⟨left, by simp, lefts, leftSplit,
      matched.left.mem_iff.mp (List.mem_append_left _ isCommon)⟩

structure Assembled (circuit : Circuit) (found : FactorMatch) (commons leftRests rightRests : List Formula)
    (reply : Option Nat) (grown : Circuit) : Prop where
  nothing : found.common = [] → reply = none ∧ grown = circuit
  something : found.common ≠ [] → ∃ form leftRest rightRest common, reply = some form ∧
    grown.Denotes form ((leftRest.plus rightRest).times common) ∧
    Formula.Product leftRests leftRest ∧ Formula.Product rightRests rightRest ∧
    Formula.Product commons common ∧
    circuit.Weaves grown (found.leftRest ++ found.rightRest ++ found.common) [form]

theorem factored?_of_match {left right : Nat} {found : FactorMatch} {matched : FactorizerMemory}
    {commons leftRests rightRests : List Formula}
    (matching : matchProducts left right memory circuit = some ((found, matched), circuit))
    (matchedRight : MemoryRight circuit matched)
    (commonsDenote : List.Forall₂ circuit.Denotes found.common commons)
    (leftRestsDenote : List.Forall₂ circuit.Denotes found.leftRest leftRests)
    (rightRestsDenote : List.Forall₂ circuit.Denotes found.rightRest rightRests) :
    Yields (factored? left right memory) circuit fun reply grown =>
      circuit.Extends grown ∧ MemoryRight grown reply.2 ∧ reply.2.fanOut = matched.fanOut ∧
        Assembled circuit found commons leftRests rightRests reply.1 grown := by
  refine .memory_after matching ?_
  by_cases nothing : found.common = []
  · simp only [nothing, List.isEmpty_nil]
    exact .intro rfl ⟨circuit.extends_refl, matchedRight, rfl, fun _ => ⟨rfl, rfl⟩,
      fun filled => absurd nothing filled⟩
  · simp only [List.isEmpty_iff, nothing]
    refine .memory_after rfl ?_
    have recordedRight : MemoryRight circuit { matched with
        log := matched.log.record (.factored found.common.length left right) } :=
      ⟨matchedRight.equality, matchedRight.depths⟩
    refine .memory_bind (balancedProduct_yields recordedRight leftRestsDenote) ?_
    intro leftRest memory₁ grown₁ finished
    obtain ⟨weaves₁, right₁, sameFan₁, l, lDenotes, leftProduct⟩ := finished
    have extended₁ := weaves₁.extended
    refine .memory_bind (balancedProduct_yields right₁
      (Circuit.forall_denotes_of_extends extended₁ rightRestsDenote)) ?_
    intro rightRest memory₂ grown₂ finished
    obtain ⟨weaves₂, right₂, sameFan₂, r, rDenotes, rightProduct⟩ := finished
    have extended₂ := weaves₂.extended
    have since₂ := Circuit.extends_trans extended₁ extended₂
    refine .memory_bind (balancedProduct_yields right₂
      (Circuit.forall_denotes_of_extends since₂ commonsDenote)) ?_
    intro common memory₃ grown₃ finished
    obtain ⟨weaves₃, right₃, sameFan₃, q, qDenotes, commonProduct⟩ := finished
    have extended₃ := weaves₃.extended
    have leftRestDenotes := Circuit.denotes_of_extends (Circuit.extends_trans extended₂ extended₃)
      lDenotes
    have rightRestDenotes := Circuit.denotes_of_extends extended₃ rDenotes
    have added := (Build.add_yields leftRestDenotes rightRestDenotes).both
      (Build.add_weaves (Circuit.lt_size_of_denotes leftRestDenotes)
        (Circuit.lt_size_of_denotes rightRestDenotes))
    refine .memory_lift_bind added ?_
    intro sum grown₄ finished
    obtain ⟨sumGains, sumWeaves⟩ := finished
    have commonDenotes := Circuit.denotes_of_extends sumGains.extended qDenotes
    have multiplied := (Build.mul_yields sumGains.denotes commonDenotes).both
      (Build.mul_weaves (Circuit.lt_size_of_denotes sumGains.denotes)
        (Circuit.lt_size_of_denotes commonDenotes))
    refine .memory_lift_bind multiplied ?_
    intro form grown₅ finished
    obtain ⟨gains, formWeaves⟩ := finished
    have later := Circuit.extends_trans sumGains.extended gains.extended
    have carried : grown₄.Weaves grown₄ [common] [common] :=
      Circuit.weaves_of_subperm (by simpa using Circuit.lt_size_of_denotes commonDenotes) (.refl _)
    have woven := (((weaves₁.append weaves₂).append weaves₃).trans (sumWeaves.append carried)).trans
      formWeaves
    exact .intro rfl ⟨Circuit.extends_trans since₂ (Circuit.extends_trans extended₃ later),
      memory_right_of_extends later right₃, sameFan₃.trans (sameFan₂.trans sameFan₁),
      fun empty => absurd empty nothing, fun _ => ⟨form, l, r, q, rfl, gains.denotes, leftProduct,
        rightProduct, commonProduct, woven⟩⟩

theorem factored?_yields {left right a b c d : Nat} {first second : Formula}
    (memoryRight : MemoryRight circuit memory)
    (leftFound : circuit.node? left = some (.product a b))
    (rightFound : circuit.node? right = some (.product c d))
    (leftDenotes : circuit.Denotes left first) (rightDenotes : circuit.Denotes right second) :
    Yields (factored? left right memory) circuit fun reply grown =>
      circuit.Extends grown ∧ MemoryRight grown reply.2 ∧ reply.2.fanOut = memory.fanOut ∧
        (reply.1 = none → grown = circuit) ∧ ∀ form, reply.1 = some form →
          (∃ result, grown.Denotes form result ∧ Restates (.binary .add first second) result) ∧
          ∃ factors, FactorsOf memory.fanOut circuit [left, right] factors ∧
            circuit.Weaves grown factors [form] := by
  obtain ⟨⟨found, matchedMemory⟩, _, matching, rfl, matchedRight, sameFan, lefts, rights, leftSplit,
    rightSplit, leftChain, rightChain, matched, _⟩ :=
    matchProducts_yields memoryRight leftFound rightFound
  obtain ⟨leftFormulas, leftsDenote, firstChain⟩ := leftChain.denotes leftDenotes
  obtain ⟨rightFormulas, rightsDenote, secondChain⟩ := rightChain.denotes rightDenotes
  obtain ⟨commons, partners, leftRests, rightRests, shares, commonsDenote, leftRestsDenote,
    rightRestsDenote⟩ := matched.shares leftsDenote rightsDenote
  refine (factored?_of_match matching matchedRight commonsDenote leftRestsDenote
    rightRestsDenote).mono ?_
  intro reply grown finished
  obtain ⟨extended, grownRight, stillSameFan, assembled⟩ := finished
  by_cases nothing : found.common = []
  · obtain ⟨isNone, same⟩ := assembled.nothing nothing
    exact ⟨extended, grownRight, stillSameFan.trans sameFan, fun _ => same,
      fun form given => nomatch isNone.symm.trans given⟩
  · obtain ⟨form, l, r, q, isForm, denotes, leftProduct, rightProduct, commonProduct, woven⟩ :=
      assembled.something nothing
    have factored : Restates _ _ :=
      ⟨Formula.refines_factored shares firstChain secondChain leftProduct rightProduct commonProduct,
        Formula.retains_factored shares firstChain secondChain leftProduct rightProduct commonProduct⟩
    refine ⟨extended, grownRight, stillSameFan.trans sameFan,
      fun isNone => (nomatch isForm.symm.trans isNone), fun other given => ?_⟩
    obtain rfl := Option.some.inj (isForm.symm.trans given)
    exact ⟨⟨_, denotes, factored⟩, _, factorsOf_matched matched leftSplit rightSplit, woven⟩

structure Refactored (forms : Forms) (fanOut : FanOut) (old new : Circuit) (id form : Nat) : Prop where
  sum : ∃ left right, old.node? id = some (.sum left right)
  woven : ∃ sides factors,
    (∀ side ∈ sides, old.isProduct side = true ∧ ∃ child : Nat, forms[child]? = some side) ∧
      FactorsOf fanOut old sides factors ∧ old.Weaves new factors [form]

theorem factoredSum?_cases {forms : Forms} {id : Nat} {formula : Formula}
    (memoryRight : MemoryRight circuit memory) (related : forms.Related Restates circuit)
    (denotes : circuit.Denotes id formula) (known : ∀ child ∈ circuit.children id, child ∈ forms) :
    Yields (factoredSum? forms id memory) circuit fun reply grown =>
      (reply = (none, memory) ∧ grown = circuit) ∨
      ∃ left right newLeft newRight a b c d, circuit.node? id = some (.sum left right) ∧
        forms[left]? = some newLeft ∧ forms[right]? = some newRight ∧
        circuit.node? newLeft = some (.product a b) ∧ circuit.node? newRight = some (.product c d) ∧
        factored? newLeft newRight memory circuit = some (reply, grown) := by
  obtain ⟨node, found, _⟩ := Circuit.denotes_iff.mp denotes
  refine .memory_after (Build.memory_node_eq found memory) ?_
  cases split : node.operands? .add with
  | none => exact .intro rfl (.inl ⟨rfl, rfl⟩)
  | some pair =>
    obtain ⟨left, right⟩ := pair
    obtain rfl := Node.operands?_eq_some.mp split
    obtain ⟨_, _, _, newLeftForm, newRightForm⟩ := related.forms_of_binary found denotes known
    obtain ⟨newLeft, newFirst, leftFound, newLeftDenotes, _⟩ := newLeftForm
    obtain ⟨newRight, newSecond, rightFound, newRightDenotes, _⟩ := newRightForm
    obtain ⟨leftNode, leftPresent, _⟩ := Circuit.denotes_iff.mp newLeftDenotes
    obtain ⟨rightNode, rightPresent, _⟩ := Circuit.denotes_iff.mp newRightDenotes
    refine .memory_after (Yields.memory_lookup leftFound memory circuit) ?_
    refine .memory_after (Yields.memory_lookup rightFound memory circuit) ?_
    refine .memory_after (Build.memory_node_eq leftPresent memory) ?_
    refine .memory_after (Build.memory_node_eq rightPresent memory) ?_
    by_cases products : (leftNode.operands? .mul).isSome && (rightNode.operands? .mul).isSome
    · simp only [products]
      obtain ⟨leftSplit, rightSplit⟩ := Bool.and_eq_true_iff.mp products
      obtain ⟨⟨a, b⟩, leftPair⟩ := Option.isSome_iff_exists.mp leftSplit
      obtain ⟨⟨c, d⟩, rightPair⟩ := Option.isSome_iff_exists.mp rightSplit
      obtain rfl := Node.operands?_eq_some.mp leftPair
      obtain rfl := Node.operands?_eq_some.mp rightPair
      obtain ⟨reply, grown, gives, _⟩ :=
        factored?_yields memoryRight leftPresent rightPresent newLeftDenotes newRightDenotes
      exact .intro gives (.inr ⟨left, right, newLeft, newRight, a, b, c, d, found, leftFound, rightFound,
        leftPresent, rightPresent, gives⟩)
    · simp only [products]
      exact .intro rfl (.inl ⟨rfl, rfl⟩)

theorem factoredSum?_yields {forms : Forms} {id : Nat} {formula : Formula}
    (memoryRight : MemoryRight circuit memory) (related : forms.Related Restates circuit)
    (denotes : circuit.Denotes id formula) (known : ∀ child ∈ circuit.children id, child ∈ forms) :
    Yields (factoredSum? forms id memory) circuit fun reply grown =>
      circuit.Extends grown ∧ MemoryRight grown reply.2 ∧ reply.2.fanOut = memory.fanOut ∧
        (reply.1 = none → grown = circuit) ∧ ∀ form, reply.1 = some form →
          (∃ result, grown.Denotes form result ∧ Restates formula result) ∧
          Refactored forms memory.fanOut circuit grown id form := by
  refine (factoredSum?_cases memoryRight related denotes known).mono ?_
  rintro reply grown (⟨rfl, rfl⟩ |
    ⟨left, right, newLeft, newRight, a, b, c, d, found, leftFound, rightFound, leftPresent, rightPresent,
      gives⟩)
  · exact ⟨grown.extends_refl, memoryRight, rfl, fun _ => rfl, fun form none => by contradiction⟩
  · obtain ⟨first, second, rfl, newLeftForm, newRightForm⟩ :=
      related.forms_of_binary found denotes known
    obtain ⟨_, newFirst, alsoLeft, newLeftDenotes, leftHolds⟩ := newLeftForm
    obtain ⟨_, newSecond, alsoRight, newRightDenotes, rightHolds⟩ := newRightForm
    obtain rfl := Option.some.inj (leftFound.symm.trans alsoLeft)
    obtain rfl := Option.some.inj (rightFound.symm.trans alsoRight)
    obtain ⟨_, _, also, extended, right', sameFan, nothing, factored⟩ :=
      factored?_yields memoryRight leftPresent rightPresent newLeftDenotes newRightDenotes
    cases gives.symm.trans also
    refine ⟨extended, right', sameFan, nothing, fun form same => ?_⟩
    obtain ⟨⟨result, formDenotes, restates⟩, factors, split, weaves⟩ := factored form same
    have sides : ∀ side ∈ [newLeft, newRight],
        circuit.isProduct side = true ∧ ∃ child : Nat, forms[child]? = some side := by
      intro side member
      rcases List.mem_pair.mp member with rfl | rfl
      · exact ⟨Circuit.isProduct_iff.mpr ⟨a, b, leftPresent⟩, left, leftFound⟩
      · exact ⟨Circuit.isProduct_iff.mpr ⟨c, d, rightPresent⟩, right, rightFound⟩
    exact ⟨⟨result, formDenotes,
      (restates_congruence (.binary .add leftHolds rightHolds)).trans restates⟩,
      ⟨left, right, found⟩, [newLeft, newRight], factors, sides, split, weaves⟩

def Rebuilt (forms : Forms) (fanOut : FanOut) (old new : Circuit) (id form : Nat) : Prop :=
  old.Relinks forms id form new ∨ Refactored forms fanOut old new id form

theorem rebuild_yields {forms : Forms} {id : Nat} {formula : Formula}
    (related : forms.Related Restates circuit) (memoryRight : MemoryRight circuit memory)
    (denotes : circuit.Denotes id formula) (known : ∀ child ∈ circuit.children id, child ∈ forms) :
    Yields (rebuild forms id memory) circuit fun reply grown =>
      circuit.Extends grown ∧ MemoryRight grown reply.2 ∧
        (∃ result, grown.Denotes reply.1 result ∧ Restates formula result) ∧
        reply.2.fanOut = memory.fanOut.inherit id reply.1 ∧
        Rebuilt forms memory.fanOut circuit grown id reply.1 := by
  refine .memory_bind (factoredSum?_yields memoryRight related denotes known) ?_
  intro reply later next finished
  obtain ⟨extended, laterRight, sameFan, nothing, factored⟩ := finished
  dsimp only at sameFan
  cases reply with
  | some form =>
    obtain ⟨restates, refactored⟩ := factored form rfl
    exact .intro rfl ⟨extended, ⟨laterRight.equality, laterRight.depths⟩, restates,
      congrArg (FanOut.inherit · id form) sameFan, .inr refactored⟩
  | none =>
    obtain rfl := nothing rfl
    have relinked := (Build.relinked_yields related denotes known).both
      (Build.relinked_relinks related denotes known)
    refine .memory_lift_bind relinked ?_
    intro form grown finished
    obtain ⟨⟨_, result, gains, layer⟩, relinks⟩ := finished
    have lastRight := memory_right_of_extends gains.extended laterRight
    exact .intro rfl ⟨gains.extended, ⟨lastRight.equality, lastRight.depths⟩,
      ⟨result, gains.denotes, restates_congruence layer⟩,
      congrArg (FanOut.inherit · id form) sameFan, .inl relinks⟩

theorem rebuild_restates : Rewriter.RebuildRelates Restates MemoryRight rebuild :=
  fun _ _ _ _ _ related memoryRight denotes known =>
    (rebuild_yields related memoryRight denotes known).mono
      fun _ _ holds => ⟨holds.1, holds.2.1, holds.2.2.1⟩

-- What holds between calls.
structure Right (circuit : Circuit) (factorizer : Factorizer) : Prop where
  related : factorizer.forms.Related Restates circuit
  memory : MemoryRight circuit factorizer.memory

theorem fresh_right (log : Log) (circuit : Circuit) : Right circuit (fresh log) :=
  ⟨Forms.empty_related circuit, EqualityTable.empty_right circuit, DepthTable.empty_right circuit⟩

theorem right_of_extends {old new : Circuit} {factorizer : Factorizer} (extended : old.Extends new)
    (right : Right old factorizer) : Right new factorizer :=
  ⟨Forms.related_of_extends extended right.related, memory_right_of_extends extended right.memory⟩

theorem countUses_eq {factorizer : Factorizer} {root : Nat} {counted : FanOut}
    (counting : factorizer.memory.fanOut.count? circuit root = some counted) :
    Rewriter.inMemory (countUses root) factorizer circuit =
      some (((), ⟨factorizer.forms, { factorizer.memory with fanOut := counted }⟩), circuit) := by
  change (((factorizer.memory.fanOut.count? circuit root).bind _).bind _).bind _ = _
  rw [counting]
  rfl

theorem simplify_restates {factorizer : Factorizer} (right : Right circuit factorizer) {root : Nat}
    (inRange : root < circuit.size) :
    Yields (simplify root factorizer) circuit fun reply grown =>
      circuit.Rewrites Restates grown root reply.1 ∧ Right grown reply.2 := by
  obtain ⟨counted, counting⟩ := factorizer.memory.fanOut.exists_count? inRange
  refine .memory_after (countUses_eq counting) (.memory_after rfl ?_)
  have ready : Right circuit ⟨factorizer.forms, { factorizer.memory with fanOut := counted }⟩ :=
    ⟨right.related, right.memory.equality, right.memory.depths⟩
  refine .memory_bind
    (Rewriter.run_related rebuild_restates inRange ready.related ready.memory) ?_
  intro form last grown finished
  obtain ⟨rewrites, related, memoryRight⟩ := finished
  refine .memory_after rfl (.intro rfl ⟨rewrites, related, ?_⟩)
  exact ⟨memoryRight.equality, memoryRight.depths⟩

theorem simplify_yields {factorizer : Factorizer} (right : Right circuit factorizer) {root : Nat}
    (inRange : root < circuit.size) :
    Yields (simplify root factorizer) circuit fun reply grown =>
      circuit.Rewrites Simplifies grown root reply.1 ∧ Right grown reply.2 := by
  refine (simplify_restates right inRange).mono ?_
  intro reply grown finished
  obtain ⟨rewrites, laterRight⟩ := finished
  exact ⟨⟨rewrites.extended, inRange, rewrites.relates.mono fun _ _ restates => restates.simplifies⟩,
    laterRight⟩

theorem session_right {log : Log} {factorizer : Factorizer}
    (session : Session simplify (fresh log) circuit factorizer) : Right circuit factorizer := by
  refine session.invariant (fresh_right log) (fun _ _ _ => right_of_extends) ?_
  intro circuit factorizer root inRange right
  exact (simplify_yields right inRange).mono fun _ _ holds => holds.2

theorem simplify_preserves_values (log : Log) {factorizer : Factorizer}
    (session : Session simplify (fresh log) circuit factorizer) {root : Nat}
    (inRange : root < circuit.size) :
    ∃ form later grown, simplify root factorizer circuit = some ((form, later), grown) ∧
      circuit.Extends grown ∧
      ∀ (T : Type) [CommSemiring T] (domain : Domain T), domain.OverSemiring → ∀ inputs value,
        circuit.eval? domain inputs root = some (.ok value) →
          grown.eval? domain inputs form = some (.ok value) := by
  obtain ⟨⟨form, later⟩, grown, gives, rewrites, _⟩ :=
    simplify_yields (session_right session) inRange
  refine ⟨form, later, grown, gives, rewrites.extended, ?_⟩
  intro T semiring domain laws inputs value evaluates
  exact rewrites.preserves ⟨semiring, laws⟩ evaluates

def commonFactorSum : Circuit where
  nodes := #[.input "a", .input "b", .input "c", .product 0 1, .product 1 2, .sum 3 4]
  earlier := by decide

theorem simplify_common_factor_sum :
    ∃ form later grown, simplify 5 (fresh .off) commonFactorSum = some ((form, later), grown) ∧
      grown.eval? .words (List.lookup · [("a", 2), ("b", 3), ("c", 5)]) form = some (.ok 21) := by
  obtain ⟨form, later, grown, gives, _, same⟩ :=
    simplify_preserves_values .off (.start commonFactorSum)
      (show 5 < commonFactorSum.size by decide)
  refine ⟨form, later, grown, gives, @same UInt64 UInt64.instCommRing.toCommSemiring .words
    Domain.words_over_semiring _ _ ?_⟩
  rw [Circuit.eval?_of_denotes _ _ (show commonFactorSum.Denotes 5 _ from rfl)]
  rfl

end Factorizer

end ArithCircuit
