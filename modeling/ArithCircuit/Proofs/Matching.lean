import ArithCircuit.Proofs.Factor
import ArithCircuit.Proofs.Likeness

set_option autoImplicit false

namespace ArithCircuit

namespace Circuit

def occurrences (circuit : Circuit) (id : Nat) (ids : List Nat) : Nat :=
  ids.countP fun other => circuit.equal? id other = some true

variable {circuit : Circuit} {id : Nat}

theorem occurrences_append (circuit : Circuit) (id : Nat) (first second : List Nat) :
    circuit.occurrences id (first ++ second) =
      circuit.occurrences id first + circuit.occurrences id second :=
  List.countP_append

theorem occurrences_of_perm {first second : List Nat} (reordered : first.Perm second) :
    circuit.occurrences id first = circuit.occurrences id second :=
  reordered.countP_eq _

theorem occurrences_pos {ids : List Nat} :
    0 < circuit.occurrences id ids ↔ ∃ other ∈ ids, circuit.equal? id other = some true := by
  simp [occurrences, List.countP_pos_iff]

theorem alike_of_equal? {left right : Nat} (leftInRange : left < circuit.size)
    (rightInRange : right < circuit.size) (equal : circuit.equal? left right = some true) :
    circuit.Alike left right :=
  (equal?_iff_alike leftInRange rightInRange).mp equal

theorem Alike.equal? {left right : Nat} (alike : circuit.Alike left right) :
    circuit.equal? left right = some true :=
  (equal?_iff_alike alike.inRange.1 alike.inRange.2).mpr alike

theorem equal?_congr {first second : Nat} (inRange : id < circuit.size)
    (alike : circuit.Alike first second) :
    circuit.equal? id first = some true ↔ circuit.equal? id second = some true := by
  rw [equal?_iff_alike inRange alike.inRange.1, equal?_iff_alike inRange alike.inRange.2]
  exact ⟨fun below => below.trans alike, fun below => below.trans alike.symm⟩

theorem occurrences_of_partners {commons partners : List Nat} (inRange : id < circuit.size)
    (alike : List.Forall₂ (circuit.Relates Formula.Similar) commons partners) :
    circuit.occurrences id commons = circuit.occurrences id partners := by
  induction alike with
  | nil => rfl
  | cons here _ ih =>
    have same := equal?_congr inRange (alike_iff_relates.mpr here)
    unfold occurrences at ih ⊢
    rw [List.countP_cons, List.countP_cons, ih]
    simp only [same]

-- Structural equality is an equivalence, so it does not matter which factor of a class is taken for
-- which.
structure MatchedFully (circuit : Circuit) (lefts rights : List Nat) (found : FactorMatch) : Prop where
  common : ∀ id < circuit.size, circuit.occurrences id found.common =
    min (circuit.occurrences id lefts) (circuit.occurrences id rights)
  leftRest : ∀ id < circuit.size, circuit.occurrences id found.leftRest =
    circuit.occurrences id lefts - min (circuit.occurrences id lefts) (circuit.occurrences id rights)
  rightRest : ∀ id < circuit.size, circuit.occurrences id found.rightRest =
    circuit.occurrences id rights - min (circuit.occurrences id lefts) (circuit.occurrences id rights)
  accounted : (found.common ++ found.leftRest).Perm lefts
  ordered : found.Ordered lefts rights
  apart : ∀ first ∈ found.leftRest, ∀ second ∈ found.rightRest,
    circuit.equal? first second = some false

section Matches

variable {lefts rights : List Nat} {found : FactorMatch}

theorem Matched.occurrences_left (matched : circuit.Matched lefts rights found) (id : Nat) :
    circuit.occurrences id found.common + circuit.occurrences id found.leftRest =
      circuit.occurrences id lefts := by
  rw [← occurrences_append]
  exact occurrences_of_perm matched.left

theorem Matched.occurrences_right (matched : circuit.Matched lefts rights found)
    (inRange : id < circuit.size) :
    circuit.occurrences id found.common + circuit.occurrences id found.rightRest =
      circuit.occurrences id rights := by
  obtain ⟨partners, reordered, alike⟩ := matched.right
  rw [occurrences_of_partners inRange alike, ← occurrences_append]
  exact occurrences_of_perm reordered

theorem Matched.exhausts (matched : circuit.Matched lefts rights found)
    (leftInRange : ∀ factor ∈ found.leftRest, factor < circuit.size)
    (rightInRange : ∀ factor ∈ found.rightRest, factor < circuit.size) (inRange : id < circuit.size) :
    circuit.occurrences id found.leftRest = 0 ∨ circuit.occurrences id found.rightRest = 0 := by
  by_contra both
  obtain ⟨leftSome, rightSome⟩ := not_or.mp both
  obtain ⟨first, firstMember, firstEqual⟩ := occurrences_pos.mp (Nat.pos_of_ne_zero leftSome)
  obtain ⟨second, secondMember, secondEqual⟩ := occurrences_pos.mp (Nat.pos_of_ne_zero rightSome)
  have toFirst := alike_of_equal? inRange (leftInRange first firstMember) firstEqual
  have toSecond := alike_of_equal? inRange (rightInRange second secondMember) secondEqual
  exact matched.apart first firstMember second secondMember
    (alike_iff_relates.mp (toFirst.symm.trans toSecond))

theorem Matched.fully (matched : circuit.Matched lefts rights found)
    (ordered : found.Ordered lefts rights) (leftInRange : ∀ factor ∈ lefts, factor < circuit.size)
    (rightInRange : ∀ factor ∈ rights, factor < circuit.size) :
    circuit.MatchedFully lefts rights found := by
  have leftRestInRange : ∀ factor ∈ found.leftRest, factor < circuit.size :=
    fun factor member => leftInRange factor (ordered.leftRest.subset member)
  have rightRestInRange : ∀ factor ∈ found.rightRest, factor < circuit.size :=
    fun factor member => rightInRange factor (ordered.rightRest.subset member)
  have counted : ∀ id < circuit.size,
      circuit.occurrences id found.common + circuit.occurrences id found.leftRest =
        circuit.occurrences id lefts ∧
      circuit.occurrences id found.common + circuit.occurrences id found.rightRest =
        circuit.occurrences id rights ∧
      (circuit.occurrences id found.leftRest = 0 ∨ circuit.occurrences id found.rightRest = 0) :=
    fun id inRange => ⟨matched.occurrences_left id, matched.occurrences_right inRange,
      matched.exhausts leftRestInRange rightRestInRange inRange⟩
  refine ⟨fun id inRange => ?_, fun id inRange => ?_, fun id inRange => ?_, matched.left, ordered, ?_⟩
  · have counts := counted id inRange
    omega
  · have counts := counted id inRange
    omega
  · have counts := counted id inRange
    omega
  · intro first firstMember second secondMember
    obtain ⟨verdict, gives, told⟩ := equal?_tells (leftRestInRange first firstMember)
      (rightRestInRange second secondMember)
    have different : ¬verdict = true := fun equal =>
      matched.apart first firstMember second secondMember (alike_iff_relates.mp (told.mp equal))
    rw [gives, Bool.eq_false_iff.mpr different]

theorem MatchedFully.common_eq_nil (matched : circuit.MatchedFully lefts rights found)
    (leftInRange : ∀ factor ∈ lefts, factor < circuit.size) :
    found.common = [] ↔
      ∀ id < circuit.size, circuit.occurrences id lefts = 0 ∨ circuit.occurrences id rights = 0 := by
  constructor
  · intro nothing id inRange
    have counts := matched.common id inRange
    rw [nothing] at counts
    have none : circuit.occurrences id [] = 0 := rfl
    omega
  · intro noClass
    by_contra filled
    obtain ⟨factor, member⟩ := List.exists_mem_of_ne_nil _ filled
    have inRange := leftInRange factor (matched.ordered.common.subset member)
    have counts := matched.common factor inRange
    have occurs : 0 < circuit.occurrences factor found.common :=
      occurrences_pos.mpr ⟨factor, member, (Alike.refl inRange).equal?⟩
    have absent := noClass factor inRange
    omega

end Matches

end Circuit

namespace Factorizer

inductive Reached (log : Log) : Circuit → FactorizerMemory → Prop where
  | start (circuit : Circuit) : Reached log circuit (fresh log).memory
  | grow {circuit larger : Circuit} {memory : FactorizerMemory} (before : Reached log circuit memory)
      (extended : circuit.Extends larger) : Reached log larger memory
  | record {circuit : Circuit} {memory : FactorizerMemory} (before : Reached log circuit memory)
      (event : Event) : Reached log circuit { memory with log := memory.log.record event }
  | share {circuit : Circuit} {memory : FactorizerMemory} (before : Reached log circuit memory)
      (fanOut : FanOut) : Reached log circuit { memory with fanOut }
  | factor {circuit grown : Circuit} {memory later : FactorizerMemory} {left right a b c d : Nat}
      {reply : Option Nat} (before : Reached log circuit memory)
      (leftFound : circuit.node? left = some (.product a b))
      (rightFound : circuit.node? right = some (.product c d))
      (gives : factored? left right memory circuit = some ((reply, later), grown)) :
      Reached log grown later

variable {log : Log} {circuit : Circuit} {memory : FactorizerMemory}

theorem right_of_factored? {grown : Circuit} {later : FactorizerMemory} {left right a b c d : Nat}
    {reply : Option Nat} (memoryRight : MemoryRight circuit memory)
    (leftFound : circuit.node? left = some (.product a b))
    (rightFound : circuit.node? right = some (.product c d))
    (gives : factored? left right memory circuit = some ((reply, later), grown)) :
    MemoryRight grown later ∧ (reply = none → grown = circuit) := by
  obtain ⟨first, leftDenotes⟩ := circuit.formula?_of_lt_size (Circuit.lt_size_of_node? leftFound)
  obtain ⟨second, rightDenotes⟩ := circuit.formula?_of_lt_size (Circuit.lt_size_of_node? rightFound)
  obtain ⟨_, _, also, _, kept, _, nothing, _⟩ :=
    factored?_yields memoryRight leftFound rightFound leftDenotes rightDenotes
  cases gives.symm.trans also
  exact ⟨kept, nothing⟩

theorem Reached.right (reached : Reached log circuit memory) : MemoryRight circuit memory := by
  induction reached with
  | start circuit => exact (fresh_right log circuit).memory
  | grow _ extended ih => exact memory_right_of_extends extended ih
  | record _ _ ih => exact ⟨ih.equality, ih.depths⟩
  | share _ _ ih => exact ⟨ih.equality, ih.depths⟩
  | factor _ leftFound rightFound gives ih => exact (right_of_factored? ih leftFound rightFound gives).1

section Runs

theorem factoredSum?_reached {forms : Forms} {id : Nat} {formula : Formula}
    (related : forms.Related Restates circuit) (reached : Reached log circuit memory)
    (denotes : circuit.Denotes id formula) (known : ∀ child ∈ circuit.children id, child ∈ forms) :
    Yields (factoredSum? forms id memory) circuit fun reply grown =>
      Reached log grown reply.2 ∧ (reply.1 = none → grown = circuit) := by
  refine (factoredSum?_cases reached.right related denotes known).mono ?_
  rintro reply grown (⟨rfl, rfl⟩ | ⟨_, _, _, _, _, _, _, _, _, _, _, leftFound, rightFound, gives⟩)
  · exact ⟨reached, fun _ => rfl⟩
  · exact ⟨reached.factor leftFound rightFound gives,
      (right_of_factored? reached.right leftFound rightFound gives).2⟩

theorem rebuild_reached {forms : Forms} {id : Nat} {formula : Formula}
    (related : forms.Related Restates circuit) (reached : Reached log circuit memory)
    (denotes : circuit.Denotes id formula) (known : ∀ child ∈ circuit.children id, child ∈ forms) :
    Yields (rebuild forms id memory) circuit fun reply grown => Reached log grown reply.2 := by
  refine .memory_bind (factoredSum?_reached related reached denotes known) ?_
  intro reply later next finished
  obtain ⟨factored, nothing⟩ := finished
  cases reply with
  | some form => exact .intro rfl (factored.share _)
  | none =>
    obtain rfl := nothing rfl
    refine .memory_lift_bind (Build.relinked_yields related denotes known) ?_
    intro form grown finished
    obtain ⟨_, _, gains, _⟩ := finished
    exact .intro rfl ((factored.grow gains.extended).share _)

theorem simplify_reached {factorizer : Factorizer} (right : Right circuit factorizer)
    (reached : Reached log circuit factorizer.memory) {root : Nat} (inRange : root < circuit.size) :
    Yields (simplify root factorizer) circuit fun reply grown =>
      Right grown reply.2 ∧ Reached log grown reply.2.memory := by
  obtain ⟨counted, counting⟩ := factorizer.memory.fanOut.exists_count? inRange
  have both : Yields (simplify root factorizer) circuit fun reply grown =>
      Reached log grown reply.2.memory := by
    refine .memory_after (countUses_eq counting) (.memory_after rfl ?_)
    have ran := @Rewriter.run_related FactorizerMemory rebuild circuit Restates (Reached log)
      (fun _ _ _ _ _ related reached denotes known =>
        ((rebuild_restates _ _ _ _ _ related reached.right denotes known).both
          (rebuild_reached related reached denotes known)).mono
          fun _ _ finished => ⟨finished.1.1, finished.2, finished.1.2.2⟩)
      root inRange ⟨factorizer.forms, { factorizer.memory with fanOut := counted }⟩
      right.related (reached.share counted)
    refine .memory_bind ran ?_
    intro form last grown finished
    exact .memory_after rfl (.intro rfl (finished.2.2.record _))
  exact ((simplify_yields right inRange).both both).mono
    fun _ _ finished => ⟨finished.1.2, finished.2⟩

theorem session_reached {factorizer : Factorizer}
    (session : Session simplify (fresh log) circuit factorizer) :
    Reached log circuit factorizer.memory := by
  have held := @Session.invariant Factorizer simplify (fresh log)
    (fun circuit factorizer => Right circuit factorizer ∧ Reached log circuit factorizer.memory)
    (fun circuit => ⟨fresh_right log circuit, .start circuit⟩)
    (fun _ _ _ extended held => ⟨right_of_extends extended held.1, held.2.grow extended⟩)
    (fun _ _ _ inRange held => simplify_reached held.1 held.2 inRange) circuit factorizer session
  exact held.2

end Runs

def Distributed (circuit grown : Circuit) (found : FactorMatch) (form : Nat) : Prop :=
  ∃ commons leftRests rightRests common leftRest rightRest,
    List.Forall₂ circuit.Denotes found.common commons ∧
    List.Forall₂ circuit.Denotes found.leftRest leftRests ∧
    List.Forall₂ circuit.Denotes found.rightRest rightRests ∧
    Formula.Product commons common ∧ Formula.Product leftRests leftRest ∧
    Formula.Product rightRests rightRest ∧ grown.Denotes form ((leftRest.plus rightRest).times common)

theorem factored?_matches_fully (log : Log) (reached : Reached log circuit memory)
    {left right a b c d : Nat} (leftFound : circuit.node? left = some (.product a b))
    (rightFound : circuit.node? right = some (.product c d)) :
    ∃ lefts rights found matched reply later grown,
      memory.fanOut.factors? circuit left = some lefts ∧
      memory.fanOut.factors? circuit right = some rights ∧
      matchProducts left right memory circuit = some ((found, matched), circuit) ∧
      circuit.MatchedFully lefts rights found ∧
      factored? left right memory circuit = some ((reply, later), grown) ∧
      (reply = none ↔ ∀ id < circuit.size,
        circuit.occurrences id lefts = 0 ∨ circuit.occurrences id rights = 0) ∧
      (reply = none → grown = circuit) ∧
      ∀ form, reply = some form → Distributed circuit grown found form := by
  obtain ⟨⟨found, matched⟩, _, matching, rfl, matchedRight, _, lefts, rights, leftSplit, rightSplit,
    leftChain, rightChain, paired, ordered⟩ :=
    matchProducts_yields reached.right leftFound rightFound
  obtain ⟨first, leftDenotes⟩ := Circuit.formula?_of_lt_size _ (Circuit.lt_size_of_node? leftFound)
  obtain ⟨second, rightDenotes⟩ := Circuit.formula?_of_lt_size _ (Circuit.lt_size_of_node? rightFound)
  obtain ⟨_, leftsDenote, _⟩ := leftChain.denotes leftDenotes
  obtain ⟨_, rightsDenote, _⟩ := rightChain.denotes rightDenotes
  obtain ⟨commons, _, leftRests, rightRests, _, commonsDenote, leftRestsDenote, rightRestsDenote⟩ :=
    paired.shares leftsDenote rightsDenote
  have leftInRange : ∀ factor ∈ lefts, factor < _ :=
    fun factor => Circuit.lt_size_of_mem leftsDenote
  have fully := paired.fully ordered leftInRange fun factor => Circuit.lt_size_of_mem rightsDenote
  obtain ⟨⟨reply, later⟩, grown, gives, _, _, _, assembled⟩ := factored?_of_match matching matchedRight
    commonsDenote leftRestsDenote rightRestsDenote
  refine ⟨lefts, rights, found, matched, reply, later, grown, leftSplit, rightSplit, matching, fully,
    gives, ?_⟩
  rw [← fully.common_eq_nil leftInRange]
  by_cases nothing : found.common = []
  · obtain ⟨isNone, same⟩ := assembled.nothing nothing
    exact ⟨iff_of_true isNone nothing, fun _ => same, fun form given => nomatch isNone.symm.trans given⟩
  · obtain ⟨form, leftRest, rightRest, common, isForm, denotes, leftProduct, rightProduct, commonProduct,
      _⟩ := assembled.something nothing
    have isSome : reply ≠ none := fun isNone => nomatch isForm.symm.trans isNone
    refine ⟨iff_of_false isSome nothing, fun isNone => absurd isNone isSome, fun other given => ?_⟩
    obtain rfl := Option.some.inj (isForm.symm.trans given)
    exact ⟨commons, leftRests, rightRests, common, leftRest, rightRest, commonsDenote, leftRestsDenote,
      rightRestsDenote, commonProduct, leftProduct, rightProduct, denotes⟩

def squaredSumAndSum : Circuit where
  nodes := #[.input "a", .input "b", .sum 0 1, .sum 1 0, .product 2 2, .product 4 0, .product 3 1]
  earlier := by decide

theorem sum_matched_once_of_twice :
    ∃ found matched reply later grown,
      matchProducts 5 6 (fresh .off).memory squaredSumAndSum =
        some ((found, matched), squaredSumAndSum) ∧
      squaredSumAndSum.occurrences 2 found.common = 1 ∧
      squaredSumAndSum.occurrences 2 found.leftRest = 1 ∧
      squaredSumAndSum.occurrences 2 found.rightRest = 0 ∧
      factored? 5 6 (fresh .off).memory squaredSumAndSum = some ((some reply, later), grown) := by
  obtain ⟨lefts, rights, found, matched, reply, later, grown, leftSplit, rightSplit, matching, fully,
    gives, nothing, _, _⟩ := factored?_matches_fully .off (.start squaredSumAndSum)
      (show squaredSumAndSum.node? 5 = some (.product 4 0) from rfl)
      (show squaredSumAndSum.node? 6 = some (.product 3 1) from rfl)
  have unshared : (fresh .off).memory.fanOut.isShared = fun _ => false := by
    funext id
    simp [fresh, Rewriter.fresh, FanOut.isShared, FanOut.usesOf, FanOut.empty]
  rw [FanOut.factors?, unshared] at leftSplit rightSplit
  obtain rfl : [2, 2, 0] = lefts := Option.some.inj leftSplit
  obtain rfl : [3, 1] = rights := Option.some.inj rightSplit
  have sum : squaredSumAndSum.Denotes 2 (.binary .add (.input "a") (.input "b")) := rfl
  have swapped : squaredSumAndSum.Denotes 3 (.binary .add (.input "b") (.input "a")) := rfl
  have itself : squaredSumAndSum.equal? 2 2 = some true :=
    Circuit.equal?_eq sum sum (iff_true_intro (.refl _))
  have commuted : squaredSumAndSum.equal? 2 3 = some true :=
    Circuit.equal?_eq sum swapped (iff_true_intro ⟨rfl, .inr ⟨rfl, rfl⟩⟩)
  have notFirst : squaredSumAndSum.equal? 2 0 = some false := Circuit.equal?_eq sum
    (show squaredSumAndSum.Denotes 0 (.input "a") from rfl) (iff_of_false id id)
  have notSecond : squaredSumAndSum.equal? 2 1 = some false := Circuit.equal?_eq sum
    (show squaredSumAndSum.Denotes 1 (.input "b") from rfl) (iff_of_false id id)
  have onLeft : squaredSumAndSum.occurrences 2 [2, 2, 0] = 2 := by
    simp [Circuit.occurrences, itself, notFirst]
  have onRight : squaredSumAndSum.occurrences 2 [3, 1] = 1 := by
    simp [Circuit.occurrences, commuted, notSecond]
  have inRange : 2 < squaredSumAndSum.size := by decide
  have common := fully.common 2 inRange
  have leftRest := fully.leftRest 2 inRange
  have rightRest := fully.rightRest 2 inRange
  rw [onLeft, onRight] at common leftRest rightRest
  cases reply with
  | none =>
    have absent := nothing.mp rfl 2 inRange
    omega
  | some form =>
    exact ⟨found, matched, form, later, grown, matching, common, leftRest, rightRest, gives⟩

end Factorizer

end ArithCircuit
