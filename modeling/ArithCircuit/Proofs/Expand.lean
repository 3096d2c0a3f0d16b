import ArithCircuit.Proofs.Rewriting
import ArithCircuit.Rewrite.Expand
import Mathlib.Algebra.BigOperators.Ring.List

set_option autoImplicit false

namespace ArithCircuit

namespace Formula

def total : List Formula → Formula
  | [] => .constant 0
  | first :: rest => rest.foldl plus first

def scaled (factor term : Formula) : Formula := total ((term.operands .add).map factor.times)

def crossProduct (left right : Formula) : Formula :=
  total ((left.operands .add).map (scaled · right))

def isSum : Formula → Bool
  | .binary .add _ _ => true
  | _ => false

def expanded : Formula → Formula
  | .constant value => .constant value
  | .input name => .input name
  | .binary .add left right => .binary .add left.expanded right.expanded
  | .binary .mul left right =>
    if left.expanded.isSum || right.expanded.isSum then left.expanded.crossProduct right.expanded
    else .binary .mul left.expanded right.expanded
  | .shift direction operand amount => .shift direction operand.expanded amount

section Values

variable {T : Type} [CommSemiring T] {domain : Domain T} {inputs : String → Option T}

theorem addends_of_evaluates (semiring : domain.OverSemiring) {formula : Formula} {value : T}
    (evaluates : formula.Evaluates domain inputs value) :
    ∃ values, List.Forall₂ (Evaluates domain inputs) (formula.operands .add) values ∧
      values.sum = value := by
  induction formula generalizing value with
  | constant => exact ⟨[value], .cons evaluates .nil, by simp⟩
  | input => exact ⟨[value], .cons evaluates .nil, by simp⟩
  | shift => exact ⟨[value], .cons evaluates .nil, by simp⟩
  | binary op left right leftAddends rightAddends =>
    cases op with
    | mul => exact ⟨[value], .cons evaluates .nil, by simp⟩
    | add =>
      obtain ⟨x, y, leftEvaluates, rightEvaluates, same⟩ := evaluates_binary.mp evaluates
      obtain ⟨xs, leftsEvaluate, rfl⟩ := leftAddends leftEvaluates
      obtain ⟨ys, rightsEvaluate, rfl⟩ := rightAddends rightEvaluates
      refine ⟨xs ++ ys, List.rel_append leftsEvaluate rightsEvaluate, ?_⟩
      rw [← same, List.sum_append]
      exact (semiring.add_eq _ _).symm

theorem evaluates_foldl_plus (semiring : domain.OverSemiring) {formulas : List Formula}
    {values : List T} (evaluate : List.Forall₂ (Evaluates domain inputs) formulas values)
    {first : Formula} {x : T} (evaluates : first.Evaluates domain inputs x) :
    (formulas.foldl plus first).Evaluates domain inputs (x + values.sum) := by
  induction evaluate generalizing first x with
  | nil =>
    rw [List.sum_nil, add_zero]
    exact evaluates
  | cons here _ ih =>
    rw [List.sum_cons, ← add_assoc]
    exact ih (evaluates_plus semiring evaluates here)

theorem evaluates_total (semiring : domain.OverSemiring) {formulas : List Formula}
    {values : List T} (evaluate : List.Forall₂ (Evaluates domain inputs) formulas values) :
    (total formulas).Evaluates domain inputs values.sum := by
  cases evaluate with
  | nil => exact congrArg Except.ok semiring.lift_zero
  | cons here rest =>
    rw [List.sum_cons]
    exact evaluates_foldl_plus semiring rest here

theorem evaluates_scaled (semiring : domain.OverSemiring) {factor term : Formula} {x y : T}
    (factorEvaluates : factor.Evaluates domain inputs x)
    (termEvaluates : term.Evaluates domain inputs y) :
    (scaled factor term).Evaluates domain inputs (x * y) := by
  obtain ⟨values, addendsEvaluate, rfl⟩ := addends_of_evaluates semiring termEvaluates
  have products : List.Forall₂ (Evaluates domain inputs)
      ((term.operands .add).map factor.times) (values.map (x * ·)) := by
    rw [List.forall₂_map_left_iff, List.forall₂_map_right_iff]
    exact addendsEvaluate.imp fun _ _ => evaluates_times semiring factorEvaluates
  have result := evaluates_total semiring products
  rw [List.sum_map_mul_left, List.map_id'] at result
  exact result

theorem evaluates_cross_product (semiring : domain.OverSemiring) {left right : Formula} {x y : T}
    (leftEvaluates : left.Evaluates domain inputs x)
    (rightEvaluates : right.Evaluates domain inputs y) :
    (crossProduct left right).Evaluates domain inputs (x * y) := by
  obtain ⟨values, addendsEvaluate, rfl⟩ := addends_of_evaluates semiring leftEvaluates
  have products : List.Forall₂ (Evaluates domain inputs)
      ((left.operands .add).map (scaled · right)) (values.map (· * y)) := by
    rw [List.forall₂_map_left_iff, List.forall₂_map_right_iff]
    exact addendsEvaluate.imp fun _ _ evaluates =>
      evaluates_scaled semiring evaluates rightEvaluates
  have result := evaluates_total semiring products
  rw [List.sum_map_mul_right, List.map_id'] at result
  exact result

end Values

theorem refines_expanded (formula : Formula) : Refines Domain.IsSemiring formula formula.expanded := by
  induction formula with
  | constant value => exact refines_congruence (.constant value)
  | input name => exact refines_congruence (.input name)
  | shift direction operand amount ih => exact refines_congruence (.shift direction amount ih)
  | binary op left right leftRefines rightRefines =>
    cases op with
    | add => exact refines_congruence (.binary .add leftRefines rightRefines)
    | mul =>
      by_cases sums : left.expanded.isSum || right.expanded.isSum
      · rw [expanded, if_pos sums]
        intro T domain semiring inputs value evaluates
        obtain ⟨x, y, leftEvaluates, rightEvaluates, rfl⟩ := evaluates_binary.mp evaluates
        have leftNew := leftRefines T domain semiring inputs x leftEvaluates
        have rightNew := rightRefines T domain semiring inputs y rightEvaluates
        obtain ⟨_, laws⟩ := semiring
        have same : domain.binary .mul x y = x * y := laws.mul_eq x y
        rw [same]
        exact evaluates_cross_product laws leftNew rightNew
      · rw [expanded, if_neg sums]
        exact refines_congruence (.binary .mul leftRefines rightRefines)

end Formula

def Formula.split? (op : BinaryOp) : Formula → Option (Formula × Formula)
  | .binary other left right => if other = op then some (left, right) else none
  | _ => none

def Formula.distributed? (formula : Formula) : Option Formula :=
  match formula.split? .mul with
  | none => none
  | some (left, right) =>
    match left.split? .add with
    | some (x, y) => some ((x.times right).plus (y.times right))
    | none => (right.split? .add).map fun (x, y) => (left.times x).plus (left.times y)

theorem Circuit.split?_denotes {circuit : Circuit} {id : Nat} {formula : Formula}
    (op : BinaryOp) (denotes : circuit.Denotes id formula) :
    ∃ node, circuit.node? id = some node ∧
      Option.Rel (fun pair formulas =>
        circuit.Denotes pair.1 formulas.1 ∧ circuit.Denotes pair.2 formulas.2)
        (node.operands? op) (formula.split? op) := by
  obtain ⟨node, found, spells⟩ := spells_of_denotes denotes
  refine ⟨node, found, ?_⟩
  cases spells with
  | constant | input | shift => exact .none
  | binary other leftDenotes rightDenotes =>
    rw [Node.operands?, Formula.split?]
    by_cases same : other = op
    · rw [if_pos same, if_pos same]
      exact .some ⟨leftDenotes, rightDenotes⟩
    · rw [if_neg same, if_neg same]
      exact .none

namespace Build

theorem mapM_yields {step : Nat → Build Nat} {φ : Formula → Formula} {circuit : Circuit}
    {ids : List Nat} {formulas : List Formula}
    (each : ∀ current id formula, circuit.Extends current → current.Denotes id formula →
      Yields (step id) current fun form grown => current.Gains grown form (φ formula))
    (denote : List.Forall₂ circuit.Denotes ids formulas) :
    Yields (ids.mapM step) circuit fun forms grown =>
      circuit.Extends grown ∧ List.Forall₂ grown.Denotes forms (formulas.map φ) := by
  induction ids generalizing circuit formulas with
  | nil =>
    cases denote
    exact .intro rfl ⟨circuit.extends_refl, .nil⟩
  | cons id ids ih =>
    obtain _ | ⟨denotes, rest⟩ := denote
    rw [List.mapM_cons]
    refine .bind (each circuit id _ circuit.extends_refl denotes) ?_
    intro form next gains
    have later := ih (fun current other formula since =>
      each current other formula (Circuit.extends_trans gains.extended since))
      (Circuit.forall_denotes_of_extends gains.extended rest)
    refine .bind later ?_
    intro forms grown stepped
    obtain ⟨extended, formsDenote⟩ := stepped
    exact .intro rfl ⟨Circuit.extends_trans gains.extended extended,
      .cons (Circuit.denotes_of_extends extended gains.denotes) formsDenote⟩

theorem foldlM_add_yields {circuit : Circuit} {terms : List Nat} {formulas : List Formula}
    (denote : List.Forall₂ circuit.Denotes terms formulas) {first : Nat} {formula : Formula}
    (denotes : circuit.Denotes first formula) :
    Yields (terms.foldlM add first) circuit fun id grown =>
      circuit.Gains grown id (formulas.foldl Formula.plus formula) := by
  induction terms generalizing circuit formulas first formula with
  | nil =>
    cases denote
    exact .intro rfl (.unchanged denotes)
  | cons term terms ih =>
    obtain _ | ⟨here, rest⟩ := denote
    rw [List.foldlM_cons]
    refine .bind (add_yields denotes here) ?_
    intro sum next gains
    have later := ih (Circuit.forall_denotes_of_extends gains.extended rest) gains.denotes
    exact later.mono fun _ _ => .after gains.extended

theorem sum_yields {circuit : Circuit} {terms : List Nat} {formulas : List Formula}
    (denote : List.Forall₂ circuit.Denotes terms formulas) :
    Yields (sum terms) circuit fun id grown => circuit.Gains grown id (.total formulas) := by
  cases denote with
  | nil => exact constant_yields circuit 0
  | cons here rest => exact foldlM_add_yields rest here

theorem scaled_yields {circuit : Circuit} {factor term : Nat} {first second : Formula}
    (factorDenotes : circuit.Denotes factor first) (termDenotes : circuit.Denotes term second) :
    Yields (scaled factor term) circuit fun id grown =>
      circuit.Gains grown id (first.scaled second) := by
  obtain ⟨addends, split, addendsDenote⟩ := Circuit.chain?_denotes .add termDenotes
  refine .after rfl (.after (lift_eq split circuit) ?_)
  have products := mapM_yields (fun current id formula since denotes =>
    mul_yields (Circuit.denotes_of_extends since factorDenotes) denotes) addendsDenote
  refine .bind products ?_
  intro terms next multiplied
  obtain ⟨extended, termsDenote⟩ := multiplied
  exact (sum_yields termsDenote).mono fun _ _ => .after extended

theorem crossProduct_yields {circuit : Circuit} {left right : Nat} {first second : Formula}
    (leftDenotes : circuit.Denotes left first) (rightDenotes : circuit.Denotes right second) :
    Yields (crossProduct left right) circuit fun id grown =>
      circuit.Gains grown id (first.crossProduct second) := by
  obtain ⟨addends, split, addendsDenote⟩ := Circuit.chain?_denotes .add leftDenotes
  refine .after rfl (.after (lift_eq split circuit) ?_)
  have products := mapM_yields (φ := (Formula.scaled · second)) (fun current id formula since denotes =>
    scaled_yields denotes (Circuit.denotes_of_extends since rightDenotes)) addendsDenote
  refine .bind products ?_
  intro terms next multiplied
  obtain ⟨extended, termsDenote⟩ := multiplied
  exact (sum_yields termsDenote).mono fun _ _ => .after extended

theorem addProducts_yields {circuit : Circuit} {a b c d : Nat} {p q r s : Formula}
    (aDenotes : circuit.Denotes a p) (bDenotes : circuit.Denotes b q)
    (cDenotes : circuit.Denotes c r) (dDenotes : circuit.Denotes d s) :
    Yields (do
        let first ← mul a b
        let second ← mul c d
        return some (← add first second)) circuit fun reply grown =>
      ∃ id, reply = some id ∧ circuit.Gains grown id ((p.times q).plus (r.times s)) := by
  refine .bind (mul_yields aDenotes bDenotes) ?_
  intro first next gains
  refine .bind (mul_yields (Circuit.denotes_of_extends gains.extended cDenotes)
    (Circuit.denotes_of_extends gains.extended dDenotes)) ?_
  intro second last further
  have untilNow := Circuit.extends_trans gains.extended further.extended
  refine .bind (add_yields (Circuit.denotes_of_extends further.extended gains.denotes)
    further.denotes) ?_
  intro sum grown added
  exact .intro rfl ⟨sum, rfl, added.after untilNow⟩

theorem distributed?_yields {circuit : Circuit} {root : Nat} {formula : Formula}
    (denotes : circuit.Denotes root formula) :
    Yields (distributed? root) circuit fun reply grown =>
      circuit.Extends grown ∧ Option.Rel grown.Denotes reply formula.distributed? ∧
        (reply = none → grown = circuit) := by
  have unchanged : Yields (pure none : Build (Option Nat)) circuit fun reply grown =>
      circuit.Extends grown ∧ Option.Rel grown.Denotes reply none ∧
        (reply = none → grown = circuit) :=
    .intro rfl ⟨circuit.extends_refl, .none, fun _ => rfl⟩
  obtain ⟨node, found, factors⟩ := Circuit.split?_denotes .mul denotes
  refine .after (node_eq found) ?_
  rw [Formula.distributed?]
  generalize node.operands? .mul = pair, formula.split? .mul = formulas at factors
  cases factors with
  | none => exact unchanged
  | @some pair formulas here =>
    obtain ⟨p, q⟩ := formulas
    obtain ⟨leftDenotes, rightDenotes⟩ := here
    dsimp only at leftDenotes rightDenotes ⊢
    obtain ⟨first, firstFound, addends⟩ := Circuit.split?_denotes .add leftDenotes
    refine .after (node_eq firstFound) ?_
    generalize first.operands? .add = terms, p.split? .add = summands at addends
    cases addends with
    | @some terms summands each =>
      refine (addProducts_yields each.1 rightDenotes each.2 rightDenotes).mono ?_
      rintro _ grown ⟨id, rfl, gains⟩
      exact ⟨gains.extended, .some gains.denotes, fun none => by cases none⟩
    | none =>
      obtain ⟨second, secondFound, addends⟩ := Circuit.split?_denotes .add rightDenotes
      refine .after (node_eq secondFound) ?_
      generalize second.operands? .add = terms, q.split? .add = summands at addends
      cases addends with
      | none => exact unchanged
      | @some terms summands each =>
        refine (addProducts_yields leftDenotes each.1 leftDenotes each.2).mono ?_
        rintro _ grown ⟨id, rfl, gains⟩
        exact ⟨gains.extended, .some gains.denotes, fun none => by cases none⟩

end Build

namespace Distributor

variable {circuit : Circuit} {log : Log}

abbrev Expands (formula form : Formula) : Prop := form = formula.expanded

theorem refines_of_expands (formula form : Formula) (expands : Expands formula form) :
    Formula.Refines Domain.IsSemiring formula form :=
  expands ▸ Formula.refines_expanded formula

theorem isSome_operands?_add {id : Nat} {node : Node} {formula : Formula}
    (found : circuit.node? id = some node) (denotes : circuit.Denotes id formula) :
    (node.operands? .add).isSome = formula.isSum := by
  cases node with
  | constant value =>
    obtain rfl := Option.some.inj ((Circuit.formula?_of_node? found).symm.trans denotes)
    rfl
  | input name =>
    obtain rfl := Option.some.inj ((Circuit.formula?_of_node? found).symm.trans denotes)
    rfl
  | shift direction operand amount =>
    obtain ⟨inner, rfl, _⟩ := Circuit.denotes_shift found denotes
    rfl
  | binary op left right =>
    obtain ⟨first, second, rfl, _, _⟩ := Circuit.denotes_binary found denotes
    cases op with
    | add => rfl
    | mul => rfl

theorem expands_of_layer {formula result : Formula} (layer : Formula.Layer Expands formula result)
    (noSums : ∀ left right, formula = .binary .mul left right →
      ¬(left.expanded.isSum || right.expanded.isSum)) : Expands formula result := by
  cases layer with
  | constant => rfl
  | input => rfl
  | shift direction amount operand =>
    subst operand
    rfl
  | binary op left right =>
    subst left right
    cases op with
    | add => rfl
    | mul =>
      rename_i first second
      exact (if_neg (noSums first second rfl)).symm

theorem relinked_yields {forms : Forms} {id : Nat} {formula : Formula}
    (related : forms.Related Expands circuit) (denotes : circuit.Denotes id formula)
    (known : ∀ child ∈ circuit.children id, child ∈ forms)
    (noSums : ∀ left right, formula = .binary .mul left right →
      ¬(left.expanded.isSum || right.expanded.isSum)) :
    Yields ((liftM (Build.relinked forms id) : StateT Log Build Nat) log) circuit fun reply grown =>
      circuit.Gains grown reply.1 formula.expanded := by
  refine (Yields.memory_lift (Build.relinked_yields related denotes known) log).mono ?_
  intro reply grown relinked
  obtain ⟨_, _, result, gains, layer⟩ := relinked
  exact expands_of_layer layer noSums ▸ gains

theorem rebuild_yields {forms : Forms} {id : Nat} {formula : Formula}
    (related : forms.Related Expands circuit) (denotes : circuit.Denotes id formula)
    (known : ∀ child ∈ circuit.children id, child ∈ forms) :
    Yields (rebuild forms id log) circuit fun reply grown =>
      circuit.Gains grown reply.1 formula.expanded := by
  obtain ⟨node, found, _⟩ := Circuit.denotes_iff.mp denotes
  refine .memory_after (Build.memory_node_eq found log) ?_
  cases split : node.operands? .mul with
  | none =>
    have other : ∀ left right, formula ≠ .binary .mul left right := by
      intro first second same
      subst same
      obtain ⟨left, right, isProduct⟩ := Circuit.node?_of_denotes_binary denotes
      obtain rfl := Option.some.inj (found.symm.trans isProduct)
      cases split
    exact relinked_yields related denotes known fun left right same => absurd same (other left right)
  | some pair =>
    obtain ⟨left, right⟩ := pair
    obtain rfl := Node.operands?_eq_some.mp split
    obtain ⟨first, second, rfl, newLeftForm, newRightForm⟩ :=
      related.forms_of_binary found denotes known
    obtain ⟨newLeft, _, leftFound, newLeftDenotes, rfl⟩ := newLeftForm
    obtain ⟨newRight, _, rightFound, newRightDenotes, rfl⟩ := newRightForm
    obtain ⟨leftNode, leftPresent, _⟩ := Circuit.denotes_iff.mp newLeftDenotes
    obtain ⟨rightNode, rightPresent, _⟩ := Circuit.denotes_iff.mp newRightDenotes
    refine .memory_after (Yields.memory_lookup leftFound log circuit) ?_
    refine .memory_after (Yields.memory_lookup rightFound log circuit) ?_
    refine .memory_after (Build.memory_node_eq leftPresent log) ?_
    refine .memory_after (Build.memory_node_eq rightPresent log) ?_
    rw [isSome_operands?_add leftPresent newLeftDenotes,
      isSome_operands?_add rightPresent newRightDenotes]
    by_cases sums : first.expanded.isSum || second.expanded.isSum
    · rw [if_pos sums, Formula.expanded, if_pos sums]
      refine .memory_after rfl ?_
      exact (Yields.memory_lift (Build.crossProduct_yields newLeftDenotes newRightDenotes) _).mono
        fun _ _ built => built.2
    · rw [if_neg sums]
      refine relinked_yields related denotes known ?_
      intro a b same
      cases same
      exact sums

def Right (circuit : Circuit) (distributor : Distributor) : Prop :=
  distributor.forms.Related Expands circuit

theorem fresh_right (log : Log) (circuit : Circuit) : Right circuit (fresh log) :=
  Forms.empty_related circuit

theorem rebuild_expands : Rewriter.RebuildRelates Expands (fun _ _ => True) rebuild := by
  intro circuit forms log id formula related _ denotes known
  refine (rebuild_yields related denotes known).mono ?_
  intro reply grown gains
  exact ⟨gains.extended, trivial, formula.expanded, gains.denotes, rfl⟩

theorem expand_yields {distributor : Distributor} (right : Right circuit distributor) {root : Nat}
    (inRange : root < circuit.size) :
    Yields (expand root distributor) circuit fun reply grown =>
      circuit.Rewrites Expands grown root reply.1 ∧ Right grown reply.2 := by
  refine .memory_after rfl ?_
  refine .memory_bind (Rewriter.run_related rebuild_expands inRange right trivial) ?_
  intro form last grown finished
  obtain ⟨rewrites, related, _⟩ := finished
  exact .memory_after rfl (.intro rfl ⟨rewrites, related⟩)

theorem session_right {distributor : Distributor}
    (session : Session expand (fresh log) circuit distributor) : Right circuit distributor := by
  refine session.invariant (fresh_right log) (fun _ _ _ => Forms.related_of_extends) ?_
  intro circuit distributor root inRange right
  exact (expand_yields right inRange).mono fun _ _ holds => holds.2

theorem expand_preserves_values (log : Log) {distributor : Distributor}
    (session : Session expand (fresh log) circuit distributor) {root : Nat}
    (inRange : root < circuit.size) :
    ∃ form later grown, expand root distributor circuit = some ((form, later), grown) ∧
      circuit.Extends grown ∧
      ∀ (T : Type) [CommSemiring T] (domain : Domain T), domain.OverSemiring → ∀ inputs value,
        circuit.eval? domain inputs root = some (.ok value) →
          grown.eval? domain inputs form = some (.ok value) := by
  obtain ⟨⟨form, later⟩, grown, gives, rewrites, _⟩ :=
    expand_yields (session_right session) inRange
  refine ⟨form, later, grown, gives, rewrites.extended, ?_⟩
  intro T semiring domain laws inputs value evaluates
  have refined : circuit.Rewrites (Formula.Refines Domain.IsSemiring) grown root form :=
    ⟨rewrites.extended, inRange, rewrites.relates.mono refines_of_expands⟩
  exact refined.preserves ⟨semiring, laws⟩ evaluates

def productOfSums : Circuit where
  nodes := #[.input "a", .input "b", .input "c", .constant 1, .sum 0 1, .sum 2 3, .product 4 5]
  earlier := by decide

theorem expand_product_of_sums :
    ∃ form later grown, expand 6 (fresh .off) productOfSums = some ((form, later), grown) ∧
      grown.eval? .words (List.lookup · [("a", 2), ("b", 3), ("c", 5)]) form = some (.ok 30) := by
  obtain ⟨form, later, grown, gives, _, same⟩ :=
    expand_preserves_values .off (.start productOfSums) (show 6 < productOfSums.size by decide)
  refine ⟨form, later, grown, gives, @same UInt64 UInt64.instCommRing.toCommSemiring .words
    Domain.words_over_semiring _ _ ?_⟩
  rw [Circuit.eval?_of_denotes _ _ (show productOfSums.Denotes 6 _ from rfl)]
  rfl

end Distributor

end ArithCircuit
