import ArithCircuit.Proofs.Alike
import ArithCircuit.Proofs.Depth
import ArithCircuit.Proofs.Needs

set_option autoImplicit false

namespace ArithCircuit

namespace Formula

theorem Similar.depth_eq {first second : Formula} (similar : first.Similar second) :
    first.depth = second.depth := by
  induction first generalizing second with
  | constant v =>
    cases second with
    | constant w => rfl
    | input | binary | shift => exact similar.elim
  | input m =>
    cases second with
    | input n => rfl
    | constant | binary | shift => exact similar.elim
  | binary op a b ihA ihB =>
    cases second with
    | binary op' a' b' =>
      cases similar.1
      have sameMax : max a.depth b.depth = max a'.depth b'.depth := by
        cases similar.2 with
        | inl straight => rw [ihA straight.1, ihB straight.2]
        | inr crossed => rw [ihA crossed.1, ihB crossed.2, Nat.max_comm]
      cases op with
      | add => exact sameMax
      | mul => exact congrArg (· + 1) sameMax
    | constant | input | shift => exact similar.elim
  | shift direction a amount ih =>
    cases second with
    | shift direction' a' amount' =>
      have inner : a.depth = a'.depth := ih similar.2
      exact inner
    | constant | input | binary => exact similar.elim

end Formula

namespace Circuit

variable {circuit : Circuit} {left right third : Nat}

theorem Alike.nodes (alike : circuit.Alike left right) :
    ∃ node other, circuit.node? left = some node ∧ circuit.node? right = some other ∧
      node.kind? = other.kind? ∧
      ∀ child ∈ node.children, ∃ below ∈ other.children, circuit.Alike child below := by
  cases alike with
  | @terminals _ _ node terminal leftFound rightFound =>
    refine ⟨node, node, leftFound, rightFound, rfl, ?_⟩
    intro child member
    cases node with
    | constant | input => cases member
    | binary | shift => cases terminal
  | shifts leftFound rightFound operands =>
    refine ⟨_, _, leftFound, rightFound, rfl, ?_⟩
    intro child member
    cases List.mem_singleton.mp member
    exact ⟨_, List.mem_singleton_self _, operands⟩
  | straight leftFound rightFound first second =>
    refine ⟨_, _, leftFound, rightFound, rfl, ?_⟩
    intro child member
    rcases List.mem_pair.mp member with rfl | rfl
    · exact ⟨_, List.mem_pair.mpr (.inl rfl), first⟩
    · exact ⟨_, List.mem_pair.mpr (.inr rfl), second⟩
  | crossed leftFound rightFound first second =>
    refine ⟨_, _, leftFound, rightFound, rfl, ?_⟩
    intro child member
    rcases List.mem_pair.mp member with rfl | rfl
    · exact ⟨_, List.mem_pair.mpr (.inr rfl), first⟩
    · exact ⟨_, List.mem_pair.mpr (.inl rfl), second⟩

theorem Alike.inRange (alike : circuit.Alike left right) :
    left < circuit.size ∧ right < circuit.size := by
  obtain ⟨node, other, leftFound, rightFound, _⟩ := alike.nodes
  exact ⟨lt_size_of_node? leftFound, lt_size_of_node? rightFound⟩

theorem alike_iff_relates : circuit.Alike left right ↔ circuit.Relates Formula.Similar left right := by
  constructor
  · intro alike
    obtain ⟨first, leftDenotes⟩ := circuit.formula?_of_lt_size alike.inRange.1
    obtain ⟨second, rightDenotes⟩ := circuit.formula?_of_lt_size alike.inRange.2
    exact ⟨first, second, leftDenotes, rightDenotes, alike.similar leftDenotes rightDenotes⟩
  · intro relates
    obtain ⟨first, second, leftDenotes, rightDenotes, similar⟩ := relates
    exact alike_of_similar similar leftDenotes rightDenotes

theorem Alike.refl (inRange : left < circuit.size) : circuit.Alike left left := by
  obtain ⟨formula, denotes⟩ := circuit.formula?_of_lt_size inRange
  exact alike_of_similar (.refl formula) denotes denotes

theorem Alike.symm (alike : circuit.Alike left right) : circuit.Alike right left := by
  obtain ⟨first, second, leftDenotes, rightDenotes, similar⟩ := alike_iff_relates.mp alike
  exact alike_of_similar similar.symm rightDenotes leftDenotes

theorem Alike.trans (start : circuit.Alike left right) (next : circuit.Alike right third) :
    circuit.Alike left third := by
  rw [alike_iff_relates] at start next ⊢
  exact start.trans (fun first second last => @Formula.Similar.trans first second last) next

theorem Alike.child {child : Nat} (alike : circuit.Alike left right)
    (member : child ∈ circuit.children left) :
    ∃ other ∈ circuit.children right, circuit.Alike child other := by
  obtain ⟨node, other, leftFound, rightFound, _, matched⟩ := alike.nodes
  rw [children_of_node? leftFound] at member
  rw [children_of_node? rightFound]
  exact matched child member

theorem Alike.reaches {id : Nat} (alike : circuit.Alike left right)
    (reaches : circuit.Reaches left id) :
    ∃ other, circuit.Reaches right other ∧ circuit.Alike id other := by
  induction reaches generalizing right with
  | refl => exact ⟨right, .refl right, alike⟩
  | step member _ ih =>
    obtain ⟨below, belowMember, childAlike⟩ := alike.child member
    obtain ⟨other, reachesOther, otherAlike⟩ := ih childAlike
    exact ⟨other, .step belowMember reachesOther, otherAlike⟩

theorem equal?_tells (leftInRange : left < circuit.size) (rightInRange : right < circuit.size) :
    ∃ verdict, circuit.equal? left right = some verdict ∧
      (verdict = true ↔ circuit.Alike left right) := by
  obtain ⟨verdict, next, gives, told⟩ :=
    EqualityTable.equal_tells (.start circuit) ⟨leftInRange, rightInRange⟩
  refine ⟨verdict, ?_, told⟩
  rw [equal?, StateT.run', gives]
  rfl

theorem equal?_iff_alike (leftInRange : left < circuit.size) (rightInRange : right < circuit.size) :
    circuit.equal? left right = some true ↔ circuit.Alike left right := by
  obtain ⟨verdict, gives, told⟩ := equal?_tells leftInRange rightInRange
  rw [gives, Option.some.injEq, told]

structure Interchangeable (circuit : Circuit) (left right : Nat) : Prop where
  depth : ∃ depth, circuit.depth? left = some depth ∧ circuit.depth? right = some depth
  inputs : ∀ name, circuit.Needs left name ↔ circuit.Needs right name
  values : ∀ (T : Type) (domain : Domain T),
    (∀ op x y, domain.binary op x y = domain.binary op y x) → ∀ inputs value,
      circuit.eval? domain inputs left = some (.ok value) ↔
        circuit.eval? domain inputs right = some (.ok value)

theorem Alike.interchangeable (alike : circuit.Alike left right) :
    circuit.Interchangeable left right := by
  obtain ⟨first, second, leftDenotes, rightDenotes, similar⟩ := alike_iff_relates.mp alike
  refine ⟨⟨first.depth, ?_, ?_⟩, fun name => ?_, fun T domain comm inputs value => ?_⟩
  · exact HasDepth.depth?_eq ⟨first, leftDenotes, rfl⟩
  · exact HasDepth.depth?_eq ⟨second, rightDenotes, similar.depth_eq.symm⟩
  · rw [needs_iff leftDenotes, needs_iff rightDenotes, similar.needs_iff]
  · rw [eval?_of_denotes domain inputs leftDenotes, eval?_of_denotes domain inputs rightDenotes,
      Option.some.injEq, Option.some.injEq]
    exact ⟨similar.evaluates comm, similar.symm.evaluates comm⟩

-- Only commutativity is asked of the domain: structural equality does not look through associativity.
theorem structural_equality_equivalence (circuit : Circuit) :
    (∀ left right : Fin circuit.size, ∃ verdict, circuit.equal? left right = some verdict ∧
      (verdict = true ↔ circuit.Alike left right)) ∧
    Equivalence (fun left right : Fin circuit.size => circuit.equal? left right = some true) ∧
    ∀ left right : Fin circuit.size, circuit.equal? left right = some true →
      circuit.Interchangeable left right := by
  have decides : ∀ left right : Fin circuit.size,
      circuit.equal? left right = some true ↔ circuit.Alike left right :=
    fun left right => equal?_iff_alike left.isLt right.isLt
  refine ⟨fun left right => equal?_tells left.isLt right.isLt, ?_, ?_⟩
  · simp only [decides]
    exact ⟨fun node => .refl node.isLt, .symm, .trans⟩
  · intro left right equal
    exact ((decides left right).mp equal).interchangeable

def distances : Domain Nat where
  add x y := (x - y) + (y - x)
  mul x y := x * y + 1
  shiftLeft x _ := x
  shiftRight x _ := x
  lift value := value.toNat

theorem swappedProducts_equal_values :
    EqualityTable.swappedProducts.equal? 4 5 = some true ∧
      EqualityTable.swappedProducts.eval? distances (List.lookup · [("a", 7), ("b", 3)]) 5 =
        some (.ok 17) := by
  have first : EqualityTable.swappedProducts.Alike 0 0 := .refl (by decide)
  have second : EqualityTable.swappedProducts.Alike 1 1 := .refl (by decide)
  have products : EqualityTable.swappedProducts.Alike 4 5 :=
    .straight rfl rfl (.crossed rfl rfl first second) (.crossed rfl rfl second first)
  have equal : EqualityTable.swappedProducts.equal? 4 5 = some true :=
    (equal?_iff_alike (by decide) (by decide)).mpr products
  have comm : ∀ op x y, distances.binary op x y = distances.binary op y x := by
    intro op x y
    cases op with
    | add => exact Nat.add_comm (x - y) (y - x)
    | mul => exact congrArg (· + 1) (Nat.mul_comm x y)
  have same := (structural_equality_equivalence EqualityTable.swappedProducts).2.2
    ⟨4, by decide⟩ ⟨5, by decide⟩ equal
  refine ⟨equal, (same.values Nat distances comm _ 17).mp ?_⟩
  exact eval?_of_denotes distances _ (show EqualityTable.swappedProducts.Denotes 4 _ from rfl)

end Circuit

end ArithCircuit
