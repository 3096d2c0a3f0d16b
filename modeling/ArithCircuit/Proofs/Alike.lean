import ArithCircuit.Proofs.Equality

set_option autoImplicit false

namespace ArithCircuit

namespace Circuit

inductive Alike (circuit : Circuit) : Nat → Nat → Prop where
  | terminals {left right : Nat} {node : Node} (terminal : node.isTerminal = true)
      (leftFound : circuit.node? left = some node) (rightFound : circuit.node? right = some node) :
      Alike circuit left right
  | shifts {left right inner inner' : Nat} {direction : Direction} {amount : UInt64}
      (leftFound : circuit.node? left = some (.shift direction inner amount))
      (rightFound : circuit.node? right = some (.shift direction inner' amount))
      (operands : Alike circuit inner inner') : Alike circuit left right
  | straight {left right a b a' b' : Nat} {op : BinaryOp}
      (leftFound : circuit.node? left = some (.binary op a b))
      (rightFound : circuit.node? right = some (.binary op a' b'))
      (first : Alike circuit a a') (second : Alike circuit b b') : Alike circuit left right
  | crossed {left right a b a' b' : Nat} {op : BinaryOp}
      (leftFound : circuit.node? left = some (.binary op a b))
      (rightFound : circuit.node? right = some (.binary op a' b'))
      (first : Alike circuit a b') (second : Alike circuit b a') : Alike circuit left right

theorem Alike.similar {circuit : Circuit} {left right : Nat} (alike : circuit.Alike left right)
    {first second : Formula} (leftDenotes : circuit.Denotes left first)
    (rightDenotes : circuit.Denotes right second) : first.Similar second := by
  induction alike generalizing first second with
  | terminals terminal leftFound rightFound =>
    have same : circuit.formula? _ = circuit.formula? _ :=
      (formula?_of_node? leftFound).trans (formula?_of_node? rightFound).symm
    obtain rfl := Option.some.inj (leftDenotes.symm.trans (same.trans rightDenotes))
    exact .refl first
  | shifts leftFound rightFound _ ih =>
    obtain ⟨inner, rfl, innerDenotes⟩ := denotes_shift leftFound leftDenotes
    obtain ⟨inner', rfl, innerDenotes'⟩ := denotes_shift rightFound rightDenotes
    exact ⟨⟨rfl, rfl⟩, ih innerDenotes innerDenotes'⟩
  | straight leftFound rightFound _ _ ihFirst ihSecond =>
    obtain ⟨a, b, rfl, aDenotes, bDenotes⟩ := denotes_binary leftFound leftDenotes
    obtain ⟨a', b', rfl, aDenotes', bDenotes'⟩ := denotes_binary rightFound rightDenotes
    exact ⟨rfl, .inl ⟨ihFirst aDenotes aDenotes', ihSecond bDenotes bDenotes'⟩⟩
  | crossed leftFound rightFound _ _ ihFirst ihSecond =>
    obtain ⟨a, b, rfl, aDenotes, bDenotes⟩ := denotes_binary leftFound leftDenotes
    obtain ⟨a', b', rfl, aDenotes', bDenotes'⟩ := denotes_binary rightFound rightDenotes
    exact ⟨rfl, .inr ⟨ihFirst aDenotes bDenotes', ihSecond bDenotes aDenotes'⟩⟩

theorem alike_of_similar {circuit : Circuit} {left right : Nat} {first second : Formula}
    (similar : first.Similar second) (leftDenotes : circuit.Denotes left first)
    (rightDenotes : circuit.Denotes right second) : circuit.Alike left right := by
  induction first generalizing second left right with
  | constant v =>
    obtain ⟨_, leftFound, ⟨⟩⟩ := spells_of_denotes leftDenotes
    obtain ⟨_, rightFound, rightSpells⟩ := spells_of_denotes rightDenotes
    cases rightSpells with
    | constant w =>
      cases similar
      exact .terminals rfl leftFound rightFound
    | input | binary | shift => exact similar.elim
  | input m =>
    obtain ⟨_, leftFound, ⟨⟩⟩ := spells_of_denotes leftDenotes
    obtain ⟨_, rightFound, rightSpells⟩ := spells_of_denotes rightDenotes
    cases rightSpells with
    | input n =>
      cases similar
      exact .terminals rfl leftFound rightFound
    | constant | binary | shift => exact similar.elim
  | binary op first second ihFirst ihSecond =>
    obtain ⟨_, leftFound, _ | _ | ⟨_, aDenotes, bDenotes⟩⟩ := spells_of_denotes leftDenotes
    obtain ⟨_, rightFound, rightSpells⟩ := spells_of_denotes rightDenotes
    cases rightSpells with
    | binary op' aDenotes' bDenotes' =>
      obtain ⟨rfl, ⟨firsts, seconds⟩ | ⟨firsts, seconds⟩⟩ := similar
      · exact .straight leftFound rightFound (ihFirst firsts aDenotes aDenotes')
          (ihSecond seconds bDenotes bDenotes')
      · exact .crossed leftFound rightFound (ihFirst firsts aDenotes bDenotes')
          (ihSecond seconds bDenotes aDenotes')
    | constant | input | shift => exact similar.elim
  | shift direction inner amount ih =>
    obtain ⟨_, leftFound, _ | _ | _ | ⟨_, _, innerDenotes⟩⟩ := spells_of_denotes leftDenotes
    obtain ⟨_, rightFound, rightSpells⟩ := spells_of_denotes rightDenotes
    cases rightSpells with
    | shift direction' amount' innerDenotes' =>
      obtain ⟨⟨rfl, rfl⟩, inners⟩ := similar
      exact .shifts leftFound rightFound (ih inners innerDenotes innerDenotes')
    | constant | input | binary => exact similar.elim

theorem alike_iff_similar {circuit : Circuit} {left right : Nat} {first second : Formula}
    (leftDenotes : circuit.Denotes left first) (rightDenotes : circuit.Denotes right second) :
    circuit.Alike left right ↔ first.Similar second :=
  ⟨fun alike => alike.similar leftDenotes rightDenotes,
    fun similar => alike_of_similar similar leftDenotes rightDenotes⟩

theorem alike_iff_of_extends {old new : Circuit} (extended : old.Extends new) {left right : Nat}
    (leftInRange : left < old.size) (rightInRange : right < old.size) :
    new.Alike left right ↔ old.Alike left right := by
  obtain ⟨first, leftDenotes⟩ := old.formula?_of_lt_size leftInRange
  obtain ⟨second, rightDenotes⟩ := old.formula?_of_lt_size rightInRange
  rw [alike_iff_similar leftDenotes rightDenotes,
    alike_iff_similar (denotes_of_extends extended leftDenotes)
      (denotes_of_extends extended rightDenotes)]

def HasBoth (circuit : Circuit) (pair : Nat × Nat) : Prop :=
  pair.1 < circuit.size ∧ pair.2 < circuit.size

end Circuit

namespace EqualityTable

abbrev Session : Circuit → EqualityTable → Prop :=
  Inquiry (fun circuit pair => equal circuit pair.1 pair.2) Circuit.HasBoth .empty

theorem session_right {circuit : Circuit} {table : EqualityTable} (session : Session circuit table) :
    Right circuit table := by
  refine session.invariant empty_right (fun _ _ _ => right_of_extends) ?_
  rintro circuit table ⟨left, right⟩ ⟨leftInRange, rightInRange⟩ tableRight
  obtain ⟨first, leftDenotes⟩ := circuit.formula?_of_lt_size leftInRange
  obtain ⟨second, rightDenotes⟩ := circuit.formula?_of_lt_size rightInRange
  exact (equal_yields tableRight leftDenotes rightDenotes).mono fun _ _ holds => holds.2

theorem equal_tells {circuit : Circuit} {table : EqualityTable} (session : Session circuit table)
    {left right : Nat} (inRange : circuit.HasBoth (left, right)) :
    Yields (equal circuit left right) table fun verdict _ =>
      verdict = true ↔ circuit.Alike left right := by
  obtain ⟨first, leftDenotes⟩ := circuit.formula?_of_lt_size inRange.1
  obtain ⟨second, rightDenotes⟩ := circuit.formula?_of_lt_size inRange.2
  refine (equal_yields (session_right session) leftDenotes rightDenotes).mono ?_
  intro verdict _ told
  exact told.1.trans (Circuit.alike_iff_similar leftDenotes rightDenotes).symm

theorem equal_exact {circuit : Circuit} {table : EqualityTable} (session : Session circuit table)
    {left right : Nat} (leftInRange : left < circuit.size) (rightInRange : right < circuit.size) :
    ∃ verdict next, equal circuit left right table = some (verdict, next) ∧
      (verdict = true ↔ circuit.Alike left right) ∧
      ∀ larger later, circuit.Extends larger → Session larger later →
        ∃ last, equal larger left right later = some (verdict, last) := by
  obtain ⟨verdict, next, gives, told⟩ := equal_tells session ⟨leftInRange, rightInRange⟩
  refine ⟨verdict, next, gives, told, ?_⟩
  intro larger later extended sessionLater
  have grown := Circuit.size_le_of_extends extended
  obtain ⟨again, last, givesAgain, toldAgain⟩ :=
    equal_tells sessionLater
      ⟨Nat.lt_of_lt_of_le leftInRange grown, Nat.lt_of_lt_of_le rightInRange grown⟩
  have same : again = verdict := by
    rw [Bool.eq_iff_iff, toldAgain, told,
      Circuit.alike_iff_of_extends extended leftInRange rightInRange]
  exact ⟨last, same ▸ givesAgain⟩

def swappedSums : Circuit where
  nodes := #[.input "a", .input "b", .sum 0 1, .sum 1 0]
  earlier := by decide

def swappedProducts : Circuit :=
  (swappedSums.push (.product 2 3) (by decide)).push (.product 3 2) (by decide)

theorem equal_after_growth :
    ∃ known table next, equal swappedSums 2 3 .empty = some (known, table) ∧
      equal swappedProducts 4 5 table = some (true, next) := by
  have extended : swappedSums.Extends swappedProducts :=
    Circuit.extends_trans (Circuit.extends_push _ _ _) (Circuit.extends_push _ _ _)
  have started : Session swappedSums .empty := .start swappedSums
  have suited : swappedSums.HasBoth (2, 3) := ⟨by decide, by decide⟩
  obtain ⟨known, table, gives, _⟩ := equal_exact started suited.1 suited.2
  have grown : Session swappedProducts table := .grow (.ask started suited gives) extended
  obtain ⟨verdict, next, givesLater, told, _⟩ := equal_exact grown
    (show 4 < swappedProducts.size by decide) (show 5 < swappedProducts.size by decide)
  have first : swappedProducts.Alike 0 0 :=
    .terminals (show (Node.input "a").isTerminal = true from rfl) rfl rfl
  have second : swappedProducts.Alike 1 1 :=
    .terminals (show (Node.input "b").isTerminal = true from rfl) rfl rfl
  have products : swappedProducts.Alike 4 5 :=
    .straight rfl rfl (.crossed rfl rfl first second) (.crossed rfl rfl second first)
  refine ⟨known, table, next, gives, ?_⟩
  rw [givesLater, told.mpr products]

end EqualityTable

end ArithCircuit
