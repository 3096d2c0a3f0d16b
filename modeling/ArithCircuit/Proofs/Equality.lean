import ArithCircuit.Equality
import ArithCircuit.Proofs.Denotation

set_option autoImplicit false

namespace ArithCircuit

namespace Formula

def Similar : Formula → Formula → Prop
  | .constant v, .constant w => v = w
  | .input m, .input n => m = n
  | .binary op a b, .binary op' a' b' =>
    op = op' ∧ (Similar a a' ∧ Similar b b' ∨ Similar a b' ∧ Similar b a')
  | .shift direction a amount, .shift direction' a' amount' =>
    (direction = direction' ∧ amount = amount') ∧ Similar a a'
  | _, _ => False

theorem Similar.refl : ∀ formula : Formula, formula.Similar formula
  | .constant _ => rfl
  | .input _ => rfl
  | .binary _ left right => ⟨rfl, .inl ⟨refl left, refl right⟩⟩
  | .shift _ operand _ => ⟨⟨rfl, rfl⟩, refl operand⟩

theorem Similar.symm {first second : Formula} (similar : first.Similar second) :
    second.Similar first := by
  induction first generalizing second with
  | constant v =>
    cases second with
    | constant w => exact Eq.symm similar
    | input | binary | shift => exact similar.elim
  | input m =>
    cases second with
    | input n => exact Eq.symm similar
    | constant | binary | shift => exact similar.elim
  | binary op a b ihA ihB =>
    cases second with
    | binary op' a' b' =>
      obtain ⟨same, ⟨straightA, straightB⟩ | ⟨crossedA, crossedB⟩⟩ := similar
      · exact ⟨same.symm, .inl ⟨ihA straightA, ihB straightB⟩⟩
      · exact ⟨same.symm, .inr ⟨ihB crossedB, ihA crossedA⟩⟩
    | constant | input | shift => exact similar.elim
  | shift direction a amount ih =>
    cases second with
    | shift direction' a' amount' =>
      obtain ⟨⟨sameDirection, sameAmount⟩, inner⟩ := similar
      exact ⟨⟨sameDirection.symm, sameAmount.symm⟩, ih inner⟩
    | constant | input | binary => exact similar.elim

theorem Similar.trans {first second third : Formula} (start : first.Similar second)
    (next : second.Similar third) : first.Similar third := by
  induction first generalizing second third with
  | constant v =>
    cases second with
    | constant w =>
      cases start
      exact next
    | input | binary | shift => exact start.elim
  | input m =>
    cases second with
    | input n =>
      cases start
      exact next
    | constant | binary | shift => exact start.elim
  | binary op a b ihA ihB =>
    cases second with
    | binary op' a' b' =>
      cases third with
      | binary op'' a'' b'' =>
        obtain ⟨rfl, ⟨startA, startB⟩ | ⟨startA, startB⟩⟩ := start
        · obtain ⟨rfl, ⟨nextA, nextB⟩ | ⟨nextA, nextB⟩⟩ := next
          · exact ⟨rfl, .inl ⟨ihA startA nextA, ihB startB nextB⟩⟩
          · exact ⟨rfl, .inr ⟨ihA startA nextA, ihB startB nextB⟩⟩
        · obtain ⟨rfl, ⟨nextA, nextB⟩ | ⟨nextA, nextB⟩⟩ := next
          · exact ⟨rfl, .inr ⟨ihA startA nextB, ihB startB nextA⟩⟩
          · exact ⟨rfl, .inl ⟨ihA startA nextB, ihB startB nextA⟩⟩
      | constant | input | shift => exact next.elim
    | constant | input | shift => exact start.elim
  | shift direction a amount ih =>
    cases second with
    | shift direction' a' amount' =>
      cases third with
      | shift direction'' a'' amount'' =>
        obtain ⟨⟨rfl, rfl⟩, startInner⟩ := start
        obtain ⟨⟨rfl, rfl⟩, nextInner⟩ := next
        exact ⟨⟨rfl, rfl⟩, ih startInner nextInner⟩
      | constant | input | binary => exact next.elim
    | constant | input | binary => exact start.elim

end Formula

namespace EqualityTable

def Right (circuit : Circuit) (table : EqualityTable) : Prop :=
  ∀ left right verdict, table.verdict? left right = some verdict →
    ∃ first second, circuit.Denotes left first ∧ circuit.Denotes right second ∧
      (verdict = true ↔ first.Similar second)

theorem empty_right (circuit : Circuit) : Right circuit .empty := by
  intro left right verdict found
  simp [empty, verdict?] at found

theorem right_of_extends {old new : Circuit} {table : EqualityTable} (extended : old.Extends new)
    (right : Right old table) : Right new table := by
  intro a b verdict found
  obtain ⟨first, second, aDenotes, bDenotes, decided⟩ := right a b verdict found
  exact ⟨first, second, Circuit.denotes_of_extends extended aDenotes,
    Circuit.denotes_of_extends extended bDenotes, decided⟩

theorem key_eq_key {a b c d : Nat} (same : key a b = key c d) : a = c ∧ b = d ∨ a = d ∧ b = c := by
  simp only [key, Prod.mk.injEq] at same
  omega

theorem enter_right {circuit : Circuit} {table : EqualityTable} {a b : Nat}
    {first second : Formula} {verdict : Bool} (right : Right circuit table)
    (aDenotes : circuit.Denotes a first) (bDenotes : circuit.Denotes b second)
    (decided : verdict = true ↔ first.Similar second) :
    Right circuit (table.enter a b verdict) := by
  intro c d other found
  rcases found_in_insert found with ⟨same, rfl⟩ | older
  · rcases key_eq_key same with ⟨rfl, rfl⟩ | ⟨rfl, rfl⟩
    · exact ⟨first, second, aDenotes, bDenotes, decided⟩
    · exact ⟨second, first, bDenotes, aDenotes,
        decided.trans ⟨Formula.Similar.symm, Formula.Similar.symm⟩⟩
  · exact right c d other older

def Tells (circuit : Circuit) (step : StateM EqualityTable Bool) (holds : Prop) : Prop :=
  ∀ table, Right circuit table → ∃ verdict next, step table = (verdict, next) ∧
    (verdict = true ↔ holds) ∧ Right circuit next

theorem tells_pure {circuit : Circuit} {verdict : Bool} {holds : Prop}
    (decided : verdict = true ↔ holds) : Tells circuit (pure verdict) holds :=
  fun table right => ⟨verdict, table, rfl, decided, right⟩

theorem tells_bind {circuit : Circuit} {first : StateM EqualityTable Bool}
    {rest : Bool → StateM EqualityTable Bool} {p q : Prop} (tells : Tells circuit first p)
    (whenTrue : p → Tells circuit (rest true) q) (whenFalse : ¬ p → Tells circuit (rest false) q) :
    Tells circuit (first >>= rest) q := by
  intro table right
  obtain ⟨verdict, next, gives, decided, kept⟩ := tells table right
  have continues : (first >>= rest) table = rest verdict next := by
    change (fun reply : Bool × EqualityTable => rest reply.1 reply.2) (first table) = _
    rw [gives]
  rw [continues]
  cases verdict with
  | true => exact whenTrue (decided.mp rfl) next kept
  | false => exact whenFalse (fun holds => Bool.false_ne_true (decided.mpr holds)) next kept

theorem tells_congr {circuit : Circuit} {step : StateM EqualityTable Bool} {p q : Prop}
    (tells : Tells circuit step p) (same : p ↔ q) : Tells circuit step q := by
  intro table right
  obtain ⟨verdict, next, gives, decided, kept⟩ := tells table right
  exact ⟨verdict, next, gives, decided.trans same, kept⟩

theorem tells_and {circuit : Circuit} {first second : StateM EqualityTable Bool} {p q : Prop}
    (tellsFirst : Tells circuit first p) (tellsSecond : Tells circuit second q) :
    Tells circuit (first <&&> second) (p ∧ q) :=
  tells_bind tellsFirst (fun holds => tells_congr tellsSecond (by simp [holds]))
    fun fails => tells_pure (by simp [fails])

theorem tells_or {circuit : Circuit} {first second : StateM EqualityTable Bool} {p q : Prop}
    (tellsFirst : Tells circuit first p) (tellsSecond : Tells circuit second q) :
    Tells circuit (do if ← first then return true else second) (p ∨ q) :=
  tells_bind tellsFirst (fun holds => tells_pure (by simp [holds]))
    fun fails => tells_congr tellsSecond (by simp [fails])

theorem examine_binary_tells {circuit : Circuit} {same : Nat → Nat → StateM EqualityTable Bool}
    {op op' : BinaryOp} {a b a' b' : Nat} {first second first' second' : Formula}
    (straightA : Tells circuit (same a a') (first.Similar first'))
    (straightB : Tells circuit (same b b') (second.Similar second'))
    (crossedA : Tells circuit (same a b') (first.Similar second'))
    (crossedB : Tells circuit (same b a') (second.Similar first')) :
    Tells circuit (examine same (.binary op a b) (.binary op' a' b'))
      ((Formula.binary op first second).Similar (.binary op' first' second')) := by
  dsimp only [examine]
  by_cases sameOp : op = op'
  · rw [if_pos sameOp]
    have pairings := tells_or (tells_and straightA straightB) (tells_and crossedA crossedB)
    refine tells_congr pairings ?_
    simp [Formula.Similar, sameOp]
  · rw [if_neg sameOp]
    exact tells_pure (by simp [Formula.Similar, sameOp])

theorem examine_shift_tells {circuit : Circuit} {same : Nat → Nat → StateM EqualityTable Bool}
    {direction direction' : Direction} {amount amount' : UInt64} {a a' : Nat}
    {inner inner' : Formula} (operands : Tells circuit (same a a') (inner.Similar inner')) :
    Tells circuit (examine same (.shift direction a amount) (.shift direction' a' amount'))
      ((Formula.shift direction inner amount).Similar (.shift direction' inner' amount')) := by
  dsimp only [examine]
  by_cases sameShift : direction = direction' ∧ amount = amount'
  · rw [if_pos sameShift]
    refine tells_congr operands ?_
    simp [Formula.Similar, sameShift]
  · rw [if_neg sameShift]
    exact tells_pure (by simp [Formula.Similar, sameShift])

theorem examine_tells {circuit : Circuit} {same : Nat → Nat → StateM EqualityTable Bool}
    {left right : Node} {first second : Formula} (leftSpells : circuit.Spells left first)
    (rightSpells : circuit.Spells right second)
    (compares : ∀ c ∈ left.children, ∀ d ∈ right.children, ∀ {third fourth : Formula},
      circuit.Denotes c third → circuit.Denotes d fourth →
      Tells circuit (same c d) (third.Similar fourth)) :
    Tells circuit (examine same left right) (first.Similar second) := by
  cases leftSpells with
  | constant v =>
    cases rightSpells with
    | constant w => exact tells_pure beq_iff_eq
    | input | binary | shift => exact tells_pure (by simp [Formula.Similar])
  | input m =>
    cases rightSpells with
    | input n => exact tells_pure beq_iff_eq
    | constant | binary | shift => exact tells_pure (by simp [Formula.Similar])
  | binary op cDenotes dDenotes =>
    cases rightSpells with
    | binary op' cDenotes' dDenotes' =>
      simp only [Node.children, List.mem_cons, List.not_mem_nil, or_false, forall_eq_or_imp,
        forall_eq] at compares
      obtain ⟨⟨straight, crossed⟩, ⟨crossed', straight'⟩⟩ := compares
      exact examine_binary_tells (straight cDenotes cDenotes') (straight' dDenotes dDenotes')
        (crossed cDenotes dDenotes') (crossed' dDenotes cDenotes')
    | constant | input | shift => exact tells_pure (by simp [Formula.Similar])
  | shift direction amount operandDenotes =>
    cases rightSpells with
    | shift direction' amount' operandDenotes' =>
      exact examine_shift_tells (compares _ List.mem_cons_self _ List.mem_cons_self operandDenotes
        operandDenotes')
    | constant | input | binary => exact tells_pure (by simp [Formula.Similar])

theorem get_bind (rest : EqualityTable → StateM EqualityTable Bool) (table : EqualityTable) :
    (get >>= rest) table = rest table table := rfl

-- The induction is on the bound: the children of two nodes are below the larger of the two.
theorem compareBelow_tells {circuit : Circuit} (bound : Nat) {a b : Nat} {first second : Formula}
    (aBelow : a < bound) (bBelow : b < bound) (aDenotes : circuit.Denotes a first)
    (bDenotes : circuit.Denotes b second) :
    Tells circuit (compareBelow circuit bound a b) (first.Similar second) := by
  induction bound generalizing a b first second with
  | zero => omega
  | succ bound ih =>
    unfold compareBelow
    by_cases same : a = b
    · subst same
      obtain rfl := Option.some.inj (aDenotes.symm.trans bDenotes)
      rw [if_pos rfl]
      exact tells_pure (by simp [Formula.Similar.refl])
    · rw [if_neg same]
      obtain ⟨left, aFound, aSpells⟩ := Circuit.spells_of_denotes aDenotes
      obtain ⟨right', bFound, bSpells⟩ := Circuit.spells_of_denotes bDenotes
      intro table right
      cases known : table.verdict? a b with
      | some verdict =>
        obtain ⟨third, fourth, aAlso, bAlso, decided⟩ := right a b verdict known
        obtain rfl := Option.some.inj (aAlso.symm.trans aDenotes)
        obtain rfl := Option.some.inj (bAlso.symm.trans bDenotes)
        refine ⟨verdict, table, ?_, decided, right⟩
        rw [get_bind, known]
        rfl
      | none =>
        have compares := examine_tells aSpells bSpells
          fun c cMember d dMember third fourth cDenotes dDenotes =>
            ih (by have := Circuit.child_lt_of_node? aFound cMember; omega)
              (by have := Circuit.child_lt_of_node? bFound dMember; omega) cDenotes dDenotes
        obtain ⟨verdict, next, gives, decided, kept⟩ := compares table right
        refine ⟨verdict, next.enter a b verdict, ?_, decided,
          enter_right kept aDenotes bDenotes decided⟩
        rw [get_bind, known, aFound, bFound]
        change (fun reply : Bool × EqualityTable => (reply.1, reply.2.enter a b reply.1))
          (examine (compareBelow circuit bound) left right' table) = _
        rw [gives]

theorem equal_yields {circuit : Circuit} {table : EqualityTable} {a b : Nat}
    {first second : Formula} (right : Right circuit table) (aDenotes : circuit.Denotes a first)
    (bDenotes : circuit.Denotes b second) :
    Yields (equal circuit a b) table fun verdict next =>
      (verdict = true ↔ first.Similar second) ∧ Right circuit next := by
  have inRange : a = b ∨ circuit.contains a ∧ circuit.contains b := by
    right
    simp [Circuit.contains, Circuit.lt_size_of_denotes aDenotes, Circuit.lt_size_of_denotes bDenotes]
  obtain ⟨verdict, next, gives, decided, kept⟩ := compareBelow_tells (max a b + 1)
    (by omega) (by omega) aDenotes bDenotes table right
  refine ⟨verdict, next, ?_, decided, kept⟩
  unfold equal
  rw [if_pos inRange, gives]

end EqualityTable

theorem Circuit.equal?_eq {circuit : Circuit} {a b : Nat} {first second : Formula}
    (aDenotes : circuit.Denotes a first) (bDenotes : circuit.Denotes b second) {holds : Prop}
    [Decidable holds] (same : first.Similar second ↔ holds) :
    circuit.equal? a b = some (decide holds) := by
  obtain ⟨verdict, next, gives, decided, _⟩ :=
    EqualityTable.equal_yields (EqualityTable.empty_right circuit) aDenotes bDenotes
  have verdictEq : verdict = decide holds := by
    rw [Bool.eq_iff_iff, decided, same, decide_eq_true_iff]
  unfold equal? StateT.run'
  rw [gives, verdictEq]
  rfl

end ArithCircuit
