import ArithCircuit.Proofs.Evaluation
import ArithCircuit.Proofs.Reachable
import Mathlib.Data.Nat.Bits
import Mathlib.Tactic.IntervalCases

set_option autoImplicit false

namespace ArithCircuit

variable {T U : Type}

namespace Domain

structure Morphism (source : Domain T) (target : Domain U) (h : T → U) : Prop where
  add : ∀ x y, h (source.add x y) = target.add (h x) (h y)
  mul : ∀ x y, h (source.mul x y) = target.mul (h x) (h y)
  lift : ∀ value, h (source.lift value) = target.lift value

theorem Morphism.binary {source : Domain T} {target : Domain U} {h : T → U}
    (morphism : source.Morphism target h) (op : BinaryOp) (x y : T) :
    h (source.binary op x y) = target.binary op (h x) (h y) := by
  cases op with
  | add => exact morphism.add x y
  | mul => exact morphism.mul x y

def lowBit (word : UInt64) : Bool := word % 2 == 1

theorem lowBit_eq (word : UInt64) : lowBit word = word.toNat.bodd := by
  have parity : lowBit word = decide (word.toNat % 2 = 1) := by
    rw [lowBit, beq_eq_decide, decide_eq_decide, ← UInt64.toNat_inj, UInt64.toNat_mod]
    rfl
  rw [parity, Nat.mod_two_of_bodd]
  cases word.toNat.bodd <;> rfl

-- Two to the 64th is even, so the low bit of a word does not see where sums and products wrap.
theorem bodd_mod_size (n : Nat) : (n % 2 ^ 64).bodd = n.bodd := by
  have whole := congrArg Nat.bodd (Nat.mod_add_div n (2 ^ 64))
  have even : (2 ^ 64).bodd = false := rfl
  rwa [Nat.bodd_add, Nat.bodd_mul, even, Bool.false_and, Bool.xor_false] at whole

theorem lowBit_morphism : words.Morphism bits lowBit where
  add x y := by
    simp only [words, bits, lowBit_eq, UInt64.toNat_add, bodd_mod_size, Nat.bodd_add]
  mul x y := by
    simp only [words, bits, lowBit_eq, UInt64.toNat_mul, bodd_mod_size, Nat.bodd_mul]
  lift _ := rfl

theorem slot_morphism {n : Nat} (slot : Fin n) : (slots n).Morphism bits (·.get slot) where
  add _ _ := Vector.getElem_zipWith slot.isLt
  mul _ _ := Vector.getElem_zipWith slot.isLt
  lift _ := Vector.getElem_replicate slot.isLt

end Domain

section Naturality

variable {circuit : Circuit} {root : Nat} {source : Domain T} {target : Domain U} {h : T → U}

namespace Circuit

def ShiftsCommute (circuit : Circuit) (root : Nat) (source : Domain T) (target : Domain U)
    (h : T → U) : Prop :=
  ∀ id direction operand amount, circuit.Reaches root id →
    circuit.node? id = some (.shift direction operand amount) →
    ∀ x, h (source.shift direction x amount) = target.shift direction (h x) amount

def ShiftFree (circuit : Circuit) (root : Nat) : Prop :=
  ∀ id direction operand amount, circuit.Reaches root id →
    circuit.node? id ≠ some (.shift direction operand amount)

theorem ShiftFree.commute (free : circuit.ShiftFree root) :
    circuit.ShiftsCommute root source target h :=
  fun id direction operand amount reaches found =>
    absurd found (free id direction operand amount reaches)

-- The nodes stay below the root, so that the map commutes with each of their shifts.
theorem eval_map (morphism : source.Morphism target h)
    (shifts : circuit.ShiftsCommute root source target h) (inputs : String → Option T)
    {id : Nat} {formula : Formula} (reaches : circuit.Reaches root id)
    (denotes : circuit.Denotes id formula) :
    formula.eval target (fun name => (inputs name).map h) = (formula.eval source inputs).map h := by
  induction denotes using denotes_induction with
  | constant => exact congrArg Except.ok (morphism.lift _).symm
  | @input _ name =>
    simp only [Formula.eval]
    cases inputs name <;> rfl
  | @binary _ left right op first second _ found _ _ ihFirst ihSecond =>
    have children := children_of_node? found
    have toLeft : circuit.Reaches root left := reaches.child (by simp [children, Node.children])
    have toRight : circuit.Reaches root right := reaches.child (by simp [children, Node.children])
    simp only [Formula.eval, ihFirst toLeft, ihSecond toRight]
    cases second.eval source inputs with
    | error => rfl
    | ok y =>
      cases first.eval source inputs with
      | error => rfl
      | ok x => exact congrArg Except.ok (morphism.binary op x y).symm
  | @shift id operand direction amount inner _ found _ ih =>
    have toOperand : circuit.Reaches root operand :=
      reaches.child (by simp [children_of_node? found, Node.children])
    simp only [Formula.eval, ih toOperand]
    cases inner.eval source inputs with
    | error => rfl
    | ok x => exact congrArg Except.ok (shifts id direction operand amount reaches found x).symm

end Circuit

namespace Evaluator

inductive Used (domain : Domain T) (inputs : String → Option T) (circuit : Circuit) :
    Evaluator T → Prop where
  | fresh : Used domain inputs circuit .empty
  | asked {evaluator next : Evaluator T} {root : Nat} {reply : Except Error T}
      (before : Used domain inputs circuit evaluator) (inRange : root < circuit.size)
      (gives : (eval domain inputs circuit root).run evaluator = some (reply, next)) :
      Used domain inputs circuit next

theorem Used.right {domain : Domain T} {inputs : String → Option T} {evaluator : Evaluator T}
    (used : Used domain inputs circuit evaluator) : Right domain inputs circuit evaluator := by
  induction used with
  | fresh => exact empty_right
  | asked _ inRange gives ih =>
    obtain ⟨formula, denotes⟩ := circuit.formula?_of_lt_size inRange
    obtain ⟨_, _, also, _, nextRight⟩ := eval_yields ih denotes
    cases gives.symm.trans also
    exact nextRight

end Evaluator

namespace Circuit

structure Carries (circuit : Circuit) (root : Nat) (source : Domain T) (target : Domain U)
    (h : T → U) : Prop where
  fresh : ∀ inputs, ∃ reply, circuit.eval? source inputs root = some reply ∧
    circuit.eval? target (fun name => (inputs name).map h) root = some (reply.map h)
  used : ∀ inputs first second, Evaluator.Used source inputs circuit first →
    Evaluator.Used target (fun name => (inputs name).map h) circuit second →
    ∃ reply next later,
      (Evaluator.eval source inputs circuit root).run first = some (reply, next) ∧
      (Evaluator.eval target (fun name => (inputs name).map h) circuit root).run second =
        some (reply.map h, later)

theorem carries_of_commute (inRange : root < circuit.size) (morphism : source.Morphism target h)
    (shifts : circuit.ShiftsCommute root source target h) :
    circuit.Carries root source target h := by
  obtain ⟨formula, denotes⟩ := circuit.formula?_of_lt_size inRange
  have mapped := fun inputs => eval_map morphism shifts inputs (.refl root) denotes
  constructor
  · intro inputs
    refine ⟨_, eval?_of_denotes source inputs denotes, ?_⟩
    rw [eval?_of_denotes target _ denotes, mapped inputs]
  · intro inputs first second firstUsed secondUsed
    obtain ⟨_, next, gives, rfl, _⟩ := Evaluator.eval_yields firstUsed.right denotes
    obtain ⟨_, later, givesMapped, rfl, _⟩ := Evaluator.eval_yields secondUsed.right denotes
    exact ⟨_, next, later, gives, mapped inputs ▸ givesMapped⟩

theorem evaluation_natural (inRange : root < circuit.size) :
    (∀ {T U : Type} (source : Domain T) (target : Domain U) (h : T → U),
      source.Morphism target h → circuit.ShiftsCommute root source target h →
        circuit.Carries root source target h) ∧
    (circuit.ShiftFree root →
      circuit.Carries root .words .bits Domain.lowBit ∧
      ∀ n (slot : Fin n), circuit.Carries root (.slots n) .bits (·.get slot)) := by
  refine ⟨fun source target h morphism => carries_of_commute inRange morphism, fun free => ?_⟩
  exact ⟨carries_of_commute inRange Domain.lowBit_morphism free.commute,
    fun _ slot => carries_of_commute inRange (Domain.slot_morphism slot) free.commute⟩

def shiftedSquare : Circuit where
  nodes := #[.input "x", .input "y", .sum 0 1, .shift .left 2 64, .product 3 3]
  earlier := by decide

theorem shiftedSquare_commutes :
    shiftedSquare.ShiftsCommute 4 .words .bits Domain.lowBit := by
  intro id direction operand amount reaches found x
  have bound := reaches.le
  interval_cases id
  case «3» =>
    cases found
    have whole : (64 : UInt64) % 64 = 0 := by decide
    change Domain.lowBit (x <<< (64 % 64)) = Domain.lowBit x
    rw [whole, UInt64.shiftLeft_zero]
  all_goals cases found

theorem shiftedSquare_shiftFree : shiftedSquare.ShiftFree 2 := by
  intro id direction operand amount reaches found
  have bound := reaches.le
  interval_cases id <;> cases found

theorem evaluation_natural_shiftedSquare :
    4 < shiftedSquare.size ∧ shiftedSquare.ShiftsCommute 4 .words .bits Domain.lowBit ∧
      shiftedSquare.ShiftFree 2 ∧
    (shiftedSquare.eval? .words (List.lookup · [("x", 3), ("y", 4)]) 4 = some (.ok 49) ∧
      shiftedSquare.eval? .bits (fun name =>
        (List.lookup name [("x", 3), ("y", 4)]).map Domain.lowBit) 4 = some (.ok true)) ∧
    shiftedSquare.eval? .bits (fun name => (List.lookup name [("x", 3)]).map Domain.lowBit) 4 =
      some (.error (.missingInput "y")) ∧
    ∀ x y : Vector Bool 2, shiftedSquare.eval? .bits (fun name =>
      (List.lookup name [("x", x), ("y", y)]).map (·.get 1)) 2 =
        some (.ok ((Vector.zipWith xor x y).get 1)) := by
  have inRange : 4 < shiftedSquare.size := by decide
  have denotes : shiftedSquare.Denotes 4 _ := rfl
  have sumDenotes : shiftedSquare.Denotes 2 _ := rfl
  have words := (evaluation_natural inRange).1 _ _ _ Domain.lowBit_morphism shiftedSquare_commutes
  have slots := ((evaluation_natural (show 2 < shiftedSquare.size by decide)).2
    shiftedSquare_shiftFree).2 2 1
  obtain ⟨bound, wordsGive, bitsGive⟩ := words.fresh (List.lookup · [("x", 3), ("y", 4)])
  obtain ⟨unbound, wordsMiss, bitsMiss⟩ := words.fresh (List.lookup · [("x", 3)])
  rw [eval?_of_denotes _ _ denotes] at wordsGive wordsMiss
  cases wordsGive
  cases wordsMiss
  refine ⟨inRange, shiftedSquare_commutes, shiftedSquare_shiftFree,
    ⟨eval?_of_denotes _ _ denotes, bitsGive⟩, bitsMiss, fun x y => ?_⟩
  obtain ⟨reply, slotsGive, bitsGive⟩ := slots.fresh (List.lookup · [("x", x), ("y", y)])
  rw [eval?_of_denotes _ _ sumDenotes] at slotsGive
  cases slotsGive
  exact bitsGive

end Circuit

end Naturality

end ArithCircuit
