import ArithCircuit.Gadget.Weight
import ArithCircuit.Proofs.Logic
import Mathlib.Data.Nat.Bits

set_option autoImplicit false

namespace ArithCircuit

variable {T : Type} {reading : Reading T} {start : Workspace} {index : Nat}

theorem rest_short {α : Type} (elements : List α) : (triples elements).2.length < 3 := by
  fun_induction triples elements with
  | case1 a b c rest groups leftOver split ih => rwa [split] at ih
  | case2 short few =>
    match short with
    | [] | [_] | [_, _] => simp
    | a :: b :: c :: rest => exact absurd rfl (few a b c rest)

namespace Bits

def odd (bits : List Bool) : Bool := (bits.count true).bodd

theorem count_true_cons (bit : Bool) (bits : List Bool) :
    (bit :: bits).count true = bit.toNat + bits.count true := by
  cases bit <;> simp [Nat.add_comm]

theorem odd_cons (bit : Bool) (bits : List Bool) : odd (bit :: bits) = xor bit (odd bits) := by
  rw [odd, count_true_cons, Nat.bodd_add, odd]
  cases bit <;> rfl

theorem odd_map_and (bit : Bool) (bits : List Bool) : odd (bits.map (bit && ·)) = (bit && odd bits) := by
  cases bit with
  | false => simp [odd, List.count_replicate]
  | true => simp

theorem foldl_xor {α : Type} (value : α → Bool) (terms : List α) (soFar : Bool) :
    terms.foldl (fun total term => xor total (value term)) soFar =
      xor soFar (odd (terms.map value)) := by
  induction terms generalizing soFar with
  | nil => simp [odd]
  | cons term rest ih => rw [List.foldl_cons, ih, List.map_cons, odd_cons, Bool.xor_assoc]

def parity : Bool × Bool × Bool → Bool
  | (a, b, c) => xor (xor a b) c

def majority : Bool × Bool × Bool → Bool
  | (a, b, c) => xor (xor (a && b) (a && c)) (b && c)

def parityOfRest (bits : List Bool) : List Bool := if bits.isEmpty then [] else [odd bits]

def carryOfRest : List Bool → List Bool
  | [a, b] => [b && a]
  | _ => []

def suffixProducts : List Bool → List Bool
  | [] => []
  | bit :: later => (bit && odd later) :: suffixProducts later

def parities (bits : List Bool) : List Bool :=
  (triples bits).1.map parity ++ parityOfRest (triples bits).2

def halve (bits : List Bool) : List Bool :=
  (triples bits).1.map majority ++ carryOfRest (triples bits).2 ++ suffixProducts (parities bits)

theorem count_triples (bits : List Bool) :
    bits.count true = ((triples bits).1.map parity).count true +
      2 * ((triples bits).1.map majority).count true + (triples bits).2.count true := by
  fun_induction triples bits with
  | case1 a b c rest groups leftOver split ih =>
    simp only [split] at ih
    simp only [List.map_cons, count_true_cons]
    cases a <;> cases b <;> cases c <;> simp [parity, majority] <;> omega
  | case2 short => simp

theorem count_rest {rest : List Bool} (short : rest.length < 3) :
    rest.count true = (parityOfRest rest).count true + 2 * (carryOfRest rest).count true := by
  match rest with
  | [] => rfl
  | [a] => cases a <;> rfl
  | [a, b] => cases a <;> cases b <;> rfl
  | _ :: _ :: _ :: _ =>
    simp at short
    omega

theorem count_suffixProducts (bits : List Bool) :
    (suffixProducts bits).count true = (bits.count true).div2 := by
  induction bits with
  | nil => rfl
  | cons bit later ih =>
    rw [suffixProducts, count_true_cons, count_true_cons, ih]
    cases bit with
    | false => simp
    | true =>
      rw [Bool.true_and, odd, Bool.toNat_true, Nat.add_comm 1, Nat.div2_succ]
      cases (later.count true).bodd <;> simp [Nat.add_comm]

theorem count_parities (bits : List Bool) :
    bits.count true = (parities bits).count true + 2 * ((triples bits).1.map majority ++
      carryOfRest (triples bits).2).count true := by
  have whole := count_triples bits
  have rest := count_rest (rest_short bits)
  rw [parities, List.count_append, List.count_append]
  omega

theorem odd_parities (bits : List Bool) : odd (parities bits) = odd bits := by
  unfold odd
  rw [count_parities bits, Nat.bodd_add, Nat.bodd_mul, Nat.bodd_two, Bool.false_and, Bool.xor_false]

-- Two set parities stand for a carry as well, however they are paired up.
theorem count_halve (bits : List Bool) : (halve bits).count true = (bits.count true).div2 := by
  have whole := count_parities bits
  rw [halve, List.count_append, count_suffixProducts, Nat.div2_val, Nat.div2_val]
  omega

end Bits

namespace Workspace

abbrev ReadsTriple (workspace : Workspace) (reading : Reading T) (index : Nat)
    (triple : Wire × Wire × Wire) (bits : Bool × Bool × Bool) : Prop :=
  workspace.Reads reading index triple.1 bits.1 ∧ workspace.ReadsPair reading index triple.2 bits.2

theorem readsTriple_lasting (triple : Wire × Wire × Wire) (bits : Bool × Bool × Bool) :
    Lasting (ReadsTriple · reading index triple bits) :=
  fun _ _ extended reads =>
    ⟨reads.1.of_extends extended, readsPair_lasting _ _ extended reads.2⟩

theorem reads_triples {wires : List Wire} {bits : List Bool}
    (reads : start.ReadsAll reading index wires bits) :
    List.Forall₂ (start.ReadsTriple reading index) (triples wires).1 (triples bits).1 ∧
      start.ReadsAll reading index (triples wires).2 (triples bits).2 := by
  fun_induction triples wires generalizing bits with
  | case1 x y z rest groups leftOver split ih =>
    obtain _ | ⟨first, _ | ⟨second, _ | ⟨third, others⟩⟩⟩ := reads
    simp only [split] at ih
    exact ⟨.cons ⟨first, second, third⟩ (ih others).1, (ih others).2⟩
  | case2 short few =>
    cases reads with
    | nil => exact ⟨.nil, .nil⟩
    | cons first rest =>
      cases rest with
      | nil => exact ⟨.nil, .cons first .nil⟩
      | cons second rest =>
        cases rest with
        | nil => exact ⟨.nil, .cons first (.cons second .nil)⟩
        | cons third rest => exact absurd rfl (few _ _ _ _)

end Workspace

namespace Wiring

theorem accumulate_builds {terms : List Wire} {bits : List Bool} {term : Wire → Wiring Wire}
    {value : Bool → Bool} {zero : Wire} {soFar : Bool}
    (each : ∀ x bit now, start.Extends now → now.Reads reading index x bit →
      Builds (term x) now fun out next => next.Reads reading index out (value bit))
    (termsRead : start.ReadsAll reading index terms bits)
    (zeroReads : start.Reads reading index zero soFar) :
    Builds (accumulate zero terms term) start fun out next =>
      next.Reads reading index out (xor soFar (Bits.odd (bits.map value))) := by
  rw [← Bits.foldl_xor]
  exact Builds.foldlM Workspace.reads_lasting
    (fun total soFar x bit now ahead totalReads readsBit =>
      (each x bit now ahead readsBit).bind fun added next extended readsAdded =>
        add_builds (totalReads.of_extends extended) readsAdded)
    termsRead zeroReads

section Halving

variable {wires : List Wire} {bits : List Bool} {triple : Wire × Wire × Wire}
  {tripleBits : Bool × Bool × Bool}

theorem total_builds (holds : start.Holds index) (reads : start.ReadsAll reading index wires bits) :
    Builds (total (constant index 0) wires) start fun out next =>
      next.Reads reading index out (Bits.odd bits) := by
  unfold total
  apply (zero_builds reading holds).bind
  intro zero next extended zeroReads
  have built := accumulate_builds (fun x bit now _ readsBit => .pure readsBit)
    (reads.of_extends extended) zeroReads
  simpa using built

theorem parity_builds (reads : start.ReadsTriple reading index triple tripleBits) :
    Builds (parity triple) start fun out next =>
      next.Reads reading index out (Bits.parity tripleBits) := by
  obtain ⟨first, second, third⟩ := reads
  apply (add_builds first second).bind
  intro both next extended bothRead
  exact add_builds bothRead (third.of_extends extended)

theorem majority_builds (reads : start.ReadsTriple reading index triple tripleBits) :
    Builds (majority triple) start fun out next =>
      next.Reads reading index out (Bits.majority tripleBits) := by
  obtain ⟨first, second, third⟩ := reads
  apply (mul_builds first second).bind
  intro xy s₁ grown₁ readsXY
  apply (mul_builds (first.of_extends grown₁) (third.of_extends grown₁)).bind
  intro xz s₂ grown₂ readsXZ
  apply (add_builds (readsXY.of_extends grown₂) readsXZ).bind
  intro both s₃ grown₃ readsBoth
  have untilNow := (grown₁.trans grown₂).trans grown₃
  apply (mul_builds (second.of_extends untilNow) (third.of_extends untilNow)).bind
  intro yz s₄ grown₄ readsYZ
  exact add_builds (readsBoth.of_extends grown₄) readsYZ

theorem parityOfRest_builds (holds : start.Holds index)
    (reads : start.ReadsAll reading index wires bits) :
    Builds (parityOfRest (constant index 0) wires) start fun outs next =>
      next.ReadsAll reading index outs (Bits.parityOfRest bits) := by
  cases reads with
  | nil => exact .pure .nil
  | cons here there =>
    exact (total_builds holds (.cons here there)).bind fun out next _ readsOdd =>
      .pure (.cons readsOdd .nil)

theorem carryOfRest_builds (short : wires.length < 3)
    (reads : start.ReadsAll reading index wires bits) :
    Builds (carryOfRest wires) start fun outs next =>
      next.ReadsAll reading index outs (Bits.carryOfRest bits) := by
  cases reads with
  | nil => exact .pure .nil
  | cons first rest =>
    cases rest with
    | nil => exact .pure .nil
    | cons second rest =>
      cases rest with
      | nil => exact (mul_builds second first).bind fun out next _ readsBoth =>
          .pure (.cons readsBoth .nil)
      | cons third rest =>
        simp only [List.length_cons] at short
        omega

theorem suffixProducts_builds (holds : start.Holds index)
    (reads : start.ReadsAll reading index wires bits) :
    Builds (suffixProducts (constant index 0) wires) start fun outs next =>
      next.ReadsAll reading index outs (Bits.suffixProducts bits) := by
  induction wires generalizing start bits with
  | nil =>
    cases reads
    exact .pure .nil
  | cons x later ih =>
    obtain _ | @⟨_, bit, _, laterBits, here, there⟩ := reads
    have there : start.ReadsAll reading index later laterBits := there
    unfold suffixProducts
    apply (zero_builds reading holds).bind
    intro zero s₁ grown₁ zeroReads
    have built := accumulate_builds
      (fun y other now ahead readsOther =>
        mul_builds ((here.of_extends grown₁).of_extends ahead) readsOther)
      (there.of_extends grown₁) zeroReads
    rw [Bool.false_xor, Bits.odd_map_and] at built
    apply built.bind
    intro carry s₂ grown₂ readsCarry
    have untilNow := grown₁.trans grown₂
    apply (ih (holds.of_extends untilNow) (there.of_extends untilNow)).bind
    intro carries s₃ grown₃ readsCarries
    exact .pure (.cons (readsCarry.of_extends grown₃) readsCarries)

theorem halve_builds (holds : start.Holds index) (reads : start.ReadsAll reading index wires bits) :
    Builds (halve (constant index 0) wires) start fun out next =>
      next.Reads reading index out.1 (Bits.odd bits) ∧
        next.ReadsAll reading index out.2 (Bits.halve bits) := by
  obtain ⟨groups, rest⟩ := Workspace.reads_triples reads
  unfold halve
  apply (Builds.mapM Workspace.readsTriple_lasting Workspace.reads_lasting
    (fun triple tripleBits now _ => parity_builds) groups).bind
  intro groupParities s₁ grown₁ readsGroups
  apply (parityOfRest_builds (holds.of_extends grown₁) (rest.of_extends grown₁)).bind
  intro restParity s₂ grown₂ readsRest
  have until₂ := grown₁.trans grown₂
  have readsParities : s₂.ReadsAll reading index (groupParities ++ restParity) (Bits.parities bits) :=
    List.rel_append (Workspace.ReadsAll.of_extends grown₂ readsGroups) readsRest
  apply (total_builds (holds.of_extends until₂) readsParities).bind
  intro bit s₃ grown₃ readsBit
  have until₃ := until₂.trans grown₃
  apply (Builds.mapM Workspace.readsTriple_lasting Workspace.reads_lasting
    (fun triple tripleBits now _ => majority_builds)
    (forall₂_of_extends Workspace.readsTriple_lasting until₃ groups)).bind
  intro majorities s₄ grown₄ readsMajorities
  have until₄ := until₃.trans grown₄
  apply (carryOfRest_builds (rest_short wires) (rest.of_extends until₄)).bind
  intro restCarry s₅ grown₅ readsCarry
  have until₅ := until₄.trans grown₅
  have sinceBit := grown₄.trans grown₅
  have sinceParities := grown₃.trans sinceBit
  apply (suffixProducts_builds (holds.of_extends until₅)
    (readsParities.of_extends sinceParities)).bind
  intro suffixes s₆ grown₆ readsSuffixes
  rw [Bits.odd_parities] at readsBit
  refine .pure ⟨readsBit.of_extends (sinceBit.trans grown₆),
    List.rel_append (List.rel_append ?_ (readsCarry.of_extends grown₆)) readsSuffixes⟩
  exact Workspace.ReadsAll.of_extends (grown₅.trans grown₆) readsMajorities

theorem weightBits_builds (holds : start.Holds index)
    (reads : start.ReadsAll reading index wires bits) (rounds : Nat) :
    Builds (weightBits (constant index 0) rounds wires) start fun outs next =>
      ∃ results, next.ReadsAll reading index outs results ∧ results.length = rounds ∧
        Bits.number results = bits.count true % 2 ^ rounds := by
  induction rounds generalizing start wires bits with
  | zero => exact .pure ⟨[], .nil, rfl, (Nat.mod_one _).symm⟩
  | succ rounds ih =>
    unfold weightBits
    apply (halve_builds holds reads).bind
    intro out next extended halved
    apply (ih (holds.of_extends extended) halved.2).bind
    intro outs last further counted
    obtain ⟨results, readsResults, length, number⟩ := counted
    refine .pure ⟨_ :: results, .cons (halved.1.of_extends further) readsResults, by simp [length], ?_⟩
    rw [Bits.number_cons, number, Bits.count_halve, Bits.odd, pow_succ', Nat.mod_mul,
      Nat.mod_two_of_bodd, Nat.div2_val]

end Halving

end Wiring

namespace Gadget

theorem log2Floor_ok {n : Nat} (positive : n ≠ 0) :
    (liftM (log2Floor n) : Gadget Nat) = pure (Nat.log2 n) := by
  rw [log2Floor, if_neg positive]
  rfl

theorem weight_builds {wires : List Wire} {bits : List Bool}
    (reads : start.ReadsAll reading index wires bits) (filled : wires ≠ []) :
    Builds (weight wires) start fun outs next =>
      ∃ results, next.ReadsAll reading index outs results ∧
        results.length = Nat.log2 wires.length + 1 ∧ Bits.number results = bits.count true := by
  have enough : bits.count true < 2 ^ (Nat.log2 wires.length + 1) := by
    calc bits.count true ≤ bits.length := List.count_le_length
      _ = wires.length := reads.length_eq.symm
      _ < 2 ^ (Nat.log2 wires.length + 1) := Nat.lt_log2_self
  cases reads with
  | nil => exact absurd rfl filled
  | @cons first bit rest others here there =>
    unfold weight
    dsimp only
    rw [log2Floor_ok (by simp), pure_bind]
    obtain rfl := here.1
    refine (Wiring.weightBits_builds here.holds (.cons here there) _).of_wiring.mono ?_
    rintro outs next _ ⟨results, readsResults, length, number⟩
    exact ⟨results, readsResults, length, number.trans (Nat.mod_eq_of_lt enough)⟩

theorem weight_counts {workspace : Workspace} {index : Nat} {wires : List Wire} (filled : wires ≠ [])
    (own : ∀ wire ∈ wires, workspace.Owns index wire) :
    ∃ outputs later, (weight wires).run workspace = .ok (.ok outputs, later) ∧
      workspace.Extends later ∧ (∀ output ∈ outputs, later.Owns index output) ∧
      outputs.length = Nat.log2 wires.length + 1 ∧
      ∀ inputs bits, workspace.EvaluateTo inputs wires bits →
        ∃ results, later.EvaluateTo inputs outputs results ∧
          Bits.number results = bits.count true := by
  let Asked := {asked : (String → Option Bool) × List Bool //
    workspace.ReadsAll (.ofBits asked.1) index wires asked.2}
  obtain ⟨someBits, someRead⟩ := Workspace.exists_readsAll own
  have : Nonempty Asked := ⟨⟨(_, someBits), someRead⟩⟩
  obtain ⟨outputs, later, runs, extended, counts⟩ :=
    Builds.answers fun asked : Asked => weight_builds asked.property filled
  obtain ⟨results, readsResults, length, _⟩ := counts ⟨(_, someBits), someRead⟩
  refine ⟨outputs, later, runs, extended, readsResults.own, readsResults.length_eq.trans length, ?_⟩
  intro inputs bits evaluate
  obtain ⟨results, readsResults, _, number⟩ := counts ⟨(inputs, bits), evaluate.reads own⟩
  exact ⟨results, readsResults.evaluate, number⟩

def twoInputs : Workspace :=
  ⟨#[{ nodes := #[.input "a", .input "b", .product 0 1], earlier := by decide }]⟩

theorem twoInputs_owns {wire : Wire} (own : wire.circuit = 0) (inRange : wire.node < 3) :
    twoInputs.Owns 0 wire :=
  ⟨own, _, rfl, inRange⟩

theorem twoInputs_eval? {T : Type} {domain : Domain T} {inputs : String → Option T} {node : Nat}
    {formula : Formula} {value : T} (denotes : twoInputs.circuits[0].Denotes node formula)
    (evaluates : formula.Evaluates domain inputs value) :
    twoInputs.eval? domain inputs ⟨0, node⟩ = some (.ok value) :=
  (Circuit.eval?_of_denotes _ _ denotes).trans (congrArg some evaluates)

theorem twoInputs_evaluates {wire : Wire} {formula : Formula} {bit : Bool} (a b : Bool)
    (own : wire.circuit = 0) (denotes : twoInputs.circuits[0].Denotes wire.node formula)
    (evaluates : formula.Evaluates .bits (List.lookup · [("a", a), ("b", b)]) bit) :
    twoInputs.eval? .bits (List.lookup · [("a", a), ("b", b)]) wire = some (.ok bit) := by
  obtain ⟨_, node⟩ := wire
  obtain rfl := own
  exact twoInputs_eval? denotes evaluates

theorem weight_of_repeated_wire :
    ∃ outputs later results,
      (weight [⟨0, 0⟩, ⟨0, 1⟩, ⟨0, 2⟩, ⟨0, 0⟩]).run twoInputs = .ok (.ok outputs, later) ∧
      outputs.length = 3 ∧
      later.EvaluateTo (List.lookup · [("a", true), ("b", true)]) outputs results ∧
      Bits.number results = 4 := by
  have small : ∀ wire ∈ ([⟨0, 0⟩, ⟨0, 1⟩, ⟨0, 2⟩, ⟨0, 0⟩] : List Wire),
      wire.circuit = 0 ∧ wire.node < 3 := by decide
  have first := twoInputs_evaluates true true (show (⟨0, 0⟩ : Wire).circuit = 0 from rfl) rfl rfl
  have second := twoInputs_evaluates true true (show (⟨0, 1⟩ : Wire).circuit = 0 from rfl) rfl rfl
  have both := twoInputs_evaluates true true (show (⟨0, 2⟩ : Wire).circuit = 0 from rfl) rfl rfl
  obtain ⟨outputs, later, runs, _, _, length, counts⟩ := weight_counts (List.cons_ne_nil _ _)
    fun wire member => twoInputs_owns (small wire member).1 (small wire member).2
  obtain ⟨results, evaluate, number⟩ :=
    counts _ _ (.cons first (.cons second (.cons both (.cons first .nil))))
  exact ⟨outputs, later, results, runs, length, evaluate, number⟩

end Gadget

end ArithCircuit
