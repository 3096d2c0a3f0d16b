import ArithCircuit.Gadget.Logic
import ArithCircuit.Proofs.Bits
import ArithCircuit.Proofs.Building

set_option autoImplicit false

namespace ArithCircuit

variable {T : Type} {reading : Reading T} {start : Workspace} {index : Nat}

namespace Workspace

abbrev ReadsPair (workspace : Workspace) (reading : Reading T) (index : Nat) (pair : Wire × Wire)
    (bits : Bool × Bool) : Prop :=
  workspace.Reads reading index pair.1 bits.1 ∧ workspace.Reads reading index pair.2 bits.2

abbrev ReadsNumber (workspace : Workspace) (reading : Reading T) (index width : Nat)
    (wires : List Wire) (bits : List Bool) : Prop :=
  workspace.ReadsAll reading index wires bits ∧ bits.length = width

def ReadsValue (workspace : Workspace) (reading : Reading T) (index width : Nat) (wires : List Wire)
    (value : Nat) : Prop :=
  ∃ bits, workspace.ReadsNumber reading index width wires bits ∧ Bits.number bits = value

theorem readsPair_lasting (pair : Wire × Wire) (bits : Bool × Bool) :
    Lasting (ReadsPair · reading index pair bits) :=
  fun _ _ extended reads => ⟨reads.1.of_extends extended, reads.2.of_extends extended⟩

theorem reads_lasting (wire : Wire) (bit : Bool) : Lasting (Reads · reading index wire bit) :=
  fun _ _ extended reads => Reads.of_extends extended reads

theorem readsAll_lasting (wires : List Wire) (bits : List Bool) :
    Lasting (ReadsAll · reading index wires bits) :=
  fun _ _ extended reads => ReadsAll.of_extends extended reads

theorem readsNumber_lasting {width : Nat} (wires : List Wire) (bits : List Bool) :
    Lasting (ReadsNumber · reading index width wires bits) :=
  fun _ _ extended reads => ⟨reads.1.of_extends extended, reads.2⟩

theorem readsValue_lasting {width : Nat} (wires : List Wire) (value : Nat) :
    Lasting (ReadsValue · reading index width wires value) := by
  rintro old new extended ⟨bits, reads, number⟩
  exact ⟨bits, readsNumber_lasting _ _ extended reads, number⟩

end Workspace

namespace Wiring

variable {x y : Wire} {a b : Bool}

theorem not_builds (reads : start.Reads reading index x a) :
    Builds (Wiring.not x) start fun out next => next.Reads reading index out (!a) := by
  unfold Wiring.not
  obtain rfl := reads.1
  apply (one_builds reading reads.holds).bind
  intro one next extended readsOne
  simpa using add_builds (reads.of_extends extended) readsOne

theorem equalBit_builds (first : start.Reads reading index x a)
    (second : start.Reads reading index y b) :
    Builds (equalBit x y) start fun out next => next.Reads reading index out (a == b) := by
  unfold equalBit
  apply (add_builds first second).bind
  intro differ next extended readsDiffer
  obtain rfl := first.1
  apply (one_builds reading (first.of_extends extended).holds).bind
  intro one last further readsOne
  have flipped : xor (xor a b) true = (a == b) := by cases a <;> cases b <;> rfl
  rw [← flipped]
  exact add_builds (readsDiffer.of_extends further) readsOne

theorem lessBit_builds (first : start.Reads reading index x a)
    (second : start.Reads reading index y b) :
    Builds (lessBit x y) start fun out next => next.Reads reading index out (!a && b) := by
  unfold lessBit
  apply (not_builds first).bind
  intro negated next extended readsNegated
  exact mul_builds readsNegated (second.of_extends extended)

theorem selectBit_builds {selector : Wire} {isOn : Bool}
    (selects : start.Reads reading index selector isOn) (first : start.Reads reading index x a)
    (second : start.Reads reading index y b) :
    Builds (selectBit selector x y) start fun out next =>
      next.Reads reading index out (if isOn then b else a) := by
  unfold selectBit
  apply (not_builds selects).bind
  intro isOff s₁ grown₁ readsOff
  apply (mul_builds readsOff (first.of_extends grown₁)).bind
  intro whenZero s₂ grown₂ readsZero
  have untilNow := grown₁.trans grown₂
  apply (mul_builds (selects.of_extends untilNow) (second.of_extends untilNow)).bind
  intro whenOne s₃ grown₃ readsOne
  have chosen : xor (!isOn && a) (isOn && b) = if isOn then b else a := by cases isOn <;> simp
  rw [← chosen]
  exact add_builds (readsZero.of_extends grown₃) readsOne

theorem constantBits_builds (reading : Reading T) (holds : start.Holds index) (value : UInt64)
    (length : Nat) :
    Builds (constantBits index value length) start fun wires next =>
      next.ReadsAll reading index wires (Bits.ofPattern value.toBitVec length) := by
  have each : ∀ (bit other : Bool) (now : Workspace), start.Extends now → bit = other →
      Builds (constant index (if bit then 1 else 0)) now fun out next =>
        next.Reads reading index out other := by
    rintro bit _ now extended rfl
    cases bit with
    | false => exact zero_builds reading (holds.of_extends extended)
    | true => exact one_builds reading (holds.of_extends extended)
  have built := Builds.mapM (fun _ _ _ _ _ same => same) Workspace.reads_lasting each
    (List.forall₂_refl (Bits.ofPattern value.toBitVec length))
  rwa [List.map_id'] at built

end Wiring

namespace Gadget

theorem checkLengths_ok {xs ys : List Wire} (sameLength : xs.length = ys.length)
    (filled : xs ≠ []) : (liftM (checkLengths xs ys) : Gadget Unit) = pure () := by
  have ok : checkLengths xs ys = .ok () := by
    rw [checkLengths, if_neg (by simpa using sameLength), if_neg (by simpa using filled)]
  rw [ok]
  rfl

theorem foldl_equal {first second : List Bool} (sameLength : first.length = second.length)
    (soFar : Bool) :
    (first.zip second).foldl (fun soFar pair => soFar && (pair.1 == pair.2)) soFar =
      (soFar && first == second) := by
  induction first generalizing second soFar with
  | nil => simp [List.length_eq_zero_iff.mp sameLength.symm]
  | cons a rest ih =>
    cases second with
    | nil => simp at sameLength
    | cons b others =>
      rw [List.zip_cons_cons, List.foldl_cons, ih (by simpa using sameLength), List.cons_beq_cons,
        Bool.and_assoc]

theorem equal_builds {xs ys : List Wire} {first second : List Bool}
    (left : start.ReadsAll reading index xs first) (right : start.ReadsAll reading index ys second)
    (sameLength : first.length = second.length) (filled : first ≠ []) :
    Builds (equal xs ys) start fun out next =>
      next.Reads reading index out (first == second) := by
  have sameWires : xs.length = ys.length := by rw [left.length_eq, right.length_eq, sameLength]
  cases left with
  | nil => exact absurd rfl filled
  | @cons x a xs rest here there =>
    unfold equal
    rw [checkLengths_ok sameWires (List.cons_ne_nil x xs), pure_bind]
    obtain rfl := here.1
    apply (Wiring.one_builds reading here.holds).of_wiring.bind
    intro one next extended readsOne
    have pairs := forall₂_zip (List.Forall₂.cons here there) right
    have built := Builds.foldlM Workspace.readsPair_lasting
      (fun soFar equalSoFar pair bits now _ readsSoFar readsPair =>
        (Wiring.equalBit_builds readsPair.1 readsPair.2).of_wiring.bind
          fun bit later extended readsBit =>
            (Wiring.mul_builds (readsSoFar.of_extends extended) readsBit).of_wiring)
      (forall₂_of_extends Workspace.readsPair_lasting extended pairs) readsOne
    rwa [foldl_equal sameLength, Bool.true_and] at built

theorem select_builds {selector : Wire} {isOn : Bool} {xs ys : List Wire} {first second : List Bool}
    (selects : start.Reads reading index selector isOn)
    (left : start.ReadsAll reading index xs first) (right : start.ReadsAll reading index ys second)
    (sameLength : first.length = second.length) (filled : first ≠ []) :
    Builds (select selector xs ys) start fun outs next =>
      next.ReadsAll reading index outs (if isOn then second else first) := by
  have sameWires : xs.length = ys.length := by rw [left.length_eq, right.length_eq, sameLength]
  have filledWires : xs ≠ [] := by
    rintro rfl
    cases left
    exact filled rfl
  unfold select
  rw [checkLengths_ok sameWires filledWires, pure_bind]
  have built := Builds.mapM Workspace.readsPair_lasting Workspace.reads_lasting
    (fun pair bits now ahead reads =>
      (Wiring.selectBit_builds (selects.of_extends ahead) reads.1 reads.2).of_wiring)
    (forall₂_zip left right)
  have chosen : (first.zip second).map (fun bits => if isOn then bits.2 else bits.1) =
      if isOn then second else first := by
    cases isOn with
    | false => simpa using List.map_fst_zip (Nat.le_of_eq sameLength)
    | true => simpa using List.map_snd_zip (Nat.le_of_eq sameLength.symm)
  rwa [chosen] at built

def isLess (pairs : List (Bool × Bool)) : Bool :=
  Bits.number (pairs.reverse.map Prod.fst) < Bits.number (pairs.reverse.map Prod.snd)

theorem isLess_cons (pair : Bool × Bool) (below : List (Bool × Bool)) :
    isLess (pair :: below) = xor (!pair.1 && pair.2) (pair.1 == pair.2 && isLess below) := by
  simp only [isLess, List.reverse_cons, List.map_append, List.map_cons, List.map_nil]
  exact Bits.number_lt_number_append (by simp) pair.1 pair.2

theorem lessFrom_builds {below : List (Wire × Wire)} {belowBits : List (Bool × Bool)}
    {higher : Wire × Wire} {higherBits : Bool × Bool} {equal less : Wire} {isEqual soFar : Bool}
    (belowReads : List.Forall₂ (start.ReadsPair reading index) below belowBits)
    (higherReads : start.ReadsPair reading index higher higherBits)
    (equalReads : start.Reads reading index equal isEqual)
    (lessReads : start.Reads reading index less soFar) :
    Builds (lessFrom below higher equal less) start fun out next =>
      next.Reads reading index out
        (xor soFar (isEqual && higherBits.1 == higherBits.2 && isLess belowBits)) := by
  induction below generalizing start belowBits higher higherBits equal isEqual less soFar with
  | nil =>
    cases belowReads
    exact .pure (by simpa [isLess] using lessReads)
  | cons pair below ih =>
    obtain _ | @⟨_, bits, _, belowBits, here, there⟩ := belowReads
    unfold lessFrom
    apply (Wiring.equalBit_builds higherReads.1 higherReads.2).bind
    intro same s₁ grown₁ readsSame
    apply (Wiring.mul_builds (equalReads.of_extends grown₁) readsSame).bind
    intro equal s₂ grown₂ readsEqual
    have before := grown₁.trans grown₂
    apply (Wiring.lessBit_builds (here.1.of_extends before) (here.2.of_extends before)).bind
    intro smaller s₃ grown₃ readsSmaller
    apply (Wiring.mul_builds (readsEqual.of_extends grown₃) readsSmaller).bind
    intro decides s₄ grown₄ readsDecides
    have sinceEqual := grown₃.trans grown₄
    have sinceStart := before.trans sinceEqual
    apply (Wiring.add_builds (lessReads.of_extends sinceStart) readsDecides).bind
    intro less s₅ grown₅ readsLess
    have untilNow := sinceStart.trans grown₅
    have built := ih (forall₂_of_extends Workspace.readsPair_lasting untilNow there)
      (Workspace.readsPair_lasting pair bits untilNow here)
      (readsEqual.of_extends (sinceEqual.trans grown₅)) readsLess
    convert built using 4
    rw [isLess_cons]
    cases isEqual <;> cases higherBits.1 == higherBits.2 <;> simp

theorem isLess_reverse_zip {first second : List Bool} (sameLength : first.length = second.length) :
    isLess (first.zip second).reverse = decide (Bits.number first < Bits.number second) := by
  simp [isLess, List.map_fst_zip, List.map_snd_zip, sameLength]

theorem less_builds {xs ys : List Wire} {first second : List Bool}
    (left : start.ReadsAll reading index xs first) (right : start.ReadsAll reading index ys second)
    (sameLength : first.length = second.length) (filled : first ≠ []) :
    Builds (less xs ys) start fun out next =>
      next.Reads reading index out (Bits.number first < Bits.number second) := by
  have sameWires : xs.length = ys.length := by rw [left.length_eq, right.length_eq, sameLength]
  have pairs := List.forall₂_reverse_iff.mpr (forall₂_zip left right)
  rw [← isLess_reverse_zip sameLength]
  cases left with
  | nil => exact absurd rfl filled
  | @cons x a xs rest here there =>
    unfold less
    rw [checkLengths_ok sameWires (List.cons_ne_nil x xs), pure_bind]
    cases reversed : ((x :: xs).zip ys).reverse with
    | nil =>
      have shape := congrArg List.length reversed
      simp [← sameWires] at shape
    | cons top below =>
      rw [reversed] at pairs
      generalize ((a :: rest).zip second).reverse = bits at pairs
      obtain _ | @⟨_, topBits, _, belowBits, topReads, belowReads⟩ := pairs
      obtain rfl := here.1
      apply (Wiring.lessBit_builds topReads.1 topReads.2).of_wiring.bind
      intro isLess s₁ grown₁ readsLess
      apply (Wiring.one_builds reading (here.of_extends grown₁).holds).of_wiring.bind
      intro one s₂ grown₂ readsOne
      have untilNow := grown₁.trans grown₂
      have built := lessFrom_builds
        (forall₂_of_extends Workspace.readsPair_lasting untilNow belowReads)
        (Workspace.readsPair_lasting top topBits untilNow topReads) readsOne
        (readsLess.of_extends grown₂)
      rw [isLess_cons]
      simpa using built.of_wiring

end Gadget

end ArithCircuit
