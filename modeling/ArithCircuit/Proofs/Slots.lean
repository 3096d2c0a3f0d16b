import ArithCircuit.Gadget.Sort
import ArithCircuit.Proofs.Logic
import Mathlib.Data.List.Rotate

set_option autoImplicit false

namespace ArithCircuit

namespace Reading

variable {n : Nat}

def ofSlot (inputs : String → Option (Vector Bool n)) (slot : Fin n) : Reading (Vector Bool n) where
  domain := .slots n
  inputs := inputs
  bit contents := contents.get slot
  bit_add _ _ := Vector.getElem_zipWith slot.isLt
  bit_mul _ _ := Vector.getElem_zipWith slot.isLt
  bit_zero := Vector.getElem_replicate slot.isLt
  bit_one := Vector.getElem_replicate slot.isLt

end Reading

namespace Slots

variable {n : Nat}

def inFirst (n : Nat) (bit : Bool) : Vector Bool n := Vector.ofFn fun slot => slot.val == 0 && bit

theorem get_ofFn {α : Type} (f : Fin n → α) (slot : Fin n) : (Vector.ofFn f).get slot = f slot :=
  Vector.getElem_ofFn slot.isLt

theorem toList_getElem? (contents : Vector Bool n) (slot : Fin n) :
    contents.toList[slot.val]? = some (contents.get slot) := by
  rw [List.getElem?_eq_getElem (by simp), Vector.getElem_toList]
  rfl

theorem toList_rotate (k : Nat) (contents : Vector Bool n) :
    (Domain.rotate k contents).toList = contents.toList.rotate k := by
  unfold Domain.rotate
  rw [Vector.toList_ofFn]
  apply List.ext_getElem
  · simp
  · intro position _ _
    simp only [List.getElem_ofFn, List.getElem_rotate, Vector.getElem_toList, Vector.length_toList]
    rfl

def pack (wires : List (Vector Bool n)) : Vector Bool n :=
  wires.reverse.foldl
    (fun packed wire => (Domain.slots n).add ((Domain.slots n).shiftRight packed 1) wire)
    ((Domain.slots n).lift 0)

def fill (count : Nat) (wire : Vector Bool n) : Vector Bool n :=
  (List.range count).foldl
    (fun filled _ => (Domain.slots n).add ((Domain.slots n).shiftLeft filled 1) wire)
    ((Domain.slots n).lift 0)

theorem get_add (x y : Vector Bool n) (slot : Fin n) :
    ((Domain.slots n).add x y).get slot = xor (x.get slot) (y.get slot) :=
  Vector.getElem_zipWith slot.isLt

theorem get_zero (slot : Fin n) : ((Domain.slots n).lift 0).get slot = false :=
  Vector.getElem_replicate slot.isLt

theorem get_inFirst (bit : Bool) (slot : Fin n) :
    (inFirst n bit).get slot = (slot.val == 0 && bit) :=
  get_ofFn _ slot

theorem mul_inFirst (a b : Bool) :
    (Domain.slots n).mul (inFirst n a) (inFirst n b) = inFirst n (a && b) := by
  apply Vector.ext
  intro position bound
  simp [Domain.slots, inFirst]
  cases a <;> simp

def next (slot : Fin n) : Fin n := ⟨(slot.val + 1) % n, Nat.mod_lt _ slot.pos⟩

def previous (slot : Fin n) : Fin n := ⟨(slot.val + (n - 1 % n)) % n, Nat.mod_lt _ slot.pos⟩

theorem get_shiftLeft_one (contents : Vector Bool n) (slot : Fin n) :
    ((Domain.slots n).shiftLeft contents 1).get slot = contents.get (next slot) :=
  get_ofFn _ slot

theorem get_shiftRight_one (contents : Vector Bool n) (slot : Fin n) :
    ((Domain.slots n).shiftRight contents 1).get slot = contents.get (previous slot) :=
  get_ofFn _ slot

theorem previous_eq (slot : Fin n) :
    (previous slot).val = if slot.val = 0 then n - 1 else slot.val - 1 := by
  have bound := slot.isLt
  simp only [previous]
  by_cases single : n = 1
  · subst single
    rw [if_pos (by omega), Nat.mod_one]
  · rw [Nat.mod_eq_of_lt (show 1 < n by omega)]
    by_cases first : slot.val = 0
    · rw [if_pos first, first, Nat.zero_add, Nat.mod_eq_of_lt (by omega)]
    · have around : slot.val + (n - 1) = slot.val - 1 + n := by omega
      rw [if_neg first, around, Nat.add_mod_right, Nat.mod_eq_of_lt (by omega)]

def away (slot : Fin n) : Nat := (n - slot.val) % n

theorem away_lt (slot : Fin n) : away slot < n := Nat.mod_lt _ slot.pos

theorem away_first {slot : Fin n} (first : slot.val = 0) : away slot = 0 := by
  rw [away, first, Nat.sub_zero, Nat.mod_self]

theorem away_next_first {slot : Fin n} (first : slot.val = 0) : away (next slot) = n - 1 := by
  have bound := slot.isLt
  by_cases single : n = 1
  · subst single
    exact Nat.mod_one _
  · simp only [away, next]
    rw [first, Nat.zero_add, Nat.mod_eq_of_lt (show 1 < n by omega),
      Nat.mod_eq_of_lt (Nat.sub_lt slot.pos Nat.one_pos)]

theorem away_next {slot : Fin n} (later : slot.val ≠ 0) : away slot = away (next slot) + 1 := by
  have bound := slot.isLt
  simp only [away, next]
  rw [Nat.mod_eq_of_lt (show n - slot.val < n by omega)]
  by_cases last : slot.val + 1 = n
  · rw [last, Nat.mod_self, Nat.sub_zero, Nat.mod_self]
    omega
  · rw [Nat.mod_eq_of_lt (show slot.val + 1 < n by omega),
      Nat.mod_eq_of_lt (show n - (slot.val + 1) < n by omega)]
    omega

theorem pack_cons (wire : Vector Bool n) (wires : List (Vector Bool n)) :
    pack (wire :: wires) = (Domain.slots n).add ((Domain.slots n).shiftRight (pack wires) 1) wire := by
  rw [pack, List.reverse_cons, List.foldl_append]
  rfl

theorem fill_succ (count : Nat) (wire : Vector Bool n) :
    fill (count + 1) wire =
      (Domain.slots n).add ((Domain.slots n).shiftLeft (fill count wire) 1) wire := by
  rw [fill, List.range_succ, List.foldl_append]
  rfl

theorem get_pack {bits : List Bool} (few : bits.length ≤ n) (slot : Fin n) :
    (pack (bits.map (inFirst n))).get slot = bits[slot.val]?.getD false := by
  induction bits generalizing slot with
  | nil => exact get_zero slot
  | cons bit later ih =>
    have room : later.length + 1 ≤ n := few
    rw [List.map_cons, pack_cons, get_add, get_shiftRight_one, ih (by omega), get_inFirst, previous_eq]
    by_cases first : slot.val = 0
    · rw [if_pos first, List.getElem?_eq_none (by omega), first]
      simp
    · obtain ⟨before, after⟩ := Nat.exists_eq_succ_of_ne_zero first
      simp [after]

theorem get_fill_inFirst {count : Nat} (few : count ≤ n) (bit : Bool) (slot : Fin n) :
    (fill count (inFirst n bit)).get slot = (decide (away slot < count) && bit) := by
  induction count generalizing slot with
  | zero => simp [fill, get_zero]
  | succ count ih =>
    rw [fill_succ, get_add, get_shiftLeft_one, ih (by omega), get_inFirst]
    by_cases first : slot.val = 0
    · have waiting : ¬n - 1 < count := by omega
      rw [away_next_first first, away_first first, decide_eq_false waiting]
      simp [first]
    · rw [away_next first, beq_eq_false_iff_ne.mpr first]
      simp

theorem get_fill (bit : Bool) (slot : Fin n) : (fill n (inFirst n bit)).get slot = bit := by
  rw [get_fill_inFirst (Nat.le_refl n), decide_eq_true (away_lt slot), Bool.true_and]

end Slots

variable {n : Nat} {inputs : String → Option (Vector Bool n)} {start : Workspace} {index : Nat}

namespace Workspace

def ReadsSlots (workspace : Workspace) (inputs : String → Option (Vector Bool n)) (index : Nat)
    (wire : Wire) (contents : Vector Bool n) : Prop :=
  ∀ slot, workspace.Reads (.ofSlot inputs slot) index wire (contents.get slot)

theorem readsSlots_lasting (wire : Wire) (contents : Vector Bool n) :
    Lasting (ReadsSlots · inputs index wire contents) :=
  fun _ _ extended reads slot => (reads slot).of_extends extended

theorem ReadsSlots.of_extends {old new : Workspace} (extended : old.Extends new) {wire : Wire}
    {contents : Vector Bool n} (reads : old.ReadsSlots inputs index wire contents) :
    new.ReadsSlots inputs index wire contents :=
  readsSlots_lasting wire contents extended reads

theorem ReadsSlots.own [NeZero n] {wire : Wire} {contents : Vector Bool n}
    (reads : start.ReadsSlots inputs index wire contents) : wire.circuit = index :=
  (reads 0).1

theorem ReadsSlots.holds [NeZero n] {wire : Wire} {contents : Vector Bool n}
    (reads : start.ReadsSlots inputs index wire contents) : start.Holds index :=
  (reads 0).holds

theorem ReadsSlots.evaluates [NeZero n] {workspace : Workspace} {wire : Wire}
    {contents : Vector Bool n} (reads : workspace.ReadsSlots inputs index wire contents) :
    ∃ circuit formula, workspace.circuit? index = some circuit ∧
      circuit.Denotes wire.node formula ∧ formula.Evaluates (.slots n) inputs contents := by
  obtain ⟨_, circuit, formula, held, denotes, value, evaluates, _⟩ := reads 0
  have same : value = contents := by
    apply Vector.ext
    intro position bound
    obtain ⟨_, _, _, also, denotesAlso, _, evaluatesAlso, here⟩ := reads ⟨position, bound⟩
    cases held.symm.trans also
    cases denotes.symm.trans denotesAlso
    cases evaluates.symm.trans evaluatesAlso
    exact here
  exact ⟨circuit, formula, held, denotes, same ▸ evaluates⟩

theorem Owns.readsSlots {workspace : Workspace} {wire : Wire} (owns : workspace.Owns index wire)
    {contents : Vector Bool n}
    (evaluates : workspace.eval? (.slots n) inputs wire = some (.ok contents)) :
    workspace.ReadsSlots inputs index wire contents :=
  fun slot => owns.reads (.ofSlot inputs slot) evaluates

abbrev ReadsAllSlots (workspace : Workspace) (inputs : String → Option (Vector Bool n))
    (index : Nat) : List Wire → List (Vector Bool n) → Prop :=
  List.Forall₂ (workspace.ReadsSlots inputs index)

theorem ReadsAllSlots.get {workspace : Workspace} {wires : List Wire}
    {contents : List (Vector Bool n)} (reads : workspace.ReadsAllSlots inputs index wires contents)
    (slot : Fin n) :
    workspace.ReadsAll (.ofSlot inputs slot) index wires (contents.map (·.get slot)) :=
  List.forall₂_map_right_iff.mpr (reads.imp fun _ _ here => here slot)

theorem readsAllSlots_lasting (wires : List Wire) (contents : List (Vector Bool n)) :
    Lasting (ReadsAllSlots · inputs index wires contents) :=
  fun _ _ extended => forall₂_of_extends readsSlots_lasting extended

abbrev EvaluateInFirst (workspace : Workspace) (inputs : String → Option (Vector Bool n)) :
    List Wire → List Bool → Prop :=
  List.Forall₂ fun wire bit =>
    workspace.eval? (.slots n) inputs wire = some (.ok (Slots.inFirst n bit))

abbrev FirstEvaluateTo [NeZero n] (workspace : Workspace) (inputs : String → Option (Vector Bool n)) :
    List Wire → List Bool → Prop :=
  List.Forall₂ fun wire bit =>
    ∃ contents, workspace.eval? (.slots n) inputs wire = some (.ok contents) ∧ contents.get 0 = bit

theorem exists_readsAllSlots [NeZero n] {workspace : Workspace} {elements : List (List Wire)}
    (own : ∀ element ∈ elements, ∀ wire ∈ element, workspace.Owns index wire) :
    ∃ contents, List.Forall₂ (workspace.ReadsAllSlots (fun _ => some (Slots.inFirst n false)) index)
      elements contents := by
  refine exists_forall₂ fun element member => exists_forall₂ fun wire present => ?_
  have owns := own element member wire present
  have bound : ∀ name, ∃ value,
      (Reading.ofSlot (fun _ => some (Slots.inFirst n false)) 0).inputs name = some value :=
    fun _ => ⟨_, rfl⟩
  obtain ⟨_, reads⟩ := owns.reads_of_bound bound
  obtain ⟨value, evaluates, _⟩ := reads.evaluates
  exact ⟨value, owns.readsSlots evaluates⟩

theorem readsAllSlots_of_evaluate {workspace : Workspace} {elements : List (List Wire)}
    {values : List (List Bool)} (own : ∀ element ∈ elements, ∀ wire ∈ element, workspace.Owns index wire)
    (evaluate : List.Forall₂ (workspace.EvaluateInFirst inputs) elements values) :
    List.Forall₂ (workspace.ReadsAllSlots inputs index) elements
      (values.map (List.map (Slots.inFirst n))) := by
  refine List.forall₂_map_right_iff.mpr
    (((List.forall₂_and_left _ _).mpr ⟨own, evaluate⟩).imp fun element bits here => ?_)
  exact List.forall₂_map_right_iff.mpr (((List.forall₂_and_left _ _).mpr here).imp
    fun _ _ each => each.1.readsSlots each.2)

theorem ReadsAll.first [NeZero n] {workspace : Workspace} {wires : List Wire} {bits : List Bool}
    (reads : workspace.ReadsAll (.ofSlot inputs 0) index wires bits) :
    workspace.FirstEvaluateTo inputs wires bits :=
  reads.imp fun _ _ here => here.evaluates

end Workspace

namespace Wiring

variable [NeZero n] {x y : Wire} {a b : Vector Bool n}

theorem shift_builds (direction : Direction) (amount : UInt64)
    (reads : start.ReadsSlots inputs index x a) :
    Builds (shift direction x amount) start fun out next =>
      next.ReadsSlots inputs index out ((Domain.slots n).shift direction a amount) := by
  obtain ⟨circuit, formula, held, denotes, evaluates⟩ := reads.evaluates
  obtain rfl := reads.own
  exact Builds.all fun slot => wire_builds held (Build.shift_yields direction amount denotes)
    ⟨_, Formula.evaluates_shift.mpr ⟨a, evaluates, rfl⟩, rfl⟩

theorem zeroSlots_builds (inputs : String → Option (Vector Bool n)) (holds : start.Holds index) :
    Builds (constant index 0) start fun out next =>
      next.ReadsSlots inputs index out ((Domain.slots n).lift 0) := by
  apply Builds.all
  intro slot
  rw [Slots.get_zero]
  exact zero_builds (.ofSlot inputs slot) holds

theorem addSlots_builds (first : start.ReadsSlots inputs index x a)
    (second : start.ReadsSlots inputs index y b) :
    Builds (add x y) start fun out next =>
      next.ReadsSlots inputs index out ((Domain.slots n).add a b) := by
  apply Builds.all
  intro slot
  rw [Slots.get_add]
  exact add_builds (first slot) (second slot)

theorem fillSlots_builds (reads : start.ReadsSlots inputs index x a) (count : Nat) :
    Builds (fillSlots x count) start fun out next =>
      next.ReadsSlots inputs index out (Slots.fill count a) := by
  unfold fillSlots
  obtain rfl := reads.own
  apply (zeroSlots_builds inputs reads.holds).bind
  intro zero s₁ grown₁ zeroReads
  have each : ∀ filled contents (step other : Nat) (now : Workspace), s₁.Extends now →
      now.ReadsSlots inputs x.circuit filled contents → step = other →
      Builds (do add (← shift .left filled 1) x) now fun out next =>
        next.ReadsSlots inputs x.circuit out
          ((Domain.slots n).add ((Domain.slots n).shiftLeft contents 1) a) := by
    intro filled contents _ _ now ahead filledReads _
    apply (shift_builds .left 1 filledReads).bind
    intro shifted s₂ grown₂ shiftedReads
    exact addSlots_builds shiftedReads (reads.of_extends (grown₁.trans (ahead.trans grown₂)))
  exact Builds.foldlM (fun _ _ _ _ _ same => same) each (List.forall₂_refl (List.range count))
    zeroReads

end Wiring

theorem Gadget.packSlots_builds [NeZero n] {wires : List Wire} {contents : List (Vector Bool n)}
    (related : List.Forall₂ (start.ReadsSlots inputs index) wires contents)
    (counted : wires.length = n) :
    Builds (packSlots wires n) start fun out next =>
      next.ReadsSlots inputs index out (Slots.pack contents) := by
  unfold packSlots
  rw [if_neg (not_not.mpr counted)]
  match wires, related with
  | [], _ => exact absurd counted.symm (NeZero.ne n)
  | first :: others, related =>
    obtain ⟨_, _, firstReads⟩ := exists_of_mem_forall₂ related.flip List.mem_cons_self
    obtain rfl := Workspace.ReadsSlots.own firstReads
    apply (Wiring.zeroSlots_builds inputs (Workspace.ReadsSlots.holds firstReads)).of_wiring.bind
    intro zero s₁ grown₁ zeroReads
    refine Builds.foldlM Workspace.readsSlots_lasting ?_
      (List.forall₂_reverse_iff.mpr
        (forall₂_of_extends Workspace.readsSlots_lasting grown₁ related)) zeroReads
    intro packed packedContents wire wireContents now ahead packedReads wireReads
    apply (Wiring.shift_builds .right 1 packedReads).of_wiring.bind
    intro shifted s₂ grown₂ shiftedReads
    exact (Wiring.addSlots_builds shiftedReads (wireReads.of_extends grown₂)).of_wiring

end ArithCircuit
