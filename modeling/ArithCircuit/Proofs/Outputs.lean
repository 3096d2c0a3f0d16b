import ArithCircuit.Proofs.Growth
import ArithCircuit.Proofs.Trades
import ArithCircuit.Proofs.Uses

set_option autoImplicit false

namespace ArithCircuit

namespace Circuit

def Below (circuit : Circuit) (roots : List Nat) (id : Nat) : Prop :=
  ∃ root ∈ roots, circuit.Reaches root id

theorem Below.mono {circuit : Circuit} {roots more : List Nat} {id : Nat}
    (below : circuit.Below roots id) (subset : roots ⊆ more) : circuit.Below more id := by
  obtain ⟨root, member, reaches⟩ := below
  exact ⟨root, subset member, reaches⟩

theorem gateCount?_eq {circuit : Circuit} {roots : List Nat}
    (inRange : ∀ root ∈ roots, root < circuit.size) (kinds : GateSet) :
    ∃ ids : List Nat, circuit.gateCount? roots kinds = some (ids.countP (circuit.isGate kinds)) ∧
      ids.Nodup ∧ ∀ id, id ∈ ids ↔ circuit.Below roots id := by
  obtain ⟨ids, reached, ascending, listed⟩ := reachable?_eq inRange
  refine ⟨ids, ?_, ascending.imp Nat.ne_of_lt, listed⟩
  simp only [gateCount?, reached, Option.bind_eq_bind, Option.bind_some]
  rfl

theorem gateCount?_le {circuit : Circuit} {roots : List Nat} {kinds : GateSet} {count bound : Nat}
    (below : ∀ root ∈ roots, root < bound) (inRange : bound ≤ circuit.size)
    (counted : circuit.gateCount? roots kinds = some count) :
    count ≤ (List.range bound).countP (circuit.isGate kinds) := by
  obtain ⟨ids, same, once, listed⟩ := gateCount?_eq
    (fun root member => Nat.lt_of_lt_of_le (below root member) inRange) kinds
  obtain rfl := Option.some.inj (same.symm.trans counted)
  have subset : ids ⊆ List.range bound := by
    intro id member
    obtain ⟨root, isRoot, reaches⟩ := (listed id).mp member
    exact List.mem_range.mpr (Nat.lt_of_le_of_lt reaches.le (below root isRoot))
  exact (once.subperm subset).countP_le _

theorem countP_le_gateCount? {circuit : Circuit} {roots gates : List Nat}
    (inRange : ∀ root ∈ roots, root < circuit.size) (once : gates.Nodup)
    (reached : ∀ gate ∈ gates, circuit.Below roots gate) (kinds : GateSet) :
    ∃ count, circuit.gateCount? roots kinds = some count ∧
      gates.countP (circuit.isGate kinds) ≤ count := by
  obtain ⟨ids, counted, _, listed⟩ := gateCount?_eq inRange kinds
  have subset : gates ⊆ ids := fun gate member => (listed gate).mpr (reached gate member)
  exact ⟨_, counted, (once.subperm subset).countP_le _⟩

theorem gateCount?_of_extends {old new : Circuit} (extended : old.Extends new) {roots : List Nat}
    (inRange : ∀ root ∈ roots, root < old.size) (kinds : GateSet) :
    new.gateCount? roots kinds = old.gateCount? roots kinds := by
  obtain ⟨ids, reached, _, listed⟩ := reachable?_eq inRange
  have older : ∀ id ∈ ids, id < old.size := by
    intro id member
    obtain ⟨root, isRoot, reaches⟩ := (listed id).mp member
    exact Nat.lt_of_le_of_lt reaches.le (inRange root isRoot)
  simp only [gateCount?, reachable?_of_extends extended inRange, reached,
    Option.bind_eq_bind, Option.bind_some]
  exact congrArg some (countP_isGate_of_extends extended kinds older)

def usesBelow (circuit : Circuit) (roots : List Nat) (id : Nat) : Nat :=
  circuit.usesBy ((circuit.reachable? roots).getD []) id

theorem usesBelow_eq {circuit : Circuit} {roots users : List Nat}
    (inRange : ∀ root ∈ roots, root < circuit.size) (once : users.Nodup)
    (listed : ∀ id, id ∈ users ↔ circuit.Below roots id) (id : Nat) :
    circuit.usesBelow roots id = circuit.usesBy users id := by
  obtain ⟨ids, reached, ascending, reachable⟩ := reachable?_eq inRange
  rw [usesBelow, reached, Option.getD_some]
  refine usesBy_of_perm ((List.perm_ext_iff_of_nodup (ascending.imp Nat.ne_of_lt) once).mpr ?_) id
  exact fun other => (reachable other).trans (listed other).symm

theorem usesBy_le_usesBelow {circuit : Circuit} {roots users : List Nat}
    (inRange : ∀ root ∈ roots, root < circuit.size) (once : users.Nodup)
    (below : ∀ user ∈ users, circuit.Below roots user) (id : Nat) :
    circuit.usesBy users id ≤ circuit.usesBelow roots id := by
  obtain ⟨ids, reached, _, listed⟩ := reachable?_eq inRange
  rw [usesBelow, reached, Option.getD_some]
  exact usesBy_le_of_subset once (fun user member => (listed user).mpr (below user member)) id

theorem usesBelow_mono {circuit : Circuit} {roots more : List Nat}
    (inRange : ∀ root ∈ more, root < circuit.size) (subset : roots ⊆ more) (id : Nat) :
    circuit.usesBelow roots id ≤ circuit.usesBelow more id := by
  obtain ⟨ids, reached, ascending, listed⟩ :=
    reachable?_eq fun root member => inRange root (subset member)
  rw [usesBelow, reached, Option.getD_some]
  refine usesBy_le_usesBelow inRange (ascending.imp Nat.ne_of_lt) ?_ id
  intro other member
  have below : circuit.Below roots other := (listed other).mp member
  exact below.mono subset

theorem usesBelow_le {circuit : Circuit} {roots : List Nat}
    (inRange : ∀ root ∈ roots, root < circuit.size) (id : Nat) :
    circuit.usesBelow roots id ≤ circuit.usesBy (List.range circuit.size) id := by
  obtain ⟨ids, reached, ascending, listed⟩ := reachable?_eq inRange
  rw [usesBelow, reached, Option.getD_some]
  refine usesBy_le_of_subset (ascending.imp Nat.ne_of_lt) ?_ id
  intro other member
  obtain ⟨root, isRoot, reaches⟩ := (listed other).mp member
  exact List.mem_range.mpr (Nat.lt_of_le_of_lt reaches.le (inRange root isRoot))

end Circuit

namespace FanOut

variable {start circuit : Circuit} {roots users fresh : List Nat} {fanOut counted : FanOut} {root : Nat}

theorem listed_after (extended : start.Extends circuit) (inRange : root < start.size)
    (listed : ∀ id, id ∈ users ↔ start.Below roots id)
    (counts : Counts circuit counted (fresh ++ users)) (rootCounted : root ∈ fresh ++ users)
    (reached : ∀ id ∈ fresh, circuit.Reaches root id) (id : Nat) :
    id ∈ fresh ++ users ↔ start.Below (roots ++ [root]) id := by
  constructor
  · intro member
    cases List.mem_append.mp member with
    | inl isFresh => exact ⟨root, by simp, (reached id isFresh).of_grown extended inRange⟩
    | inr isUser => exact ((listed id).mp isUser).mono (List.subset_append_left roots [root])
  · intro below
    obtain ⟨other, isRoot, reaches⟩ := below
    cases List.mem_append.mp isRoot with
    | inl before => exact List.mem_append_right fresh ((listed id).mpr ⟨other, before, reaches⟩)
    | inr last =>
      obtain rfl := List.mem_singleton.mp last
      exact counts.mem_of_reaches rootCounted (reaches.of_extends extended inRange)

theorem exact_after (extended : start.Extends circuit) (inRange : root < start.size)
    (reached : ∀ id ∈ fresh, circuit.Reaches root id) {id : Nat}
    (exact : fanOut.usesOf id = start.usesBy users id)
    (uses : counted.usesOf id = fanOut.usesOf id + circuit.usesBy fresh id) :
    counted.usesOf id = start.usesBy (fresh ++ users) id := by
  have older : ∀ user ∈ fresh, user < start.size := fun user member =>
    Nat.lt_of_le_of_lt (reached user member).le inRange
  rw [uses, exact, Circuit.usesBy_of_extends extended older, Circuit.usesBy_append, Nat.add_comm]

end FanOut

end ArithCircuit
