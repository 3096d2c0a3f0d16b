import ArithCircuit.Circuit.Json
import ArithCircuit.Proofs.Reading

set_option autoImplicit false

namespace ArithCircuit

def Backward (nodes : List Node) : Prop :=
  ∀ (id : Nat) (node : Node), nodes[id]? = some node → ∀ child ∈ node.children, child < id

structure FirstForward (nodes : List Node) (id child : Nat) : Prop where
  backward : Backward (nodes.take id)
  leftmost : ∃ node early late, nodes[id]? = some node ∧ node.children = early ++ child :: late ∧
    ∀ other ∈ early, other < id
  forward : id ≤ child

namespace Circuit

section Checking

variable {nodes : List Node} {start : Nat}

theorem forwardReference?_eq_none_iff :
    forwardReference? nodes start = none ↔
      ∀ (i : Nat) (node : Node), nodes[i]? = some node →
        ∀ child ∈ node.children, child < start + i := by
  constructor
  · intro clean i node stored child member
    obtain ⟨bound, rfl⟩ := List.getElem?_eq_some_iff.mp stored
    exact earlier_of_forwardReference?_eq_none clean i bound child member
  · intro backward
    induction nodes generalizing start with
    | nil => rfl
    | cons node rest ih =>
      have here : node.children.find? (start ≤ ·) = none := by
        refine List.find?_eq_none.mpr fun child member => ?_
        simpa using backward 0 node rfl child member
      rw [forwardReference?, here]
      refine ih fun i other stored child member => ?_
      have later := backward (i + 1) other stored child member
      omega

theorem forwardReference?_eq_some {id child : Nat}
    (found : forwardReference? nodes start = some (id, child)) :
    ∃ before node after early late, nodes = before ++ node :: after ∧
      forwardReference? before start = none ∧ id = start + before.length ∧
      node.children = early ++ child :: late ∧ (∀ other ∈ early, other < id) ∧ id ≤ child := by
  induction nodes generalizing start with
  | nil => cases found
  | cons node rest ih =>
    rw [forwardReference?] at found
    cases here : node.children.find? (start ≤ ·) with
    | some first =>
      rw [here] at found
      cases found
      obtain ⟨forward, early, late, split, backward⟩ := List.find?_eq_some_iff_append.mp here
      refine ⟨[], node, rest, early, late, rfl, rfl, rfl, split, fun other member => ?_, ?_⟩
      · simpa using backward other member
      · simpa using forward
    | none =>
      rw [here] at found
      obtain ⟨before, offender, after, early, late, rfl, clean, rfl, split, backward, forward⟩ :=
        ih found
      refine ⟨node :: before, offender, after, early, late, rfl, ?_, ?_, split, backward, forward⟩
      · rw [forwardReference?, here]
        exact clean
      · rw [List.length_cons]
        omega

theorem forwardReference?_zero_eq_none_iff :
    forwardReference? nodes 0 = none ↔ Backward nodes := by
  unfold Backward
  simpa only [Nat.zero_add] using @forwardReference?_eq_none_iff nodes 0

theorem firstForward_of_forwardReference? {id child : Nat}
    (found : forwardReference? nodes 0 = some (id, child)) : FirstForward nodes id child := by
  obtain ⟨before, node, after, early, late, rfl, clean, rfl, split, backward, forward⟩ :=
    forwardReference?_eq_some found
  rw [Nat.zero_add] at backward forward ⊢
  refine ⟨?_, ⟨node, early, late, ?_, split, backward⟩, forward⟩
  · rw [List.take_left']
    · exact forwardReference?_zero_eq_none_iff.mp clean
    · rfl
  · simp

end Checking

theorem backward_toNodes (circuit : Circuit) : Backward circuit.toNodes := by
  intro id node stored child member
  obtain ⟨bound, rfl⟩ := List.getElem?_eq_some_iff.mp stored
  exact circuit.earlier id bound child member

theorem ofNodes_of_backward {nodes : List Node} (backward : Backward nodes) :
    ∃ circuit, ofNodes nodes = .ok circuit ∧ circuit.toNodes = nodes := by
  have clean := forwardReference?_zero_eq_none_iff.mpr backward
  unfold ofNodes
  split
  · rename_i found
    rw [clean] at found
    cases found
  · exact ⟨_, rfl, rfl⟩

theorem ofNodes_of_forward {nodes : List Node} (forward : ¬Backward nodes) :
    ∃ id child, FirstForward nodes id child ∧
      ofNodes nodes = .error (.forwardReference id child) := by
  unfold ofNodes
  split
  · rename_i id child found
    exact ⟨id, child, firstForward_of_forwardReference? found, rfl⟩
  · rename_i clean
    exact absurd (forwardReference?_zero_eq_none_iff.mp clean) forward

theorem ofNodes_toNodes (circuit : Circuit) : ofNodes circuit.toNodes = .ok circuit := by
  obtain ⟨again, accepted, same⟩ := ofNodes_of_backward circuit.backward_toNodes
  have equal : again = circuit := by
    cases again
    cases circuit
    obtain rfl := Array.toList_inj.mp same
    rfl
  rw [accepted, equal]

end Circuit

namespace Node

theorem readable_toJson (node : Node) : node.toJson.Readable := by
  have single : ∀ {kind : String} {argument : Json}, argument.Readable →
      (Json.object [(kind, argument)]).Readable := fun readable =>
    .object (List.nodup_singleton _) fun field member => by
      obtain rfl := List.mem_singleton.mp member
      exact readable
  have pair : ∀ first second : Nat, (Json.array [.natural first, .natural second]).Readable :=
    fun first second => .array fun item member => by
      obtain rfl | rfl := List.mem_pair.mp member <;> exact .natural _
  match node with
  | constant value => exact single (.natural _)
  | input name => exact single (.string _)
  | binary .add left right => exact single (pair left right)
  | binary .mul left right => exact single (pair left right)
  | shift .left operand amount => exact single (pair operand amount.toNat)
  | shift .right operand amount => exact single (pair operand amount.toNat)

theorem word?_natural {value : Nat} (fits : value < UInt64.size) :
    (Json.natural value).word? = some value := if_pos fits

theorem wordPair?_naturals {first second : Nat} (fitsFirst : first < UInt64.size)
    (fitsSecond : second < UInt64.size) :
    wordPair? (.array [.natural first, .natural second]) = some (first, second) := by
  rw [wordPair?, word?_natural fitsFirst, word?_natural fitsSecond]
  rfl

theorem ofJson?_toJson {node : Node} (fits : ∀ child ∈ node.children, child < UInt64.size) :
    ofJson? node.toJson = some node := by
  match node with
  | constant value =>
    rw [toJson, ofJson?, word?_natural value.toNat_lt_size]
    exact congrArg (fun word => some (constant word)) value.ofNat_toNat
  | input name => rfl
  | binary op left right =>
    have pair := wordPair?_naturals (fits left List.mem_cons_self)
      (fits right (List.mem_cons_of_mem left List.mem_cons_self))
    cases op <;>
      · rw [toJson, ofJson?, pair]
        rfl
  | shift direction operand amount =>
    have pair := wordPair?_naturals (fits operand List.mem_cons_self) amount.toNat_lt_size
    cases direction <;>
      · rw [toJson, ofJson?, pair]
        exact congrArg (fun word => some (shift _ operand word)) amount.ofNat_toNat

theorem listOfJson?_toJson {nodes : List Node}
    (fits : ∀ node ∈ nodes, ∀ child ∈ node.children, child < UInt64.size) :
    listOfJson? (.array (nodes.map toJson)) = some nodes := by
  rw [listOfJson?]
  induction nodes with
  | nil => rfl
  | cons node rest ih =>
    have later := ih fun other member => fits other (List.mem_cons_of_mem node member)
    rw [List.map_cons, List.mapM_cons, ofJson?_toJson (fits node List.mem_cons_self)]
    simp only [later, Option.bind_eq_bind, Option.bind_some]
    rfl

end Node

namespace Circuit

theorem readable_toJson (circuit : Circuit) : circuit.toJson.Readable :=
  .array fun item member => by
    obtain ⟨node, _, rfl⟩ := List.mem_map.mp member
    exact node.readable_toJson

-- Ids in memory are 64-bit words; this is asked for because circuits of any size are considered.
theorem loading_undoes_saving :
    (∀ circuit : Circuit, ofNodes circuit.toNodes = .ok circuit ∧
      ((∀ node ∈ circuit.toNodes, ∀ child ∈ node.children, child < UInt64.size) →
        ∃ json, Json.parse? circuit.jsonText = some json ∧ ofJson json = .ok circuit)) ∧
    ∀ nodes : List Node,
      ((∃ circuit, ofNodes nodes = .ok circuit ∧ circuit.toNodes = nodes) ↔ Backward nodes) ∧
      (∀ circuit, ofNodes nodes = .ok circuit → circuit.toNodes = nodes) ∧
      (¬Backward nodes → ∃ id child, FirstForward nodes id child ∧
        ofNodes nodes = .error (.forwardReference id child)) := by
  refine ⟨fun circuit => ⟨circuit.ofNodes_toNodes, fun fits => ?_⟩, fun nodes => ⟨?_, ?_, ?_⟩⟩
  · refine ⟨circuit.toJson, Json.parse?_text circuit.readable_toJson, ?_⟩
    rw [ofJson, toJson, Node.listOfJson?_toJson fits]
    simp only [circuit.ofNodes_toNodes]
    rfl
  · constructor
    · rintro ⟨circuit, -, rfl⟩
      exact circuit.backward_toNodes
    · exact ofNodes_of_backward
  · intro circuit accepted
    by_cases backward : Backward nodes
    · obtain ⟨again, loaded, same⟩ := ofNodes_of_backward backward
      cases accepted.symm.trans loaded
      exact same
    · obtain ⟨id, child, -, refused⟩ := ofNodes_of_forward backward
      cases accepted.symm.trans refused
  · exact ofNodes_of_forward

def escapedName : Circuit where
  nodes := #[.input "\"\\\n\x01/é", .constant 18446744073709551615,
    .shift .right 0 18446744073709551615, .product 2 1]
  earlier := by decide

theorem loading_undoes_saving_escapedName :
    (∀ node ∈ escapedName.toNodes, ∀ child ∈ node.children, child < UInt64.size) ∧
      (∃ json, Json.parse? escapedName.jsonText = some json ∧ ofJson json = .ok escapedName) ∧
      ¬Backward [.input "x", .product 0 2, .shift .left 1 3] ∧
      ∃ id child, FirstForward [.input "x", .product 0 2, .shift .left 1 3] id child ∧
        ofNodes [.input "x", .product 0 2, .shift .left 1 3] =
          .error (.forwardReference id child) := by
  have fits : ∀ node ∈ escapedName.toNodes, ∀ child ∈ node.children, child < UInt64.size := by
    decide
  have forward : ¬Backward [.input "x", .product 0 2, .shift .left 1 3] := by
    intro backward
    exact absurd (backward 1 _ rfl 2 (by decide)) (by decide)
  exact ⟨fits, (loading_undoes_saving.1 escapedName).2 fits, forward,
    (loading_undoes_saving.2 _).2.2 forward⟩

end Circuit

end ArithCircuit
