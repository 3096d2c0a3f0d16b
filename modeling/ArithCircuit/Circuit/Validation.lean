import ArithCircuit.Circuit.Basic
import ArithCircuit.Error

set_option autoImplicit false

namespace ArithCircuit

namespace Circuit

def forwardReference? (nodes : List Node) (start : Nat) : Option (Nat × Nat) :=
  match nodes with
  | [] => none
  | node :: rest =>
    match node.children.find? (start ≤ ·) with
    | some child => some (start, child)
    | none => forwardReference? rest (start + 1)

theorem earlier_of_forwardReference?_eq_none {nodes : List Node} {start : Nat}
    (clean : forwardReference? nodes start = none) (i : Nat) (h : i < nodes.length) :
    ∀ child ∈ nodes[i].children, child < start + i := by
  induction nodes generalizing start i with
  | nil => simp at h
  | cons node rest ih =>
    unfold forwardReference? at clean
    split at clean
    · simp at clean
    · rename_i absent
      cases i with
      | zero =>
        intro child member
        have := List.find?_eq_none.mp absent child member
        simp at this
        simpa using this
      | succ j =>
        intro child member
        have := ih clean j (by simpa using h) child (by simpa using member)
        omega

def ofNodes (nodes : List Node) : Except Error Circuit :=
  match clean : forwardReference? nodes 0 with
  | some (node, child) => .error (.forwardReference node child)
  | none => .ok {
      nodes := nodes.toArray
      earlier := by
        intro id h child member
        have := earlier_of_forwardReference?_eq_none clean id (by simpa using h) child
          (by simpa using member)
        omega }

def toNodes (circuit : Circuit) : List Node := circuit.nodes.toList

end Circuit

end ArithCircuit
