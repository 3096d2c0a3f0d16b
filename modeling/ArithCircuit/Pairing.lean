set_option autoImplicit false

namespace ArithCircuit

variable {α : Type} {m : Type → Type} [Monad m]

def joinNeighbours (join : α → α → m α) : List α → m (List α)
  | first :: second :: rest => do
    let joined ← join first second
    let others ← joinNeighbours join rest
    return joined :: others
  | short => return short

-- At most `rounds` layers; the length of the list is always enough.
def joinLayers (join : α → α → m α) : (rounds : Nat) → List α → m (Option α)
  | _, [] => return none
  | _, [last] => return some last
  | 0, _ => return none
  | rounds + 1, layer => do
    let next ← joinNeighbours join layer
    joinLayers join rounds next

def joinBalanced (join : α → α → m α) (elements : List α) : m (Option α) :=
  joinLayers join elements.length elements

end ArithCircuit
