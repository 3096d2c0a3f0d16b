import ArithCircuit.Circuit.Render
import ArithCircuit.Formula
import ArithCircuit.Proofs.WorkStack

set_option autoImplicit false

namespace ArithCircuit

def decimal (word : UInt64) : String := String.ofList (Nat.toDigits 10 word.toNat)

namespace Circuit

inductive Written (circuit : Circuit) : Nat → String → Prop where
  | constant {id : Nat} {value : UInt64} (found : circuit.node? id = some (.constant value)) :
      Written circuit id (decimal value)
  | input {id : Nat} {name : String} (found : circuit.node? id = some (.input name)) :
      Written circuit id name
  | sum {id left right : Nat} {leftText rightText : String}
      (found : circuit.node? id = some (.sum left right)) (first : Written circuit left leftText)
      (second : Written circuit right rightText) :
      Written circuit id ("( " ++ leftText ++ " + " ++ rightText ++ " )")
  | product {id left right : Nat} {leftText rightText : String}
      (found : circuit.node? id = some (.product left right)) (first : Written circuit left leftText)
      (second : Written circuit right rightText) :
      Written circuit id ("( " ++ leftText ++ " * " ++ rightText ++ " )")
  | shiftLeft {id operand : Nat} {amount : UInt64} {text : String}
      (found : circuit.node? id = some (.shift .left operand amount))
      (inner : Written circuit operand text) :
      Written circuit id ("( " ++ text ++ " << " ++ decimal amount ++ " )")
  | shiftRight {id operand : Nat} {amount : UInt64} {text : String}
      (found : circuit.node? id = some (.shift .right operand amount))
      (inner : Written circuit operand text) :
      Written circuit id ("( " ++ text ++ " >> " ++ decimal amount ++ " )")

variable {circuit : Circuit}

theorem Written.binary {id left right : Nat} {op : BinaryOp} {leftText rightText : String}
    (found : circuit.node? id = some (.binary op left right))
    (first : circuit.Written left leftText) (second : circuit.Written right rightText) :
    circuit.Written id ("( " ++ leftText ++ " " ++ op.sign ++ " " ++ rightText ++ " )") := by
  cases op with
  | add => simpa [BinaryOp.sign, String.append_assoc] using Written.sum found first second
  | mul => simpa [BinaryOp.sign, String.append_assoc] using Written.product found first second

theorem Written.shift {id operand : Nat} {direction : Direction} {amount : UInt64} {text : String}
    (found : circuit.node? id = some (.shift direction operand amount))
    (inner : circuit.Written operand text) :
    circuit.Written id ("( " ++ text ++ " " ++ direction.sign ++ " " ++ decimal amount ++ " )") := by
  cases direction with
  | left => simpa [Direction.sign, String.append_assoc] using Written.shiftLeft found inner
  | right => simpa [Direction.sign, String.append_assoc] using Written.shiftRight found inner

theorem Written.unique {id : Nat} {text other : String} (written : circuit.Written id text)
    (also : circuit.Written id other) : text = other := by
  induction written generalizing other with
  | constant found | input found =>
    cases also <;> cases found.symm.trans ‹_›
    rfl
  | sum found _ _ first second | product found _ _ first second =>
    cases also <;> cases found.symm.trans ‹_›
    rw [first ‹_›, second ‹_›]
  | shiftLeft found _ inner | shiftRight found _ inner =>
    cases also <;> cases found.symm.trans ‹_›
    rw [inner ‹_›]

end Circuit

-- A `shift` is the end of the text of a shift, after its operand.
inductive Piece where
  | node (id : Nat)
  | text (written : String)
  | shift (sign : String) (amount : UInt64)

structure Printer where
  stack : List Piece
  written : String

namespace Printer

def turn (circuit : Circuit) (printer : Printer) : Option (Except Error Unit × Printer) :=
  match printer.stack with
  | [] => some (.ok (), printer)
  | .text piece :: below => some (.ok (), ⟨below, printer.written ++ piece⟩)
  | .shift sign amount :: below =>
    some (.ok (),
      ⟨below, printer.written ++ (" " ++ sign ++ " " ++ decimal amount ++ " )")⟩)
  | .node id :: below =>
    (circuit.node? id).map fun
      | .constant value => (.ok (), ⟨below, printer.written ++ decimal value⟩)
      | .input name => (.ok (), ⟨below, printer.written ++ name⟩)
      | .binary op left right =>
        (.ok (), { printer with
          stack := .text "( " :: .node left :: .text (" " ++ op.sign ++ " ") :: .node right ::
            .text " )" :: below })
      | .shift direction operand amount =>
        (.ok (), { printer with
          stack := .text "( " :: .node operand :: .shift direction.sign amount :: below })

variable {circuit : Circuit}

def Writes (circuit : Circuit) (id : Nat) (text : String) : Prop :=
  ∀ (below : List Piece) (written : String),
    Leads (turn circuit) ⟨.node id :: below, written⟩ (.ok ()) ⟨below, written ++ text⟩

theorem text_leads (circuit : Circuit) (piece : String) (below : List Piece) (written : String) :
    Leads (turn circuit) ⟨.text piece :: below, written⟩ (.ok ()) ⟨below, written ++ piece⟩ :=
  leads_of_turn rfl

theorem binary_writes {id left right : Nat} {op : BinaryOp} {leftText rightText : String}
    (found : circuit.node? id = some (.binary op left right)) (first : Writes circuit left leftText)
    (second : Writes circuit right rightText) :
    Writes circuit id ("( " ++ leftText ++ " " ++ op.sign ++ " " ++ rightText ++ " )") := by
  intro below written
  have taken : turn circuit ⟨.node id :: below, written⟩ = some (.ok (),
      ⟨.text "( " :: .node left :: .text (" " ++ op.sign ++ " ") :: .node right :: .text " )" :: below,
        written⟩) := by
    simp only [turn, found, Option.map_some]
  have pieces := (text_leads circuit "( " _ written).trans ((first _ _).trans
    ((text_leads circuit (" " ++ op.sign ++ " ") _ _).trans ((second _ _).trans
      (text_leads circuit " )" below _))))
  have leads := leads_turn taken pieces
  simpa [String.append_assoc] using leads

theorem shift_writes {id operand : Nat} {direction : Direction} {amount : UInt64} {text : String}
    (found : circuit.node? id = some (.shift direction operand amount))
    (inner : Writes circuit operand text) :
    Writes circuit id
      ("( " ++ text ++ " " ++ direction.sign ++ " " ++ decimal amount ++ " )") := by
  intro below written
  have taken : turn circuit ⟨.node id :: below, written⟩ = some (.ok (),
      ⟨.text "( " :: .node operand :: .shift direction.sign amount :: below, written⟩) := by
    simp only [turn, found, Option.map_some]
  have last : ∀ before, Leads (turn circuit) ⟨.shift direction.sign amount :: below, before⟩ (.ok ())
      ⟨below, before ++ (" " ++ direction.sign ++ " " ++ decimal amount ++ " )")⟩ :=
    fun _ => leads_of_turn rfl
  have pieces := (text_leads circuit "( " _ written).trans ((inner _ _).trans (last _))
  have leads := leads_turn taken pieces
  simpa [String.append_assoc] using leads

theorem terminal_writes {id : Nat} {text : String}
    (taken : ∀ below written, turn circuit ⟨.node id :: below, written⟩ =
      some (.ok (), ⟨below, written ++ text⟩)) : Writes circuit id text :=
  fun below written => leads_of_turn (taken below written)

end Printer

namespace Circuit

variable {circuit : Circuit}

-- The induction is on the bound: operands stand before the gate that they are written in.
theorem renderBelow_writes (bound : Nat) {id : Nat} (below : id < bound)
    (inRange : id < circuit.size) :
    ∃ text, circuit.renderBelow bound id = some text ∧ circuit.Written id text ∧
      Printer.Writes circuit id text := by
  induction bound generalizing id with
  | zero => omega
  | succ bound ih =>
    obtain ⟨node, found⟩ := node?_of_lt_size inRange
    have operands : ∀ child ∈ node.children, ∃ text, circuit.renderBelow bound child = some text ∧
        circuit.Written child text ∧ Printer.Writes circuit child text := by
      intro child member
      have earlier := child_lt_of_node? found member
      exact ih (by omega) (by omega)
    cases node with
    | constant value =>
      refine ⟨decimal value, ?_, .constant found, Printer.terminal_writes fun _ _ => ?_⟩
      · simp only [renderBelow, found]
        rfl
      · simp only [Printer.turn, found]
        rfl
    | input name =>
      refine ⟨name, ?_, .input found, Printer.terminal_writes fun _ _ => ?_⟩
      · simp only [renderBelow, found]
        rfl
      · simp only [Printer.turn, found]
        rfl
    | binary op left right =>
      obtain ⟨leftText, leftGives, leftWritten, leftWrites⟩ := operands left (by simp [Node.children])
      obtain ⟨rightText, rightGives, rightWritten, rightWrites⟩ :=
        operands right (by simp [Node.children])
      refine ⟨_, ?_, .binary found leftWritten rightWritten,
        Printer.binary_writes found leftWrites rightWrites⟩
      simp only [renderBelow, found, Option.bind_eq_bind, Option.bind_some, leftGives, rightGives]
      rfl
    | shift direction operand amount =>
      obtain ⟨text, gives, written, writes⟩ := operands operand (by simp [Node.children])
      refine ⟨_, ?_, .shift found written, Printer.shift_writes found writes⟩
      simp only [renderBelow, found, Option.bind_eq_bind, Option.bind_some, gives]
      rfl

theorem render_written (circuit : Circuit) {root : Nat} (inRange : root < circuit.size) :
    ∃ text, circuit.render? root = some text ∧ circuit.Written root text ∧
      (∀ other, circuit.Written root other → other = text) ∧
      Leads (Printer.turn circuit) ⟨[.node root], ""⟩ (.ok ()) ⟨[], text⟩ := by
  obtain ⟨text, renders, written, writes⟩ :=
    @renderBelow_writes circuit (root + 1) root (Nat.lt_succ_self root) inRange
  refine ⟨text, renders, written, fun other also => also.unique written, ?_⟩
  simpa using writes [] ""

def shiftedSquareOfSum : Circuit where
  nodes := #[.input "a", .input "b", .sum 0 1, .product 2 2, .shift .left 3 12]
  earlier := by decide

theorem shared_sum_written_twice :
    shiftedSquareOfSum.render? 4 = some "( ( ( a + b ) * ( a + b ) ) << 12 )" ∧
      Leads (Printer.turn shiftedSquareOfSum) ⟨[.node 4], ""⟩ (.ok ())
        ⟨[], "( ( ( a + b ) * ( a + b ) ) << 12 )"⟩ := by
  obtain ⟨text, renders, _, unique, leads⟩ :=
    render_written shiftedSquareOfSum (show 4 < shiftedSquareOfSum.size by decide)
  have first : shiftedSquareOfSum.Written 0 "a" := .input rfl
  have second : shiftedSquareOfSum.Written 1 "b" := .input rfl
  have sum := Written.sum (show shiftedSquareOfSum.node? 2 = _ from rfl) first second
  have square := Written.product (show shiftedSquareOfSum.node? 3 = _ from rfl) sum sum
  have whole := Written.shiftLeft (show shiftedSquareOfSum.node? 4 = _ from rfl) square
  obtain rfl := unique _ whole
  exact ⟨renders, leads⟩

end Circuit

end ArithCircuit
