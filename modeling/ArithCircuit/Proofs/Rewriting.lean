import ArithCircuit.Proofs.Refinement
import ArithCircuit.Proofs.Schedule
import ArithCircuit.Rewrite.Rewriter

set_option autoImplicit false

namespace ArithCircuit

theorem Node.mapChildren?_of_kept {f : Nat → Option Nat} {node : Node}
    (kept : ∀ child ∈ node.children, f child = some child) : node.mapChildren? f = some node := by
  cases node with
  | constant | input => rfl
  | binary op left right =>
    simp [mapChildren?, kept left (by simp [children]), kept right (by simp [children])]
  | shift direction operand amount => simp [mapChildren?, kept operand (by simp [children])]

namespace Forms

-- Forms are only ever added, so a form once given to a node stays.
def Within (smaller larger : Forms) : Prop :=
  ∀ id form : Nat, smaller[id]? = some form → larger[id]? = some form

theorem within_refl (forms : Forms) : Within forms forms := fun _ _ found => found

theorem Within.trans {first second third : Forms} (start : Within first second)
    (next : Within second third) : Within first third :=
  fun id form found => next id form (start id form found)

theorem within_insert {forms : Forms} {id : Nat} (isOpen : forms[id]? = none) (form : Nat) :
    Within forms (forms.insert id form) :=
  fun _ _ found => insert_of_absent isOpen found

variable {R : Formula → Formula → Prop}

def Related (R : Formula → Formula → Prop) (circuit : Circuit) (forms : Forms) : Prop :=
  ∀ id form, forms[id]? = some form → circuit.Relates R id form

theorem empty_related (circuit : Circuit) : Related R circuit ∅ := by
  intro id form found
  simp at found

theorem related_of_extends {old new : Circuit} {forms : Forms} (extended : old.Extends new)
    (related : Related R old forms) : Related R new forms :=
  fun id form found => (related id form found).of_extends extended

theorem insert_related {circuit : Circuit} {forms : Forms} {id form : Nat}
    (related : Related R circuit forms) (relates : circuit.Relates R id form) :
    Related R circuit (forms.insert id form) := by
  intro other known found
  rcases found_in_insert found with ⟨rfl, rfl⟩ | older
  · exact relates
  · exact related other known older

theorem Related.form_of_mem {circuit : Circuit} {forms : Forms} {id : Nat} {formula : Formula}
    (related : Related R circuit forms) (denotes : circuit.Denotes id formula) (known : id ∈ forms) :
    ∃ form result, forms[id]? = some form ∧ circuit.Denotes form result ∧ R formula result := by
  have found := Std.HashMap.getElem?_eq_some_getElem known
  obtain ⟨result, formDenotes, holds⟩ := (related id _ found).result_of_denotes denotes
  exact ⟨_, result, found, formDenotes, holds⟩

theorem Related.forms_of_mem {circuit : Circuit} {forms : Forms} {ids : List Nat}
    {formulas : List Formula} (related : Related R circuit forms)
    (denote : List.Forall₂ circuit.Denotes ids formulas) (known : ∀ id ∈ ids, id ∈ forms) :
    ∃ operands results, ids.mapM (fun id => forms[id]?) = some operands ∧
      List.Forall₂ circuit.Denotes operands results ∧ List.Forall₂ R formulas results := by
  induction denote with
  | nil => exact ⟨[], [], rfl, .nil, .nil⟩
  | @cons id formula ids formulas denotes _ ih =>
    obtain ⟨form, result, found, formDenotes, holds⟩ :=
      related.form_of_mem denotes (known id List.mem_cons_self)
    obtain ⟨operands, results, looked, operandsDenote, allHold⟩ :=
      ih fun other member => known other (List.mem_cons_of_mem id member)
    refine ⟨form :: operands, result :: results, ?_, .cons formDenotes operandsDenote,
      .cons holds allHold⟩
    simp [List.mapM_cons, found, looked]

theorem Related.forms_of_binary {circuit : Circuit} {forms : Forms} {id left right : Nat}
    {op : BinaryOp} {formula : Formula} (related : Related R circuit forms)
    (found : circuit.node? id = some (.binary op left right)) (denotes : circuit.Denotes id formula)
    (known : ∀ child ∈ circuit.children id, child ∈ forms) :
    ∃ first second, formula = .binary op first second ∧
      (∃ form result, forms[left]? = some form ∧ circuit.Denotes form result ∧ R first result) ∧
      ∃ form result, forms[right]? = some form ∧ circuit.Denotes form result ∧ R second result := by
  rw [Circuit.children_of_node? found] at known
  obtain ⟨first, second, same, leftDenotes, rightDenotes⟩ := Circuit.denotes_binary found denotes
  exact ⟨first, second, same,
    related.form_of_mem leftDenotes (known left (by simp [Node.children])),
    related.form_of_mem rightDenotes (known right (by simp [Node.children]))⟩

theorem Related.mapChildren? {circuit : Circuit} {forms : Forms} {id : Nat} {node : Node}
    {formula : Formula} (related : Related R circuit forms)
    (found : circuit.node? id = some node) (denotes : circuit.Denotes id formula)
    (known : ∀ child ∈ circuit.children id, child ∈ forms) :
    ∃ new result, node.mapChildren? (fun child => forms[child]?) = some new ∧
      Formula.ofNode? circuit.formula? new = some result ∧ Formula.Layer R formula result := by
  cases node with
  | constant value =>
    obtain rfl := Option.some.inj ((Circuit.formula?_of_node? found).symm.trans denotes)
    exact ⟨_, _, rfl, rfl, .constant value⟩
  | input name =>
    obtain rfl := Option.some.inj ((Circuit.formula?_of_node? found).symm.trans denotes)
    exact ⟨_, _, rfl, rfl, .input name⟩
  | binary op left right =>
    obtain ⟨first, second, rfl, newLeftForm, newRightForm⟩ :=
      related.forms_of_binary found denotes known
    obtain ⟨newLeft, newFirst, leftFound, newLeftDenotes, leftHolds⟩ := newLeftForm
    obtain ⟨newRight, newSecond, rightFound, newRightDenotes, rightHolds⟩ := newRightForm
    refine ⟨.binary op newLeft newRight, .binary op newFirst newSecond, ?_, ?_,
      .binary op leftHolds rightHolds⟩
    · simp [Node.mapChildren?, leftFound, rightFound]
    · simp [Formula.ofNode?, newLeftDenotes, newRightDenotes]
  | shift direction operand amount =>
    rw [Circuit.children_of_node? found] at known
    obtain ⟨inner, rfl, operandDenotes⟩ := Circuit.denotes_shift found denotes
    obtain ⟨newOperand, newInner, operandFound, newDenotes, holds⟩ :=
      related.form_of_mem operandDenotes (known operand (by simp [Node.children]))
    refine ⟨.shift direction newOperand amount, .shift direction newInner amount, ?_, ?_,
      .shift direction amount holds⟩
    · simp [Node.mapChildren?, operandFound]
    · simp [Formula.ofNode?, newDenotes]

end Forms

structure Circuit.Rewrites (R : Formula → Formula → Prop) (old new : Circuit) (root form : Nat) :
    Prop where
  extended : old.Extends new
  inRange : root < old.size
  relates : new.Relates R root form

theorem Circuit.Rewrites.form_lt_size {R : Formula → Formula → Prop} {old new : Circuit}
    {root form : Nat} (rewrites : old.Rewrites R new root form) : form < new.size := by
  obtain ⟨_, _, _, formDenotes, _⟩ := rewrites.relates
  exact lt_size_of_denotes formDenotes

theorem Circuit.Rewrites.preserves {laws : ∀ {T : Type}, Domain T → Prop} {old new : Circuit}
    {root form : Nat} (rewrites : old.Rewrites (Formula.Refines laws) new root form) {T : Type}
    {domain : Domain T} (holds : laws domain) {inputs : String → Option T} {value : T}
    (evaluates : old.eval? domain inputs root = some (.ok value)) :
    new.eval? domain inputs form = some (.ok value) := by
  obtain ⟨formula, rootDenotes⟩ := old.formula?_of_lt_size rewrites.inRange
  obtain ⟨result, formDenotes, refines⟩ :=
    rewrites.relates.result_of_denotes (denotes_of_extends rewrites.extended rootDenotes)
  rw [eval?_of_denotes domain inputs rootDenotes] at evaluates
  rw [eval?_of_denotes domain inputs formDenotes,
    refines T domain holds inputs value (Option.some.inj evaluates)]

theorem Build.lift_eq {α : Type} {lookup : Option α} {result : α} (found : lookup = some result)
    (circuit : Circuit) : (liftM lookup : Build α) circuit = some (result, circuit) := by
  rw [found]
  rfl

theorem Build.relinked_yields {R : Formula → Formula → Prop} {circuit : Circuit} {forms : Forms}
    {id : Nat} {formula : Formula} (related : forms.Related R circuit)
    (denotes : circuit.Denotes id formula)
    (known : ∀ child ∈ circuit.children id, child ∈ forms) :
    Yields (Build.relinked forms id) circuit fun form grown =>
      (form = id ∨ form = circuit.size) ∧
        ∃ result, circuit.Gains grown form result ∧ Formula.Layer R formula result := by
  obtain ⟨node, found, _⟩ := Circuit.denotes_iff.mp denotes
  obtain ⟨new, result, mapped, layer, holds⟩ := related.mapChildren? found denotes known
  refine .after (Build.node_eq found) (.after (Build.lift_eq mapped circuit) ?_)
  by_cases unchanged : new = node
  · rw [if_pos unchanged]
    subst unchanged
    have resultDenotes : circuit.Denotes id result := (Circuit.formula?_of_node? found).trans layer
    exact .intro rfl ⟨.inl rfl, result, .unchanged resultDenotes, holds⟩
  · rw [if_neg unchanged]
    exact (Build.append_yields layer).mono fun form grown appended =>
      ⟨.inr appended.1, result, appended.2.2, holds⟩

theorem Forms.getElem?_of_unknown {forms : Forms} {id : Nat} (unknown : forms.contains id = false) :
    forms[id]? = none := by
  rw [Std.HashMap.contains_eq_isSome_getElem?] at unknown
  exact Option.isNone_iff_eq_none.mp (Option.isSome_eq_false_iff.mp unknown)

namespace Rewriter

variable {σ : Type}

-- A node is rebuilt once the nodes that it depends on have their forms. The invariant then holds with
-- the new form entered.
def RebuildKeeps (start : Circuit) (dependencies : Nat → List Nat) (Listed : Nat → Prop)
    (Inv : Circuit → Rewriter σ → Prop) (rebuild : Forms → Nat → StateT σ Build Nat) : Prop :=
  ∀ circuit rewriter id, start.Extends circuit → Listed id →
    rewriter.forms[id]? = none → (∀ dependency ∈ dependencies id, dependency ∈ rewriter.forms) →
    Inv circuit rewriter →
    Yields (rebuild rewriter.forms id rewriter.memory) circuit fun reply grown =>
      circuit.Extends grown ∧ Inv grown ⟨rewriter.forms.insert id reply.1, reply.2⟩

def RebuildRelates (R : Formula → Formula → Prop) (MemoryRight : Circuit → σ → Prop)
    (rebuild : Forms → Nat → StateT σ Build Nat) : Prop :=
  ∀ circuit forms memory id formula, forms.Related R circuit → MemoryRight circuit memory →
    circuit.Denotes id formula → (∀ child ∈ circuit.children id, child ∈ forms) →
    Yields (rebuild forms id memory) circuit fun reply grown =>
      circuit.Extends grown ∧ MemoryRight grown reply.2 ∧
        ∃ result, grown.Denotes reply.1 result ∧ R formula result

section Runs

variable {dependencies : Nat → List Nat} {rebuild : Forms → Nat → StateT σ Build Nat}
  {Inv : Circuit → Rewriter σ → Prop} {start : Circuit} {Listed : Nat → Prop}

theorem steps_yield {ready : Nat → Prop} {order : List Nat}
    (inOrder : InOrder dependencies ready order) (once : order.Nodup)
    (listed : ∀ id ∈ order, Listed id)
    (keeps : RebuildKeeps start dependencies Listed Inv rebuild)
    {circuit : Circuit} {rewriter : Rewriter σ} (extended : start.Extends circuit)
    (known : ∀ id, ready id → id ∈ rewriter.forms)
    (isOpen : ∀ id ∈ order, rewriter.forms[id]? = none) (holds : Inv circuit rewriter) :
    Yields (order.foldlM (step rebuild) rewriter) circuit fun next grown =>
      circuit.Extends grown ∧ Inv grown next ∧ ∀ id, ready id ∨ id ∈ order → id ∈ next.forms := by
  induction inOrder generalizing circuit rewriter with
  | nil ready =>
    exact .intro rfl ⟨circuit.extends_refl, holds, fun id member => known id (by simpa using member)⟩
  | cons ready id rest first _ ih =>
    obtain ⟨notAgain, restOnce⟩ := List.nodup_cons.mp once
    have rebuilt := keeps circuit rewriter id extended (listed id List.mem_cons_self)
      (isOpen id List.mem_cons_self) (fun dependency member => known _ (first dependency member))
      holds
    obtain ⟨⟨form, memory⟩, grown, gives, further, kept⟩ := rebuilt
    have stepped : step rebuild rewriter id circuit =
        some (⟨rewriter.forms.insert id form, memory⟩, grown) := by
      change (rebuild rewriter.forms id rewriter.memory circuit).bind _ = _
      rw [gives]
      rfl
    rw [List.foldlM_cons]
    refine .after stepped ?_
    have restKnown : ∀ other, ready other ∨ other = id → other ∈ rewriter.forms.insert id form := by
      rintro other (before | rfl)
      · exact Std.HashMap.mem_insert.mpr (.inr (known other before))
      · exact Std.HashMap.mem_insert_self
    have restOpen : ∀ other ∈ rest, (rewriter.forms.insert id form)[other]? = none := by
      intro other member
      have different : id ≠ other := by
        intro same
        subst same
        exact notAgain member
      rw [Std.HashMap.getElem?_insert, if_neg (by simpa using different)]
      exact isOpen other (List.mem_cons_of_mem id member)
    have continues := ih restOnce
      (fun other member => listed other (List.mem_cons_of_mem id member))
      (Circuit.extends_trans extended further) restKnown restOpen kept
    refine continues.mono ?_
    intro next final finished
    obtain ⟨later, finally_, complete⟩ := finished
    refine ⟨Circuit.extends_trans further later, finally_, fun other member => complete other ?_⟩
    simpa [or_assoc] using member

-- What the root passes on to everything that it depends on holds of every node that is rebuilt. The
-- invariant is kept by every part of the run.
theorem part_yields (earlier : ∀ id, ∀ dependency ∈ dependencies id, dependency < id)
    (inherited : ∀ id, Listed id → ∀ dependency ∈ dependencies id, Listed dependency)
    {root : Nat} (rootListed : Listed root)
    (keeps : RebuildKeeps start dependencies Listed Inv rebuild)
    {rewriter : Rewriter σ} (holds : Inv start rewriter) {before after : List Nat}
    (split : schedule dependencies rewriter.forms.contains root = before ++ after) :
    Yields (before.foldlM (step rebuild) rewriter) start fun next grown =>
      start.Extends grown ∧ Inv grown next ∧
        ∀ id, rewriter.forms.contains id = true ∨ id ∈ before → id ∈ next.forms := by
  have scheduled := schedule_scheduled dependencies rewriter.forms.contains earlier root
  have listed : ∀ id ∈ schedule dependencies rewriter.forms.contains root, Listed id :=
    schedule_only (fun id _ => inherited id) rootListed
  rw [split] at scheduled listed
  have isOpen : ∀ id ∈ before, rewriter.forms[id]? = none := fun id member =>
    Forms.getElem?_of_unknown (scheduled.isOpen id (List.mem_append_left after member))
  exact steps_yield scheduled.inOrder.of_append (List.nodup_append.mp scheduled.once).1
    (fun id member => listed id (List.mem_append_left after member)) keeps start.extends_refl
    (fun id => Std.HashMap.contains_iff_mem.mp) isOpen holds

theorem run_yields (earlier : ∀ id, ∀ dependency ∈ dependencies id, dependency < id)
    (inherited : ∀ id, Listed id → ∀ dependency ∈ dependencies id, Listed dependency)
    {root : Nat} (rootListed : Listed root)
    (keeps : RebuildKeeps start dependencies Listed Inv rebuild)
    {rewriter : Rewriter σ} (holds : Inv start rewriter) :
    Yields (run dependencies rebuild root rewriter) start fun reply grown =>
      start.Extends grown ∧ Inv grown reply.2 ∧ reply.2.forms[root]? = some reply.1 := by
  have scheduled := schedule_scheduled dependencies rewriter.forms.contains earlier root
  obtain ⟨next, grown, folded, extended, kept, complete⟩ :=
    part_yields earlier inherited rootListed keeps holds (List.append_nil _).symm
  have found := Std.HashMap.getElem?_eq_some_getElem (complete root scheduled.root)
  exact .after folded (.after (Build.lift_eq found grown) (.intro rfl ⟨extended, kept, found⟩))

theorem RebuildRelates.keeps {R : Formula → Formula → Prop} {MemoryRight : Circuit → σ → Prop}
    (relates : RebuildRelates R MemoryRight rebuild) (start : Circuit) :
    RebuildKeeps start start.children (· < start.size)
      (fun circuit rewriter => rewriter.forms.Related R circuit ∧ MemoryRight circuit rewriter.memory)
      rebuild := by
  intro circuit rewriter id extended below _ known right
  obtain ⟨formsRelated, memoryRight⟩ := right
  obtain ⟨formula, denotes⟩ := circuit.formula?_of_lt_size
    (Nat.lt_of_lt_of_le below (Circuit.size_le_of_extends extended))
  rw [← Circuit.children_of_extends extended below] at known
  refine (relates circuit rewriter.forms rewriter.memory id formula formsRelated memoryRight denotes
    known).mono ?_
  intro reply grown finished
  obtain ⟨further, kept, result, formDenotes, holds⟩ := finished
  refine ⟨further, ?_, kept⟩
  exact Forms.insert_related (Forms.related_of_extends further formsRelated)
    ⟨formula, result, Circuit.denotes_of_extends further denotes, formDenotes, holds⟩

theorem run_related {R : Formula → Formula → Prop} {MemoryRight : Circuit → σ → Prop}
    (relates : RebuildRelates R MemoryRight rebuild)
    {root : Nat} (inRange : root < start.size) {rewriter : Rewriter σ}
    (related : rewriter.forms.Related R start) (memoryRight : MemoryRight start rewriter.memory) :
    Yields (run start.children rebuild root rewriter) start fun reply grown =>
      start.Rewrites R grown root reply.1 ∧ reply.2.forms.Related R grown ∧
        MemoryRight grown reply.2.memory := by
  refine (run_yields (fun _ _ => start.lt_of_mem_children)
    (fun _ below _ member => Nat.lt_trans (start.lt_of_mem_children member) below) inRange
    (relates.keeps start) ⟨related, memoryRight⟩).mono ?_
  intro reply grown finished
  obtain ⟨extended, ⟨formsRelated, right⟩, found⟩ := finished
  exact ⟨⟨extended, inRange, formsRelated root _ found⟩, formsRelated, right⟩

end Runs

theorem inMemory_yields {α : Type} {step : StateT σ Build α} {rewriter : Rewriter σ}
    {circuit : Circuit} {post : α × σ → Circuit → Prop}
    (yields : Yields (step rewriter.memory) circuit post) :
    Yields (inMemory step rewriter) circuit fun reply grown =>
      reply.2.forms = rewriter.forms ∧ post (reply.1, reply.2.memory) grown :=
  yields.bind fun _ _ holds => .intro rfl ⟨rfl, holds⟩

end Rewriter

-- The circuits and states that calls with one pass object lead to, with anything else that appends
-- nodes in between.
inductive Session {σ : Type} (call : Nat → StateT σ Build Nat) (initial : σ) : Circuit → σ → Prop where
  | start (circuit : Circuit) : Session call initial circuit initial
  | grow {circuit larger : Circuit} {state : σ} (before : Session call initial circuit state)
      (extended : circuit.Extends larger) : Session call initial larger state
  | call {circuit grown : Circuit} {state next : σ} {root form : Nat}
      (before : Session call initial circuit state) (inRange : root < circuit.size)
      (gives : call root state circuit = some ((form, next), grown)) :
      Session call initial grown next

theorem Session.invariant {σ : Type} {call : Nat → StateT σ Build Nat} {initial : σ}
    {Inv : Circuit → σ → Prop} (start : ∀ circuit, Inv circuit initial)
    (grow : ∀ circuit larger state, circuit.Extends larger → Inv circuit state → Inv larger state)
    (call_ : ∀ circuit state root, root < circuit.size → Inv circuit state →
      Yields (call root state) circuit fun reply grown => Inv grown reply.2)
    {circuit : Circuit} {state : σ} (session : Session call initial circuit state) :
    Inv circuit state := by
  induction session with
  | start circuit => exact start circuit
  | grow _ extended ih => exact grow _ _ _ extended ih
  | call _ inRange gives ih =>
    obtain ⟨reply, after, also, holds⟩ := call_ _ _ _ inRange ih
    obtain ⟨rfl, rfl⟩ := Prod.mk.inj (Option.some.inj (also.symm.trans gives))
    exact holds

end ArithCircuit
