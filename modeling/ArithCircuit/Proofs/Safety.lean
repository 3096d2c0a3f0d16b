import ArithCircuit.Gadget.Logic
import ArithCircuit.Proofs.Building

set_option autoImplicit false

namespace ArithCircuit

class Stepping (m : Type → Type) [Monad m] where
  ends : {α : Type} → m α → Workspace → Except Fault (Option α × Workspace)
  ends_pure : ∀ {α : Type} (result : α) (workspace : Workspace),
    ends (pure result) workspace = .ok (some result, workspace)
  ends_bind : ∀ {α β : Type} (first : m α) (rest : α → m β) (workspace : Workspace),
    ends (first >>= rest) workspace =
      (ends first workspace).bind fun reply =>
        match reply.1 with
        | none => .ok (none, reply.2)
        | some result => ends (rest result) reply.2

instance : Stepping Wiring where
  ends step workspace := (step workspace).map fun reply => (some reply.1, reply.2)
  ends_pure _ _ := rfl
  ends_bind first rest workspace := by
    change (Except.bind (first workspace) fun reply => rest reply.1 reply.2).map _ = _
    cases first workspace <;> rfl

instance : Stepping Gadget where
  ends step workspace := (step.run workspace).map fun reply => (reply.1.toOption, reply.2)
  ends_pure _ _ := rfl
  ends_bind first rest workspace := by
    change (Except.bind (first.run workspace) fun reply =>
      ExceptT.bindCont rest reply.1 reply.2).map _ = _
    cases first.run workspace with
    | error => rfl
    | ok reply =>
      obtain ⟨result, next⟩ := reply
      cases result <;> rfl

def Mixed (used : Nat → Prop) : Prop := ∃ i j, used i ∧ used j ∧ i ≠ j

def Safe {m : Type → Type} [Monad m] [Stepping m] {α : Type} (used : Nat → Prop) (step : m α)
    (start : Workspace) (post : α → Workspace → Prop) : Prop :=
  (Stepping.ends step start = .error .differentCircuits ∧ Mixed used) ∨
    ∃ reply next, Stepping.ends step start = .ok (reply, next) ∧ start.Extends next ∧
      ∀ result, reply = some result → post result next

namespace Safe

variable {m : Type → Type} [Monad m] [Stepping m] {α β : Type} {used : Nat → Prop}
  {start : Workspace}

theorem pure {result : α} {post : α → Workspace → Prop} (holds : post result start) :
    Safe used (Pure.pure result : m α) start post := by
  refine .inr ⟨_, start, Stepping.ends_pure result start, start.extends_refl, ?_⟩
  rintro _ ⟨⟩
  exact holds

theorem bind {first : m α} {rest : α → m β} {middle : α → Workspace → Prop}
    {post : β → Workspace → Prop} (safe : Safe used first start middle)
    (continues : ∀ result next, start.Extends next → middle result next →
      Safe used (rest result) next post) :
    Safe used (first >>= rest) start post := by
  obtain ⟨fault, mixed⟩ | ⟨reply, next, ends, extended, holds⟩ := safe
  · refine .inl ⟨?_, mixed⟩
    rw [Stepping.ends_bind, fault]
    rfl
  · cases reply with
    | none =>
      refine .inr ⟨none, next, ?_, extended, nofun⟩
      rw [Stepping.ends_bind, ends]
      rfl
    | some result =>
      have onward : Stepping.ends (first >>= rest) start = Stepping.ends (rest result) next := by
        rw [Stepping.ends_bind, ends]
        rfl
      obtain ⟨fault, mixed⟩ | ⟨last, final, endsLater, further, reached⟩ :=
        continues result next extended (holds result rfl)
      · exact .inl ⟨onward.trans fault, mixed⟩
      · exact .inr ⟨last, final, onward.trans endsLater, extended.trans further, reached⟩

theorem mapM [LawfulMonad m] {step : α → m β} {elements : List α} {made : β → Workspace → Prop}
    (lasts : ∀ result, Lasting (made result ·))
    (each : ∀ element ∈ elements, ∀ now, start.Extends now → Safe used (step element) now made) :
    Safe used (elements.mapM step) start fun results next => ∀ result ∈ results, made result next := by
  induction elements generalizing start with
  | nil => exact .pure nofun
  | cons element rest ih =>
    rw [List.mapM_cons]
    apply (each element List.mem_cons_self start start.extends_refl).bind
    intro result next extended holds
    apply (ih fun other member now ahead =>
      each other (List.mem_cons_of_mem _ member) now (extended.trans ahead)).bind
    intro results final further others
    exact .pure (List.forall_mem_cons.mpr ⟨lasts result further holds, others⟩)

theorem foldlM [LawfulMonad m] {step : β → α → m β} {elements : List α}
    {kept : β → Workspace → Prop}
    (each : ∀ element ∈ elements, ∀ soFar now, start.Extends now → kept soFar now →
      Safe used (step soFar element) now kept) {initial : β} (holds : kept initial start) :
    Safe used (elements.foldlM step initial) start kept := by
  induction elements generalizing start initial with
  | nil => exact .pure holds
  | cons element rest ih =>
    rw [List.foldlM_cons]
    apply (each element List.mem_cons_self initial start start.extends_refl holds).bind
    intro soFar next extended keptSoFar
    exact ih (fun other member result now ahead =>
      each other (List.mem_cons_of_mem _ member) result now (extended.trans ahead)) keptSoFar

theorem of_wiring {step : Wiring α} {post : α → Workspace → Prop} (safe : Safe used step start post) :
    Safe used (liftM step : Gadget α) start post := by
  have same : Stepping.ends (liftM step : Gadget α) start = Stepping.ends step start := by
    change Except.map _ (Except.bind (step start) fun reply =>
      Except.ok (Except.ok reply.1, reply.2)) = Except.map _ (step start)
    cases step start <;> rfl
  rwa [Safe, same]

theorem refusal (refusal : Error) (post : α → Workspace → Prop) :
    Safe used (throw refusal : Gadget α) start post :=
  .inr ⟨none, start, rfl, start.extends_refl, nofun⟩

theorem check {check : Except Error β} {rest : β → Gadget α} {post : α → Workspace → Prop}
    (continues : ∀ found, check = .ok found → Safe used (rest found) start post) :
    Safe used ((liftM check : Gadget β) >>= rest) start post := by
  cases check with
  | error refusal => exact .refusal refusal post
  | ok found => exact continues found rfl

theorem ends_of_map {ρ : Type} {outcome : Except Fault (ρ × Workspace)} {view : ρ → Option α}
    {post : α → Workspace → Prop}
    (safe : (outcome.map (fun reply => (view reply.1, reply.2)) = .error .differentCircuits ∧
        Mixed used) ∨
      ∃ reply next, outcome.map (fun reply => (view reply.1, reply.2)) = .ok (reply, next) ∧
        start.Extends next ∧ ∀ result, reply = some result → post result next) :
    (outcome = .error .differentCircuits ∧ Mixed used) ∨
      ∃ reply next, outcome = .ok (reply, next) ∧ start.Extends next ∧
        ∀ result, view reply = some result → post result next := by
  cases outcome with
  | error fault =>
    obtain ⟨same, mixed⟩ | ⟨_, _, same, _⟩ := safe
    · cases same
      exact .inl ⟨rfl, mixed⟩
    · cases same
  | ok reply =>
    obtain ⟨same, _⟩ | ⟨_, _, same, extended, holds⟩ := safe
    · cases same
    · cases same
      exact .inr ⟨_, _, rfl, extended, holds⟩

theorem wiring_ends {step : Wiring α} {post : α → Workspace → Prop}
    (safe : Safe used step start post) :
    (step start = .error .differentCircuits ∧ Mixed used) ∨
      ∃ result next, step start = .ok (result, next) ∧ start.Extends next ∧ post result next := by
  obtain fault | ⟨result, next, ends, extended, holds⟩ := ends_of_map safe
  · exact .inl fault
  · exact .inr ⟨result, next, ends, extended, holds result rfl⟩

theorem gadget_ends {step : Gadget α} {post : α → Workspace → Prop}
    (safe : Safe used step start post) :
    (step.run start = .error .differentCircuits ∧ Mixed used) ∨
      ∃ reply next, step.run start = .ok (reply, next) ∧ start.Extends next ∧
        ∀ result, reply = .ok result → post result next := by
  obtain fault | ⟨reply, next, ends, extended, holds⟩ := ends_of_map safe
  · exact .inl fault
  · refine .inr ⟨reply, next, ends, extended, fun result answers => holds result ?_⟩
    rw [answers]
    rfl

end Safe

namespace Workspace

def Has (workspace : Workspace) (used : Nat → Prop) (wire : Wire) : Prop :=
  used wire.circuit ∧ workspace.Owns wire.circuit wire

abbrev HasAll (workspace : Workspace) (used : Nat → Prop) (wires : List Wire) : Prop :=
  ∀ wire ∈ wires, workspace.Has used wire

abbrev HasLists (workspace : Workspace) (used : Nat → Prop) (elements : List (List Wire)) : Prop :=
  ∀ element ∈ elements, workspace.HasAll used element

abbrev HasPairs (workspace : Workspace) (used : Nat → Prop) (pairs : List (Wire × Wire)) : Prop :=
  ∀ pair ∈ pairs, workspace.Has used pair.1 ∧ workspace.Has used pair.2

variable {used : Nat → Prop} {old new : Workspace}

theorem Has.holds {wire : Wire} (has : old.Has used wire) : old.Holds wire.circuit := by
  obtain ⟨_, _, circuit, held, _⟩ := has
  exact ⟨circuit, held⟩

theorem Has.of_extends (extended : old.Extends new) {wire : Wire} (has : old.Has used wire) :
    new.Has used wire := by
  obtain ⟨uses, _, circuit, held, inRange⟩ := has
  obtain ⟨grown, heldLater, further⟩ := extended wire.circuit circuit held
  exact ⟨uses, rfl, grown, heldLater, inRange.trans_le (Circuit.size_le_of_extends further)⟩

theorem hasAll_pair {x y : Wire} :
    old.HasAll used [x, y] ↔ old.Has used x ∧ old.Has used y :=
  List.forall_mem_cons.trans (and_congr_right fun _ => List.forall_mem_singleton)

theorem has_lasting (wire : Wire) : Lasting (Has · used wire) :=
  fun _ _ extended has => has.of_extends extended

theorem HasAll.of_extends (extended : old.Extends new) {wires : List Wire}
    (all : old.HasAll used wires) : new.HasAll used wires :=
  fun wire member => (all wire member).of_extends extended

theorem hasAll_lasting (wires : List Wire) : Lasting (HasAll · used wires) :=
  fun _ _ extended all => HasAll.of_extends extended all

theorem HasLists.of_extends (extended : old.Extends new) {elements : List (List Wire)}
    (all : old.HasLists used elements) : new.HasLists used elements :=
  fun element member => HasAll.of_extends extended (all element member)

theorem hasPair_lasting (pair : Wire × Wire) :
    Lasting fun workspace => workspace.Has used pair.1 ∧ workspace.Has used pair.2 :=
  fun _ _ extended has => has.imp (Has.of_extends extended) (Has.of_extends extended)

theorem HasPairs.of_extends (extended : old.Extends new) {pairs : List (Wire × Wire)}
    (all : old.HasPairs used pairs) : new.HasPairs used pairs :=
  fun pair member => hasPair_lasting pair extended (all pair member)

theorem hasPairs_of_zip {xs ys : List Wire} (left : old.HasAll used xs) (right : old.HasAll used ys) :
    old.HasPairs used (xs.zip ys) := by
  rintro ⟨x, y⟩ member
  obtain ⟨first, second⟩ := List.of_mem_zip member
  exact ⟨left x first, right y second⟩

end Workspace

namespace Safe

variable {m : Type → Type} [Monad m] [Stepping m] {used : Nat → Prop} {start : Workspace}

theorem singleton {step : m Wire}
    (safe : Safe used step start fun out next => next.Has used out) :
    Safe used (do return [← step]) start fun outs next => next.HasAll used outs :=
  safe.bind fun _ _ _ has => .pure (List.forall_mem_singleton.mpr has)

theorem flatten {step : m (List (List Wire))}
    (safe : Safe used step start fun outs next => next.HasLists used outs) :
    Safe used (do return (← step).flatten) start fun outs next => next.HasAll used outs :=
  safe.bind fun _ _ _ all => .pure (List.forall_mem_flatten.mpr all)

end Safe

namespace Wiring

variable {used : Nat → Prop} {start : Workspace} {index : Nat} {x y : Wire}

theorem wire_safe {circuit : Circuit} (uses : used index)
    (held : start.circuit? index = some circuit) {step : Build Nat} {formula : Formula}
    (yields : Yields step circuit fun id grown => circuit.Gains grown id formula) :
    Safe used (wire index step) start fun out next => next.Has used out := by
  obtain ⟨id, grown, gives, gains⟩ := yields
  refine .inr ⟨some ⟨index, id⟩, start.put index grown, ?_,
    Workspace.extends_put held gains.extended, ?_⟩
  · change (Except.bind (build index step start) _).map _ = _
    rw [build_eq held gives]
    rfl
  · rintro _ ⟨⟩
    refine ⟨uses, rfl, grown, ?_, Circuit.lt_size_of_denotes gains.denotes⟩
    rw [Workspace.circuit?_put held, if_pos rfl]

theorem constant_safe (uses : used index) (holds : start.Holds index) (value : UInt64) :
    Safe used (constant index value) start fun out next => next.Has used out := by
  obtain ⟨circuit, held⟩ := holds
  exact wire_safe uses held (Build.constant_yields circuit value)

theorem lift_safe (has : start.Has used x) (value : UInt64) :
    Safe used (x.lift value) start fun out next => next.Has used out :=
  constant_safe has.1 has.holds value

theorem binary_safe (op : BinaryOp) (first : start.Has used x) (second : start.Has used y) :
    Safe used (binary op x y) start fun out next => next.Has used out := by
  rw [binary]
  by_cases same : x.circuit = y.circuit
  · rw [if_pos same]
    obtain ⟨uses, _, circuit, held, leftInRange⟩ := first
    obtain ⟨_, _, _, also, rightInRange⟩ := second
    rw [← same, held] at also
    cases also
    obtain ⟨left, leftDenotes⟩ := circuit.formula?_of_lt_size leftInRange
    obtain ⟨right, rightDenotes⟩ := circuit.formula?_of_lt_size rightInRange
    cases op with
    | add => exact wire_safe uses held (Build.add_yields leftDenotes rightDenotes)
    | mul => exact wire_safe uses held (Build.mul_yields leftDenotes rightDenotes)
  · rw [if_neg same]
    exact .inl ⟨rfl, _, _, first.1, second.1, same⟩

theorem shift_safe (direction : Direction) (amount : UInt64) (has : start.Has used x) :
    Safe used (shift direction x amount) start fun out next => next.Has used out := by
  obtain ⟨uses, _, circuit, held, inRange⟩ := has
  obtain ⟨inner, denotes⟩ := circuit.formula?_of_lt_size inRange
  exact wire_safe uses held (Build.shift_yields direction amount denotes)

end Wiring

end ArithCircuit
