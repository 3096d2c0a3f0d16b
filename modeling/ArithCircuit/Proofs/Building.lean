import ArithCircuit.Proofs.Wires

set_option autoImplicit false

namespace ArithCircuit

-- Ways of building in a workspace, which differ in how a step can fail.
class Building (m : Type → Type) [Monad m] where
  outcome : {α : Type} → m α → Workspace → Option (α × Workspace)
  outcome_pure : ∀ {α : Type} (result : α) (workspace : Workspace),
    outcome (pure result) workspace = some (result, workspace)
  outcome_bind : ∀ {α β : Type} (first : m α) (rest : α → m β) (workspace : Workspace),
    outcome (first >>= rest) workspace =
      (outcome first workspace).bind fun reply => outcome (rest reply.1) reply.2

instance : Building Wiring where
  outcome step workspace := (step workspace).toOption
  outcome_pure _ _ := rfl
  outcome_bind first rest workspace := by
    change (Except.bind (first workspace) fun reply => rest reply.1 reply.2).toOption = _
    cases first workspace <;> rfl

instance : Building Gadget where
  outcome step workspace := (step.run workspace).toOption.bind fun reply =>
    reply.1.toOption.map fun result => (result, reply.2)
  outcome_pure _ _ := rfl
  outcome_bind first rest workspace := by
    change (Except.bind (first.run workspace) fun reply =>
      ExceptT.bindCont rest reply.1 reply.2).toOption.bind _ = _
    cases first.run workspace with
    | error => rfl
    | ok reply =>
      obtain ⟨result, next⟩ := reply
      cases result <;> rfl

theorem Wiring.run_of_outcome {α : Type} {step : Wiring α} {start next : Workspace} {result : α}
    (gives : Building.outcome step start = some (result, next)) :
    step start = .ok (result, next) := by
  change (step start).toOption = _ at gives
  cases ends : step start with
  | error fault => simp [ends, Except.toOption] at gives
  | ok reply =>
    rw [ends] at gives
    cases gives
    rfl

theorem Gadget.run_of_outcome {α : Type} {step : Gadget α} {start next : Workspace} {result : α}
    (gives : Building.outcome step start = some (result, next)) :
    step.run start = .ok (.ok result, next) := by
  change (step.run start).toOption.bind _ = _ at gives
  cases ends : step.run start with
  | error fault => simp [ends, Except.toOption] at gives
  | ok reply =>
    obtain ⟨answer, last⟩ := reply
    cases answer with
    | error refusal => simp [ends, Except.toOption] at gives
    | ok value =>
      simp only [ends, Except.toOption, Option.bind_some, Option.map_some, Option.some.injEq] at gives
      cases gives
      rfl

def Lasting (holds : Workspace → Prop) : Prop :=
  ∀ ⦃old new : Workspace⦄, old.Extends new → holds old → holds new

theorem Lasting.beside {holds : Workspace → Prop} (lasts : Lasting holds) (always : Prop) :
    Lasting fun workspace => always ∧ holds workspace :=
  fun _ _ extended both => ⟨both.1, lasts extended both.2⟩

theorem forall₂_of_extends {α β : Type} {R : Workspace → α → β → Prop}
    (lasts : ∀ a b, Lasting (R · a b)) {old new : Workspace} (extended : old.Extends new)
    {first : List α} {second : List β} (related : List.Forall₂ (R old) first second) :
    List.Forall₂ (R new) first second :=
  related.imp fun a b => lasts a b extended

def Builds {m : Type → Type} [Monad m] [Building m] {α : Type} (step : m α) (start : Workspace)
    (post : α → Workspace → Prop) : Prop :=
  ∃ result next, Building.outcome step start = some (result, next) ∧ start.Extends next ∧
    post result next

namespace Builds

variable {m : Type → Type} [Monad m] [Building m] {α β γ δ : Type} {start : Workspace}

theorem pure {result : α} {post : α → Workspace → Prop} (holds : post result start) :
    Builds (Pure.pure result : m α) start post :=
  ⟨result, start, Building.outcome_pure result start, start.extends_refl, holds⟩

theorem mono {step : m α} {post wider : α → Workspace → Prop} (builds : Builds step start post)
    (weaken : ∀ result next, start.Extends next → post result next → wider result next) :
    Builds step start wider := by
  obtain ⟨result, next, gives, extended, holds⟩ := builds
  exact ⟨result, next, gives, extended, weaken result next extended holds⟩

theorem bind {first : m α} {rest : α → m β} {middle : α → Workspace → Prop}
    {post : β → Workspace → Prop} (builds : Builds first start middle)
    (continues : ∀ result next, start.Extends next → middle result next →
      Builds (rest result) next post) :
    Builds (first >>= rest) start post := by
  obtain ⟨result, next, gives, extended, holds⟩ := builds
  obtain ⟨last, final, ends, further, reached⟩ := continues result next extended holds
  refine ⟨last, final, ?_, extended.trans further, reached⟩
  rw [Building.outcome_bind, gives]
  exact ends

theorem all {ι : Type} [Nonempty ι] {step : m α} {post : ι → α → Workspace → Prop}
    (builds : ∀ i, Builds step start (post i)) :
    Builds step start fun result next => ∀ i, post i result next := by
  obtain ⟨some⟩ := ‹Nonempty ι›
  obtain ⟨result, next, gives, extended, _⟩ := builds some
  refine ⟨result, next, gives, extended, fun i => ?_⟩
  obtain ⟨_, _, givesAlso, _, holds⟩ := builds i
  cases gives.symm.trans givesAlso
  exact holds

theorem answers {ι : Type} [Nonempty ι] {step : Gadget α} {post : ι → α → Workspace → Prop}
    (builds : ∀ i, Builds step start (post i)) :
    ∃ result later, step.run start = .ok (.ok result, later) ∧ start.Extends later ∧
      ∀ i, post i result later := by
  obtain ⟨result, later, gives, extended, holds⟩ := all builds
  exact ⟨result, later, Gadget.run_of_outcome gives, extended, holds⟩

theorem of_wiring {step : Wiring α} {post : α → Workspace → Prop} (builds : Builds step start post) :
    Builds (liftM step : Gadget α) start post := by
  obtain ⟨result, next, gives, extended, holds⟩ := builds
  refine ⟨result, next, ?_, extended, holds⟩
  change (Except.bind (step start) fun reply =>
    Except.ok (Except.ok reply.1, reply.2)).toOption.bind _ = _
  rw [Wiring.run_of_outcome gives]
  rfl

theorem mapM [LawfulMonad m] {step : α → m β} {Given : Workspace → α → γ → Prop}
    {Made : Workspace → β → δ → Prop} {f : γ → δ} (given : ∀ a c, Lasting (Given · a c))
    (made : ∀ b d, Lasting (Made · b d)) {elements : List α} {meanings : List γ}
    (each : ∀ a c now, start.Extends now → Given now a c →
      Builds (step a) now fun b next => Made next b (f c))
    (related : List.Forall₂ (Given start) elements meanings) :
    Builds (elements.mapM step) start fun results next =>
      List.Forall₂ (Made next) results (meanings.map f) := by
  induction elements generalizing start meanings with
  | nil =>
    cases related
    exact .pure .nil
  | cons a rest ih =>
    obtain _ | ⟨here, there⟩ := related
    rw [List.mapM_cons]
    apply (each a _ start start.extends_refl here).bind
    intro b next extended holds
    have later := forall₂_of_extends given extended there
    refine (ih (fun a c now ahead =>
      each a c now (extended.trans ahead)) later).bind ?_
    intro results final further reached
    exact .pure (.cons (made b _ further holds) reached)

theorem foldlM [LawfulMonad m] {step : β → α → m β} {Given : Workspace → α → γ → Prop}
    {Made : Workspace → β → δ → Prop} {f : δ → γ → δ} (given : ∀ a c, Lasting (Given · a c))
    {elements : List α} {meanings : List γ}
    (each : ∀ b d a c now, start.Extends now → Made now b d → Given now a c →
      Builds (step b a) now fun reply next => Made next reply (f d c))
    (related : List.Forall₂ (Given start) elements meanings) {initial : β} {meaning : δ}
    (made : Made start initial meaning) :
    Builds (elements.foldlM step initial) start fun final next =>
      Made next final (meanings.foldl f meaning) := by
  induction elements generalizing start meanings initial meaning with
  | nil =>
    cases related
    exact .pure made
  | cons a rest ih =>
    obtain _ | ⟨here, there⟩ := related
    rw [List.foldlM_cons]
    refine (each initial meaning a _ start start.extends_refl made here).bind ?_
    intro reply next extended holds
    have later := forall₂_of_extends given extended there
    exact ih (fun b d a c now ahead =>
      each b d a c now (extended.trans ahead)) later holds

end Builds

namespace Wiring

variable {T : Type} {reading : Reading T} {start : Workspace} {index : Nat} {x y : Wire} {a b : Bool}

theorem build_eq {α : Type} {circuit grown : Circuit} {step : Build α} {result : α}
    (held : start.circuit? index = some circuit) (gives : step circuit = some (result, grown)) :
    build index step start = .ok (result, start.put index grown) := by
  have taken : start.take? index = some (circuit, ⟨start.circuits.setIfInBounds index .empty⟩) := by
    simp [Workspace.take?, held]
  unfold build
  simp only [taken, gives, Workspace.put_of_take? taken]

theorem wire_builds {circuit : Circuit} (held : start.circuit? index = some circuit)
    {step : Build Nat} {formula : Formula}
    (yields : Yields step circuit fun id grown => circuit.Gains grown id formula)
    (reads : reading.Reads formula a) :
    Builds (wire index step) start fun out next => next.Reads reading index out a := by
  obtain ⟨id, grown, gives, gains⟩ := yields
  refine ⟨⟨index, id⟩, start.put index grown, ?_, Workspace.extends_put held gains.extended, rfl,
    grown, formula, ?_, gains.denotes, reads⟩
  · change (Except.bind (build index step start) _).toOption = _
    rw [build_eq held gives]
    rfl
  · rw [Workspace.circuit?_put held, if_pos rfl]

theorem zero_builds (reading : Reading T) (holds : start.Holds index) :
    Builds (constant index 0) start fun out next => next.Reads reading index out false := by
  obtain ⟨circuit, held⟩ := holds
  exact wire_builds held (Build.constant_yields circuit 0) reading.reads_zero

theorem one_builds (reading : Reading T) (holds : start.Holds index) :
    Builds (constant index 1) start fun out next => next.Reads reading index out true := by
  obtain ⟨circuit, held⟩ := holds
  exact wire_builds held (Build.constant_yields circuit 1) reading.reads_one

theorem add_builds (first : start.Reads reading index x a) (second : start.Reads reading index y b) :
    Builds (add x y) start fun out next => next.Reads reading index out (xor a b) := by
  obtain ⟨rfl, circuit, left, held, leftDenotes, leftReads⟩ := first
  obtain ⟨same, _, right, also, rightDenotes, rightReads⟩ := second
  cases held.symm.trans also
  rw [add, binary, if_pos same.symm]
  exact wire_builds held (Build.add_yields leftDenotes rightDenotes)
    (Reading.reads_plus leftReads rightReads)

theorem mul_builds (first : start.Reads reading index x a) (second : start.Reads reading index y b) :
    Builds (mul x y) start fun out next => next.Reads reading index out (a && b) := by
  obtain ⟨rfl, circuit, left, held, leftDenotes, leftReads⟩ := first
  obtain ⟨same, _, right, also, rightDenotes, rightReads⟩ := second
  cases held.symm.trans also
  rw [mul, binary, if_pos same.symm]
  exact wire_builds held (Build.mul_yields leftDenotes rightDenotes)
    (Reading.reads_times leftReads rightReads)

end Wiring

end ArithCircuit
