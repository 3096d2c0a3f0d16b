import ArithCircuit.Pairing
import ArithCircuit.Proofs.Steps

set_option autoImplicit false

namespace ArithCircuit

-- `Grows` relates a state to every later one, and a reading stays right in later states.
structure Mirrors {S α β : Type} (join : α → α → StateT S Option α) (joinReadings : β → β → Id β)
    (Grows : S → S → Prop) (Reads : S → α → β → Prop) : Prop where
  refl : ∀ s, Grows s s
  trans : ∀ s t u, Grows s t → Grows t u → Grows s u
  persists : ∀ s t a b, Grows s t → Reads s a b → Reads t a b
  join : ∀ s a a' b b', Reads s a b → Reads s a' b' →
    Yields (join a a') s fun joined t => Grows s t ∧ Reads t joined (joinReadings b b').run

namespace Mirrors

variable {S α β : Type} {join : α → α → StateT S Option α} {joinReadings : β → β → Id β}
  {Grows : S → S → Prop} {Reads : S → α → β → Prop}

theorem joinNeighbours (mirrors : Mirrors join joinReadings Grows Reads) :
    ∀ {elements : List α} {readings : List β} {start : S},
      List.Forall₂ (Reads start) elements readings →
      Yields (joinNeighbours join elements) start fun results final =>
        Grows start final ∧
          List.Forall₂ (Reads final) results (ArithCircuit.joinNeighbours joinReadings readings).run
  | [], _, start, .nil => .intro rfl ⟨mirrors.refl start, .nil⟩
  | [_], _, start, .cons reads .nil => .intro rfl ⟨mirrors.refl start, .cons reads .nil⟩
  | _ :: _ :: _, _, _, .cons first (.cons second others) => by
    refine .bind (mirrors.join _ _ _ _ _ first second) ?_
    intro joined next finished
    obtain ⟨grown, here⟩ := finished
    have kept := others.imp fun _ _ => mirrors.persists _ _ _ _ grown
    refine .bind (mirrors.joinNeighbours kept) ?_
    intro results final finished
    obtain ⟨further, there⟩ := finished
    exact .intro rfl
      ⟨mirrors.trans _ _ _ grown further, .cons (mirrors.persists _ _ _ _ further here) there⟩

theorem joinLayers (mirrors : Mirrors join joinReadings Grows Reads) (rounds : Nat)
    {elements : List α} {readings : List β} {start : S}
    (reads : List.Forall₂ (Reads start) elements readings) :
    Yields (joinLayers join rounds elements) start fun result final =>
      Grows start final ∧
        Option.Rel (Reads final) result (ArithCircuit.joinLayers joinReadings rounds readings).run := by
  induction rounds generalizing elements readings start with
  | zero =>
    cases reads with
    | nil => exact .intro rfl ⟨mirrors.refl start, .none⟩
    | cons first rest =>
      cases rest with
      | nil => exact .intro rfl ⟨mirrors.refl start, .some first⟩
      | cons second others => exact .intro rfl ⟨mirrors.refl start, .none⟩
  | succ rounds ih =>
    cases reads with
    | nil => exact .intro rfl ⟨mirrors.refl start, .none⟩
    | cons first rest =>
      cases rest with
      | nil => exact .intro rfl ⟨mirrors.refl start, .some first⟩
      | cons second others =>
        refine .bind (mirrors.joinNeighbours (.cons first (.cons second others))) ?_
        intro layer next finished
        obtain ⟨grown, kept⟩ := finished
        exact (ih kept).mono fun result final holds =>
          ⟨mirrors.trans _ _ _ grown holds.1, holds.2⟩

theorem joinBalanced (mirrors : Mirrors join joinReadings Grows Reads) {elements : List α}
    {readings : List β} {start : S} (reads : List.Forall₂ (Reads start) elements readings) :
    Yields (joinBalanced join elements) start fun result final =>
      Grows start final ∧
        Option.Rel (Reads final) result (ArithCircuit.joinBalanced joinReadings readings).run := by
  have joined := mirrors.joinLayers elements.length reads
  unfold ArithCircuit.joinBalanced
  rw [← reads.length_eq]
  exact joined

end Mirrors

section Flattening

variable {α : Type}

def joinLists (left right : List α) : Id (List α) := left ++ right

theorem joinNeighbours_flatten :
    ∀ lists : List (List α), (joinNeighbours joinLists lists).run.flatten = lists.flatten
  | [] => rfl
  | [_] => rfl
  | first :: second :: rest => by
    have later := joinNeighbours_flatten rest
    change (first ++ second) ++ (joinNeighbours joinLists rest).run.flatten = _
    rw [later, List.append_assoc]
    rfl

theorem joinNeighbours_length {β : Type} (join : β → β → Id β) :
    ∀ elements : List β, (joinNeighbours join elements).run.length = (elements.length + 1) / 2
  | [] => by simp [joinNeighbours]
  | [_] => by simp [joinNeighbours]
  | first :: second :: rest => by
    have later := joinNeighbours_length join rest
    change (joinNeighbours join rest).run.length + 1 = _
    rw [later, List.length_cons, List.length_cons]
    omega

theorem joinLayers_flatten (rounds : Nat) (lists : List (List α)) (filled : lists ≠ [])
    (enough : lists.length ≤ rounds + 1) :
    (joinLayers joinLists rounds lists).run = some lists.flatten := by
  induction rounds generalizing lists with
  | zero =>
    match lists, filled, enough with
    | [last], _, _ => simp [joinLayers]
  | succ rounds ih =>
    match lists, filled, enough with
    | [last], _, _ => simp [joinLayers]
    | first :: second :: rest, _, enough =>
      have shorter := joinNeighbours_length joinLists (first :: second :: rest)
      simp only [List.length_cons] at shorter enough
      have next : (joinNeighbours joinLists (first :: second :: rest)).run ≠ [] := by
        intro empty
        rw [empty, List.length_nil] at shorter
        omega
      have joined := ih _ next (by omega)
      rw [joinNeighbours_flatten] at joined
      exact joined

theorem joinBalanced_flatten (lists : List (List α)) (filled : lists ≠ []) :
    (joinBalanced joinLists lists).run = some lists.flatten :=
  joinLayers_flatten lists.length lists filled (Nat.le_succ _)

end Flattening

end ArithCircuit
