import Mathlib.Data.List.Forall2
import Std.Data.HashMap

set_option autoImplicit false

namespace ArithCircuit

theorem forall₂_trans {α β γ : Type} {R : α → β → Prop} {Q : β → γ → Prop} {P : α → γ → Prop}
    (combine : ∀ a b c, R a b → Q b c → P a c) {first : List α} {second : List β} {third : List γ}
    (start : List.Forall₂ R first second) (next : List.Forall₂ Q second third) :
    List.Forall₂ P first third := by
  induction start generalizing third with
  | nil =>
    cases next
    exact .nil
  | cons here _ ih =>
    cases next with
    | cons there rest => exact .cons (combine _ _ _ here there) (ih rest)

theorem exists_of_mem_forall₂ {α β : Type} {R : α → β → Prop} {first : List α} {second : List β}
    (related : List.Forall₂ R first second) {b : β} (member : b ∈ second) : ∃ a ∈ first, R a b := by
  induction related with
  | nil => cases member
  | @cons a c rest others here _ ih =>
    cases member with
    | head => exact ⟨a, List.mem_cons_self, here⟩
    | tail _ later =>
      obtain ⟨other, present, holds⟩ := ih later
      exact ⟨other, List.mem_cons_of_mem a present, holds⟩

theorem exists_forall₂ {α β : Type} {R : α → β → Prop} {first : List α}
    (found : ∀ a ∈ first, ∃ b, R a b) : ∃ second, List.Forall₂ R first second := by
  induction first with
  | nil => exact ⟨[], .nil⟩
  | cons a rest ih =>
    obtain ⟨b, here⟩ := found a List.mem_cons_self
    obtain ⟨others, there⟩ := ih fun other member => found other (List.mem_cons_of_mem a member)
    exact ⟨b :: others, .cons here there⟩

theorem forall₂_split {α β : Type} {R : α → β → Prop} {first second : List α} {whole : List β}
    (related : List.Forall₂ R (first ++ second) whole) :
    ∃ before after, whole = before ++ after ∧ List.Forall₂ R first before ∧
      List.Forall₂ R second after := by
  induction first generalizing whole with
  | nil => exact ⟨[], whole, rfl, .nil, related⟩
  | cons a rest ih =>
    obtain _ | ⟨here, there⟩ := related
    obtain ⟨before, after, rfl, start, finish⟩ := ih there
    exact ⟨_ :: before, after, rfl, .cons here start, finish⟩

theorem forall₂_zip {α β γ δ : Type} {R : α → γ → Prop} {Q : β → δ → Prop} {first : List α}
    {second : List β} {firsts : List γ} {seconds : List δ} (left : List.Forall₂ R first firsts)
    (right : List.Forall₂ Q second seconds) :
    List.Forall₂ (fun pair meanings => R pair.1 meanings.1 ∧ Q pair.2 meanings.2)
      (first.zip second) (firsts.zip seconds) := by
  induction left generalizing second seconds with
  | nil => exact .nil
  | cons here _ ih =>
    cases right with
    | nil => exact .nil
    | cons there rest => exact .cons ⟨here, there⟩ (ih rest)

theorem forall₂_getElem? {α β : Type} {R : α → β → Prop} {first : List α} {second : List β}
    (related : List.Forall₂ R first second) {position : Nat} {b : β}
    (found : second[position]? = some b) : ∃ a, first[position]? = some a ∧ R a b := by
  induction related generalizing position with
  | nil => contradiction
  | @cons a _ _ _ here _ ih =>
    cases position with
    | zero =>
      obtain rfl := Option.some.inj found
      exact ⟨a, rfl, here⟩
    | succ position => exact ih found

theorem forall₂_set {α β : Type} {R : α → β → Prop} {first : List α} {second : List β}
    (related : List.Forall₂ R first second) {a : α} {b : β} (here : R a b) (position : Nat) :
    List.Forall₂ R (first.set position a) (second.set position b) := by
  induction related generalizing position with
  | nil => exact .nil
  | cons head tail ih =>
    cases position with
    | zero => exact .cons here tail
    | succ position => exact .cons head (ih position)

theorem exists_forall₂_map_eq {α β γ : Type} {R : α → β → Prop} {f : β → γ} {first : List α}
    {images : List γ} (related : List.Forall₂ (fun a c => ∃ b, R a b ∧ f b = c) first images) :
    ∃ second, List.Forall₂ R first second ∧ second.map f = images := by
  induction related with
  | nil => exact ⟨[], .nil, rfl⟩
  | cons here _ ih =>
    obtain ⟨b, holds, rfl⟩ := here
    obtain ⟨others, there, rfl⟩ := ih
    exact ⟨b :: others, .cons holds there, rfl⟩

theorem exists_mapM_eq_some {α β : Type} {lookup : α → Option β} {elements : List α}
    (found : ∀ a ∈ elements, ∃ b, lookup a = some b) :
    ∃ results, elements.mapM lookup = some results ∧
      List.Forall₂ (fun a b => lookup a = some b) elements results := by
  induction elements with
  | nil => exact ⟨[], rfl, .nil⟩
  | cons a rest ih =>
    obtain ⟨b, here⟩ := found a List.mem_cons_self
    obtain ⟨results, there, related⟩ := ih fun other member => found other (by simp [member])
    exact ⟨b :: results, by simp [List.mapM_cons, here, there], .cons here related⟩

theorem forall₂_of_mapM_eq_some {α β : Type} {lookup : α → Option β} {elements : List α}
    {results : List β} (found : elements.mapM lookup = some results) :
    List.Forall₂ (fun a b => lookup a = some b) elements results := by
  induction elements generalizing results with
  | nil =>
    obtain rfl := Option.some.inj found
    exact .nil
  | cons a rest ih =>
    simp only [List.mapM_cons, Option.bind_eq_bind, Option.bind_eq_some_iff] at found
    obtain ⟨b, here, others, there, gathered⟩ := found
    obtain rfl := Option.some.inj gathered
    exact .cons here (ih there)

theorem mapM_of_lookup {α β : Type} {lookup later : α → Option β}
    (kept : ∀ a b, lookup a = some b → later a = some b) {elements : List α} {results : List β}
    (found : elements.mapM lookup = some results) : elements.mapM later = some results := by
  induction elements generalizing results with
  | nil => exact found
  | cons a rest ih =>
    simp only [List.mapM_cons, Option.bind_eq_bind, Option.bind_eq_some_iff] at found ⊢
    obtain ⟨b, here, others, there, gathered⟩ := found
    exact ⟨b, kept a b here, others, ih there, gathered⟩

section Tables

variable {K V : Type} [BEq K] [Hashable K] [LawfulBEq K] {table : Std.HashMap K V} {key other : K}
  {value found : V}

theorem found_in_insert (entry : (table.insert key value)[other]? = some found) :
    key = other ∧ value = found ∨ table[other]? = some found := by
  rw [Std.HashMap.getElem?_insert] at entry
  by_cases same : key = other
  · rw [if_pos (beq_iff_eq.mpr same)] at entry
    exact .inl ⟨same, Option.some.inj entry⟩
  · rw [if_neg (by simpa using same)] at entry
    exact .inr entry

theorem insert_of_absent (absent : table[key]? = none) (entry : table[other]? = some found) :
    (table.insert key value)[other]? = some found := by
  have different : key ≠ other := by
    intro same
    rw [← same, absent] at entry
    contradiction
  rw [Std.HashMap.getElem?_insert, if_neg (by simpa using different)]
  exact entry

end Tables

end ArithCircuit
