import ArithCircuit.Formula
import ArithCircuit.Proofs.Collections

set_option autoImplicit false

namespace ArithCircuit

-- A step that ends without a result yields nothing at all, so every statement below is one of
-- total correctness.
def Yields {S α : Type} (step : StateT S Option α) (start : S) (post : α → S → Prop) : Prop :=
  ∃ result next, step start = some (result, next) ∧ post result next

namespace Yields

variable {S σ α β : Type}

theorem intro {step : StateT S Option α} {start next : S} {result : α} {post : α → S → Prop}
    (gives : step start = some (result, next)) (holds : post result next) :
    Yields step start post :=
  ⟨result, next, gives, holds⟩

theorem mono {step : StateT S Option α} {start : S} {post wider : α → S → Prop}
    (yields : Yields step start post) (weaken : ∀ result next, post result next → wider result next) :
    Yields step start wider := by
  obtain ⟨result, next, gives, holds⟩ := yields
  exact ⟨result, next, gives, weaken result next holds⟩

theorem both {step : StateT S Option α} {start : S} {post also : α → S → Prop}
    (yields : Yields step start post) (other : Yields step start also) :
    Yields step start fun result next => post result next ∧ also result next := by
  obtain ⟨result, next, gives, holds⟩ := yields
  obtain ⟨_, _, givesAlso, holdsAlso⟩ := other
  cases gives.symm.trans givesAlso
  exact ⟨result, next, gives, holds, holdsAlso⟩

theorem after {first : StateT S Option α} {rest : α → StateT S Option β} {start next : S}
    {result : α} {post : β → S → Prop} (gives : first start = some (result, next))
    (continues : Yields (rest result) next post) : Yields (first >>= rest) start post := by
  obtain ⟨last, final, ends, reached⟩ := continues
  refine ⟨last, final, ?_, reached⟩
  change (first start).bind (fun reply => rest reply.1 reply.2) = _
  rw [gives]
  exact ends

theorem bind {first : StateT S Option α} {rest : α → StateT S Option β} {start : S}
    {middle : α → S → Prop} {post : β → S → Prop} (yields : Yields first start middle)
    (continues : ∀ result next, middle result next → Yields (rest result) next post) :
    Yields (first >>= rest) start post := by
  obtain ⟨result, next, gives, holds⟩ := yields
  exact after gives (continues result next holds)

theorem memory_after {first : StateT σ (StateT S Option) α}
    {rest : α → StateT σ (StateT S Option) β} {memory later : σ} {start next : S} {result : α}
    {post : β × σ → S → Prop} (gives : first memory start = some ((result, later), next))
    (continues : Yields (rest result later) next post) :
    Yields ((first >>= rest) memory) start post := by
  obtain ⟨last, final, ends, reached⟩ := continues
  refine ⟨last, final, ?_, reached⟩
  change (first memory start).bind (fun reply => rest reply.1.1 reply.1.2 reply.2) = _
  rw [gives]
  exact ends

theorem memory_bind {first : StateT σ (StateT S Option) α} {rest : α → StateT σ (StateT S Option) β}
    {memory : σ} {start : S} {middle : α × σ → S → Prop} {post : β × σ → S → Prop}
    (yields : Yields (first memory) start middle)
    (continues : ∀ result later next, middle (result, later) next →
      Yields (rest result later) next post) :
    Yields ((first >>= rest) memory) start post :=
  yields.bind fun reply next holds => continues reply.1 reply.2 next holds

theorem memory_lift {step : StateT S Option α} {start : S} {post : α → S → Prop}
    (yields : Yields step start post) (memory : σ) :
    Yields ((liftM step : StateT σ (StateT S Option) α) memory) start fun reply next =>
      reply.2 = memory ∧ post reply.1 next := by
  obtain ⟨result, next, gives, holds⟩ := yields
  refine ⟨(result, memory), next, ?_, rfl, holds⟩
  change (step start).bind _ = _
  rw [gives]
  rfl

theorem memory_lift_bind {step : StateT S Option α} {rest : α → StateT σ (StateT S Option) β}
    {memory : σ} {start : S} {middle : α → S → Prop} {post : β × σ → S → Prop}
    (yields : Yields step start middle)
    (continues : ∀ result next, middle result next → Yields (rest result memory) next post) :
    Yields (((liftM step : StateT σ (StateT S Option) α) >>= rest) memory) start post := by
  apply memory_bind (memory_lift yields memory)
  intro result later next finished
  obtain ⟨rfl, holds⟩ := finished
  exact continues result next holds

theorem memory_lookup {lookup : Option α} {result : α} (found : lookup = some result) (memory : σ)
    (start : S) :
    (liftM lookup : StateT σ (StateT S Option) α) memory start = some ((result, memory), start) := by
  rw [found]
  rfl

theorem memory_lookups {lookup : α → Option β} {elements : List α} {results : List β}
    (found : elements.mapM lookup = some results) (memory : σ) (start : S) :
    (elements.mapM fun a => liftM (lookup a) : StateT σ (StateT S Option) (List β)) memory start =
      some ((results, memory), start) := by
  induction elements generalizing results with
  | nil =>
    obtain rfl := Option.some.inj found
    rfl
  | cons a rest ih =>
    simp only [List.mapM_cons, Option.bind_eq_bind, Option.bind_eq_some_iff] at found
    obtain ⟨b, here, others, there, gathered⟩ := found
    obtain rfl := Option.some.inj gathered
    rw [List.mapM_cons]
    change ((liftM (lookup a) : StateT σ (StateT S Option) β) memory start).bind _ = _
    rw [memory_lookup here]
    change ((rest.mapM fun a => liftM (lookup a) : StateT σ (StateT S Option) (List β)) memory
      start).bind _ = _
    rw [ih there]
    rfl

theorem memory_mapM {step : α → StateT σ (StateT S Option) β} {Grows : σ → S → σ → S → Prop}
    {Inv : σ → S → Prop} {Post : α → β → σ → S → Prop} (refl : ∀ m s, Grows m s m s)
    (trans : ∀ {l r m s n t}, Grows l r m s → Grows m s n t → Grows l r n t)
    (persists : ∀ {a b m s n t}, Grows m s n t → Post a b m s → Post a b n t)
    (elements : List α) {memory : σ} {start : S} (initial : Inv memory start)
    (each : ∀ a ∈ elements, ∀ m s, Grows memory start m s → Inv m s →
      Yields (step a m) s fun reply t =>
        Grows m s reply.2 t ∧ Inv reply.2 t ∧ Post a reply.1 reply.2 t) :
    Yields (elements.mapM step memory) start fun reply final =>
      Grows memory start reply.2 final ∧ Inv reply.2 final ∧
        List.Forall₂ (Post · · reply.2 final) elements reply.1 := by
  induction elements generalizing memory start with
  | nil => exact intro rfl ⟨refl memory start, initial, .nil⟩
  | cons a rest ih =>
    rw [List.mapM_cons]
    refine memory_bind (each a (by simp) memory start (refl memory start) initial) ?_
    intro b later next finished
    obtain ⟨grown, kept, here⟩ := finished
    refine memory_bind (ih kept fun other member m s ahead =>
      each other (by simp [member]) m s (trans grown ahead)) ?_
    intro results last final finished
    obtain ⟨further, held, there⟩ := finished
    exact intro rfl ⟨trans grown further, held, .cons (persists further here) there⟩

end Yields

inductive Inquiry {σ Q A : Type} (ask : Circuit → Q → StateT σ Option A)
    (suits : Circuit → Q → Prop) (initial : σ) : Circuit → σ → Prop where
  | start (circuit : Circuit) : Inquiry ask suits initial circuit initial
  | grow {circuit larger : Circuit} {memory : σ} (before : Inquiry ask suits initial circuit memory)
      (extended : circuit.Extends larger) : Inquiry ask suits initial larger memory
  | ask {circuit : Circuit} {memory next : σ} {question : Q} {answer : A}
      (before : Inquiry ask suits initial circuit memory) (suited : suits circuit question)
      (gives : ask circuit question memory = some (answer, next)) :
      Inquiry ask suits initial circuit next

theorem Inquiry.invariant {σ Q A : Type} {ask : Circuit → Q → StateT σ Option A}
    {suits : Circuit → Q → Prop} {initial : σ} {Inv : Circuit → σ → Prop}
    (start : ∀ circuit, Inv circuit initial)
    (grow : ∀ circuit larger memory, circuit.Extends larger → Inv circuit memory → Inv larger memory)
    (ask_ : ∀ circuit memory question, suits circuit question → Inv circuit memory →
      Yields (ask circuit question) memory fun _ next => Inv circuit next)
    {circuit : Circuit} {memory : σ} (inquiry : Inquiry ask suits initial circuit memory) :
    Inv circuit memory := by
  induction inquiry with
  | start circuit => exact start circuit
  | grow _ extended ih => exact grow _ _ _ extended ih
  | ask _ suited gives ih =>
    obtain ⟨_, _, also, holds⟩ := ask_ _ _ _ suited ih
    obtain ⟨_, rfl⟩ := Prod.mk.inj (Option.some.inj (also.symm.trans gives))
    exact holds

end ArithCircuit
