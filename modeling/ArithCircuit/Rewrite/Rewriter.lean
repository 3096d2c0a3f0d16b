import ArithCircuit.Circuit.Basic
import ArithCircuit.Schedule
import Std.Data.HashMap

set_option autoImplicit false

namespace ArithCircuit

abbrev Forms := Std.HashMap Nat Nat

-- Nodes that are shared, within one output or between several, are rewritten once.
structure Rewriter (σ : Type) where
  forms : Forms
  memory : σ

namespace Rewriter

variable {σ : Type}

def fresh (memory : σ) : Rewriter σ := ⟨∅, memory⟩

def step (rebuild : Forms → Nat → StateT σ Build Nat) (rewriter : Rewriter σ) (id : Nat) :
    Build (Rewriter σ) := do
  let (form, memory) ← rebuild rewriter.forms id rewriter.memory
  return ⟨rewriter.forms.insert id form, memory⟩

def run (dependencies : Nat → List Nat) (rebuild : Forms → Nat → StateT σ Build Nat)
    (root : Nat) : StateT (Rewriter σ) Build Nat := fun rewriter => do
  let order := schedule dependencies rewriter.forms.contains root
  let rewriter ← order.foldlM (step rebuild) rewriter
  let form ← rewriter.forms[root]?
  return (form, rewriter)

def inMemory {α : Type} (step : StateT σ Build α) : StateT (Rewriter σ) Build α := fun rewriter => do
  let (result, memory) ← step rewriter.memory
  return (result, { rewriter with memory })

end Rewriter

def Build.relinked (forms : Forms) (id : Nat) : Build Nat := do
  let old ← node id
  let new ← old.mapChildren? fun child => forms[child]?
  if new = old then return id
  append new

end ArithCircuit
