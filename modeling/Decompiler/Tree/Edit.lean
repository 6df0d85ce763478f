import Decompiler.Tree.Node
/-!
# Changing a tree

A pass over a tree works from left to right. If it fails on the way, what it changed before stays
changed and the rest stays as it was, so the outcome of a pass is a tree together with the failure,
if there was one.
-/

namespace Decompiler

/-- A changed value, and the failure that stopped the change. -/
structure Edited (α : Type) where
  value : α
  fault : Option Fault

namespace Edited

variable {α β : Type}

/-- A change that went through. -/
def done (a : α) : Edited α := ⟨a, none⟩

/-- A change that was stopped. -/
def stopped (a : α) (e : Fault) : Edited α := ⟨a, some e⟩

/-- The outcome as part of something larger. -/
def map (f : α → β) (e : Edited α) : Edited β := ⟨f e.value, e.fault⟩

/-- Goes on with a change that went through; a stopped one is completed by `rest`. -/
def andThen (e : Edited α) (rest : α → β) (next : α → Edited β) : Edited β :=
  match e.fault with
  | some f => ⟨rest e.value, some f⟩
  | none => next e.value

/-- Goes on with a change that went through; a stopped one stays as it is. -/
def next (e : Edited α) (f : α → Edited α) : Edited α := e.andThen id f

/-- The changed value, if the change went through. -/
def result (e : Edited α) : Except Fault α :=
  match e.fault with
  | some f => .error f
  | none => .ok e.value

/-- A step that changes nothing if it fails. -/
def attempt (a : α) (step : Except Fault α) : Edited α :=
  match step with
  | .ok b => done b
  | .error e => stopped a e

end Edited

end Decompiler
