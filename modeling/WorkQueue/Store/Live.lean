import WorkQueue.Store.Basic

/-!
# Memory beside a store

Most parts of the queue keep something in memory beside what they keep in the store. `Live σ` is
that memory with the store, and `LiveM σ α` an action on both: it gives a value or an error, and in
both cases the memory and the store afterwards.

`onStore`, `renew` and `onPart` make such actions from smaller ones.
-/

namespace WorkQueue

/-- Something kept in memory, beside the store. -/
structure Live (σ : Type) where
  memory : σ
  store : Store

/-- An action on memory and store. -/
abbrev LiveM (σ : Type) := EStateM Error (Live σ)

namespace LiveM

variable {σ τ α : Type}

/-- What is in memory. -/
def memory : LiveM σ σ := fun s => .ok s.memory s

/-- Changes what is in memory. -/
def update (f : σ → σ) : LiveM σ Unit := fun s => .ok () { s with memory := f s.memory }

/-- An action on the store alone. -/
def onStore (action : StoreM α) : LiveM σ α := fun s =>
  match action s.store with
  | .ok a store => .ok a { s with store }
  | .error e store => .error e { s with store }

/-- An action on the store that also gives the memory afterwards; an error leaves the memory. -/
def renew (action : σ → StoreM (α × σ)) : LiveM σ α := fun s =>
  match action s.memory s.store with
  | .ok (a, memory) store => .ok a { memory, store }
  | .error e store => .error e { s with store }

/-- An action on a part of the memory. -/
def onPart (part : σ → τ) (restore : σ → τ → σ) (action : LiveM τ α) : LiveM σ α := fun s =>
  match action { memory := part s.memory, store := s.store } with
  | .ok a t => .ok a { memory := restore s.memory t.memory, store := t.store }
  | .error e t => .error e { memory := restore s.memory t.memory, store := t.store }

end LiveM

end WorkQueue
