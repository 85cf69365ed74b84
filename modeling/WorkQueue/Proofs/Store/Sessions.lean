import WorkQueue.Proofs.Runs
import WorkQueue.Store.Live
import WorkQueue.Store.Namespace

/-!
# Sessions

In a session moves of one kind are made, and there may be other `Event`s between them: writes are
granted or refused from then on, or somebody writes elsewhere in the store. What they happen to is a
`Player`: something in memory beside its store (`Player.ofLive`), or what it stands for.

* `Player.play`: the replies to the moves of a session, and what there is in the end;
* `Simulates`: a relation between two players that each event keeps, with the same reply to a move;
* `Simulates.play`: then both have the same replies to a session and are related in the end.
-/

universe u

namespace WorkQueue.Session

variable {M : Type → Type u} {σ τ : Type}

/-- What happens in a session: a move, a new number of writes before they are refused, or a batch
that is written elsewhere. -/
inductive Event (M : Type → Type u) : Type (max 1 u) where
  | move {α : Type} (m : M α)
  | grant (writesLeft : Option Nat)
  | elsewhere (batch : Batch)

/-- What is written elsewhere has no key in the namespace. -/
def Event.Outside (space : Namespace) : Event M → Prop
  | elsewhere batch => ∀ op ∈ batch, ∀ k, op.key ≠ space.key k
  | _ => True

/-- What the moves of a session count together. -/
def total (count : ∀ {α : Type}, M α → Nat) : List (Event M) → Nat
  | [] => 0
  | .move m :: rest => count m + total count rest
  | _ :: rest => total count rest

/-- What each event does to a state. -/
structure Player (M : Type → Type u) (σ : Type) where
  perform {α : Type} : M α → EStateM Error σ α
  grant : Option Nat → σ → σ
  elsewhere : Batch → σ → σ

/-- Events happen to something in memory and to the store beside it. -/
def Player.ofLive (perform : ∀ {α : Type}, M α → LiveM σ α) : Player M (Live σ) where
  perform := perform
  grant writesLeft live := { live with store := { live.store with writesLeft } }
  elsewhere batch live := { live with store := Runs.final (Store.write batch live.store) }

/-- A session, with the replies to the moves and what there is in the end. -/
def Player.play (p : Player M σ) : List (Event M) → σ → List (Runs.Outcome Error) × σ
  | [], s => ([], s)
  | .move m :: rest, s =>
    let (first, next) := Runs.attempt (p.perform m) s
    let (replies, last) := p.play rest next
    (first :: replies, last)
  | .grant writesLeft :: rest, s => p.play rest (p.grant writesLeft s)
  | .elsewhere batch :: rest, s => p.play rest (p.elsewhere batch s)

/-- Each event that is allowed keeps a relation between two players, and a move has the same reply
from both. The relation may depend on what has been counted, as long as that is below a limit. -/
structure Simulates (p : Player M σ) (q : Player M τ) (count : ∀ {α : Type}, M α → Nat)
    (limit : Nat) (Allowed : Event M → Prop) (R : Nat → σ → τ → Prop) : Prop where
  move : ∀ {n s t} {α : Type} (m : M α), Allowed (.move m) → n + count m < limit → R n s t →
    (Runs.attempt (p.perform m) s).1 = (Runs.attempt (q.perform m) t).1 ∧
      R (n + count m) (Runs.attempt (p.perform m) s).2 (Runs.attempt (q.perform m) t).2
  grant : ∀ {n s t} writesLeft, R n s t → R n (p.grant writesLeft s) (q.grant writesLeft t)
  elsewhere : ∀ {n s t} batch, Allowed (.elsewhere batch) → R n s t →
    R n (p.elsewhere batch s) (q.elsewhere batch t)

theorem Simulates.play {p : Player M σ} {q : Player M τ} {count : ∀ {α : Type}, M α → Nat}
    {limit : Nat} {Allowed : Event M → Prop} {R : Nat → σ → τ → Prop}
    (h : Simulates p q count limit Allowed R) {events : List (Event M)}
    (hallowed : ∀ event ∈ events, Allowed event) {n : Nat} {s : σ} {t : τ} (hst : R n s t)
    (hlimit : n + total count events < limit) :
    (p.play events s).1 = (q.play events t).1 ∧
      R (n + total count events) (p.play events s).2 (q.play events t).2 := by
  induction events generalizing n s t with
  | nil => exact ⟨rfl, hst⟩
  | cons event rest ih =>
    obtain ⟨hfirst, hrest⟩ := List.forall_mem_cons.mp hallowed
    cases event with
    | move m =>
      rw [total, ← Nat.add_assoc] at hlimit ⊢
      obtain ⟨hreply, hnext⟩ := h.move m hfirst (by omega) hst
      obtain ⟨hreplies, hlast⟩ := ih hrest hnext hlimit
      simp only [Player.play, hreply, hreplies]
      exact ⟨trivial, hlast⟩
    | grant writesLeft => exact ih hrest (h.grant writesLeft hst) hlimit
    | elsewhere batch => exact ih hrest (h.elsewhere batch hfirst hst) hlimit

end WorkQueue.Session
