import WorkQueue.JobId.Reading
import WorkQueue.Store.Live
import WorkQueue.Store.OrderedSet

/-!
# Sets of ids

An `IdSet` is an ordered set of job ids in a namespace of its own: the queue of runnable jobs is
one, and so is the set of ids that are referred to and not stored here. Ids are added and removed
one by one, so an error may leave some of them done.
-/

namespace WorkQueue

/-- Ids in the order in which they came, in a namespace of their own. -/
structure IdSet where
  space : Namespace
  order : OrderedSet
deriving DecidableEq, Repr

namespace IdSet

/-- The set that a namespace holds. -/
def load (space : Namespace) : StoreM IdSet := do
  return ⟨space, ← OrderedSet.load space⟩

/-- Adds an id unless it is there, and tells whether it was new. -/
def push (id : JobId) : LiveM IdSet Bool :=
  LiveM.renew fun s => do
    let (added, order) ← s.order.put id.bytes
    return (added, { s with order })

/-- Takes an id out, and tells whether it was there. -/
def erase (id : JobId) : LiveM IdSet Bool := do
  let s ← LiveM.memory
  LiveM.onStore (s.order.delete id.bytes)

/-- Adds ids, one after the other. -/
def pushAll (ids : List JobId) : LiveM IdSet Unit := ids.forM fun id => discard (push id)

/-- Takes ids out, one after the other. -/
def eraseAll (ids : List JobId) : LiveM IdSet Unit := ids.forM fun id => discard (erase id)

/-- Takes the oldest member out and gives its key, which may be no id if the store is damaged. -/
def pop : LiveM IdSet Bytes := do
  let s ← LiveM.memory
  LiveM.onStore do
    let head ← s.order.head
    discard (s.order.delete head)
    return head

/-- The ids, oldest first. -/
def ids (s : IdSet) : StoreM (List JobId) := do
  (← s.order.members).mapM fun key => MonadExcept.ofExcept (JobId.ofBytes key)

/-- Whether there is no id. -/
def isEmpty (s : IdSet) : StoreM Bool := s.order.isEmpty

/-- The number of ids. -/
def size (s : IdSet) : StoreM Nat := s.order.size

/-- Reads the set again, after its namespace was changed by others. -/
def reload : LiveM IdSet Unit :=
  LiveM.renew fun s => do
    let order ← OrderedSet.load s.space
    return ((), { s with order })

/-- The set in words, under the given name. -/
def describe (name : String) (s : IdSet) : String :=
  s!"{name} \x7b db: {s.space.describe}, ids: {s.order.describe} \x7d"

end IdSet

end WorkQueue
