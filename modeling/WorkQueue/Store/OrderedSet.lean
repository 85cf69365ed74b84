import WorkQueue.Store.Namespace

/-!
# Ordered sets

An `OrderedSet` is a set of keys in a namespace that remembers the order in which they came. For
each member there are two entries, and there is one more for the whole set:

* `0` and the sequence number of the member, in eight bytes, hold the member;
* `1` and the member hold its sequence number;
* `2` holds the sequence number of the next new member, which the set itself also keeps as `tail`.

Every change of the set is one batch, so a refused write changes neither the entries nor `tail`.
-/

namespace WorkQueue

/-- Keys in the order in which they came. -/
structure OrderedSet where
  space : Namespace
  /-- The sequence number of the next new member. -/
  tail : UInt64
deriving DecidableEq, Repr

namespace OrderedSet

/-- The first byte of the entries that hold members. -/
def memberTag : UInt8 := 0

/-- The first byte of the entries that hold sequence numbers. -/
def indexTag : UInt8 := 1

/-- The key of the next sequence number. -/
def tailKey : Bytes := [2]

/-- The key of the member with a sequence number. -/
def memberKey (seq : UInt64) : Bytes := memberTag :: BigEndian.encodeWord seq

/-- The key of the sequence number of a member. -/
def indexKey (member : Bytes) : Bytes := indexTag :: member

/-- The sequence number that a value holds. -/
def readSeq (value : Bytes) : Except Error UInt64 :=
  match BigEndian.decodeWord? value with
  | some seq => .ok seq
  | none => .error (.corrupt (.sequenceNumber value.length))

/-- The set that a namespace holds. -/
def load (space : Namespace) : StoreM OrderedSet := do
  match ← space.get? tailKey with
  | some value => return ⟨space, ← MonadExcept.ofExcept (readSeq value)⟩
  | none => return ⟨space, 0⟩

/-! ## Reading -/

/-- Whether a key is a member. -/
def contains (set : OrderedSet) (member : Bytes) : StoreM Bool := set.space.has (indexKey member)

/-- The entries that hold members, oldest first. -/
def memberEntries (set : OrderedSet) : StoreM (List (Bytes × Bytes)) := set.space.scan [memberTag]

/-- The members, oldest first. -/
def members (set : OrderedSet) : StoreM (List Bytes) := do
  return (← set.memberEntries).map (·.2)

/-- The oldest member. -/
def head (set : OrderedSet) : StoreM Bytes := do
  match ← set.members with
  | member :: _ => return member
  | [] => throw .notFound

/-- Whether there is no member. -/
def isEmpty (set : OrderedSet) : StoreM Bool := return (← set.members).isEmpty

/-- The number of members. -/
def size (set : OrderedSet) : StoreM Nat := return (← set.members).length

/-! ## Writing -/

/-- Adds a key at the end unless it is a member, and tells whether it was new. -/
def put (set : OrderedSet) (member : Bytes) : StoreM (Bool × OrderedSet) := do
  if ← set.contains member then return (false, set)
  let next := set.tail + 1
  Store.write [
    set.space.stagePut (memberKey set.tail) member,
    set.space.stagePut (indexKey member) (BigEndian.encodeWord set.tail),
    set.space.stagePut tailKey (BigEndian.encodeWord next)]
  return (true, { set with tail := next })

/-- Takes a key out, and tells whether it was a member. -/
def delete (set : OrderedSet) (member : Bytes) : StoreM Bool := do
  match ← set.space.get? (indexKey member) with
  | none => return false
  | some value =>
    let seq ← MonadExcept.ofExcept (readSeq value)
    Store.write [
      set.space.stageDelete (memberKey seq),
      set.space.stageDelete (indexKey member)]
    return true

/-- Takes all members out, oldest first, each as what `convert` makes of it. Nothing changes unless
all of them can be converted. -/
def takeAll {α : Type} (set : OrderedSet) (convert : Bytes → Except Error α) :
    StoreM (List α × OrderedSet) := do
  let entries ← set.memberEntries
  let taken ← entries.mapM fun e => MonadExcept.ofExcept (convert e.2)
  if entries.isEmpty then return (taken, set)
  let removals := entries.flatMap fun e =>
    [set.space.stageDelete e.1, set.space.stageDelete (indexKey e.2)]
  Store.write (removals ++ [set.space.stageDelete tailKey])
  return (taken, { set with tail := 0 })

/-- The set in words. -/
def describe (set : OrderedSet) : String :=
  s!"OrderedSet \x7b db: {set.space.describe}, tail: {set.tail.toNat} \x7d"

end OrderedSet

end WorkQueue
