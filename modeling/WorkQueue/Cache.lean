import WorkQueue.Metrics

/-!
# Caches

A `Cache` keeps the values used last. Its entries stand in order of use, the latest first; putting
a value into a full cache drops the entry at the end.

A hit of `get` makes its entry the latest one, while `contains` leaves the order alone. A metered
cache counts the look-ups of `get`, and its metrics know its length as of the last change.
-/

namespace WorkQueue

/-- The values used last, and the number of them that are kept. -/
structure Cache (α β : Type) where
  /-- Keys and values, the latest first. -/
  entries : List (α × β)
  capacity : Nat
  metrics : Option CacheMetrics

namespace Cache

variable {α β : Type} [DecidableEq α]

/-- The empty cache. -/
def new (capacity : Nat) (metrics : Option CacheMetrics) : Cache α β := ⟨[], capacity, metrics⟩

/-- The number of entries. -/
def size (c : Cache α β) : Nat := c.entries.length

/-- The value of a key. -/
def find? (c : Cache α β) (key : α) : Option β := c.entries.lookup key

/-- Whether a key has a value. -/
def contains (c : Cache α β) (key : α) : Bool := (c.find? key).isSome

/-- The entries without that of a key. -/
def others (c : Cache α β) (key : α) : List (α × β) := c.entries.filter fun e => e.1 != key

/-- The cache with other entries, which its metrics are told of. -/
def replace (c : Cache α β) (entries : List (α × β)) : Cache α β :=
  { c with entries, metrics := c.metrics.map ({ · with length := entries.length }) }

/-- The value of a key, and the cache after this use. -/
def get (c : Cache α β) (key : α) : Option β × Cache α β :=
  let found := c.find? key
  let metrics := c.metrics.map (·.record found.isSome)
  match found with
  | some value => (some value, { c with entries := (key, value) :: c.others key, metrics })
  | none => (none, { c with metrics })

/-- Another value for a key that has one; this is no use of the entry. -/
def revise (c : Cache α β) (key : α) (value : β) : Cache α β :=
  { c with entries := c.entries.map fun e => if e.1 = key then (key, value) else e }

/-- Gives a key a value. -/
def put (c : Cache α β) (key : α) (value : β) : Cache α β :=
  c.replace (((key, value) :: c.others key).take c.capacity)

/-- Takes a key out. -/
def remove (c : Cache α β) (key : α) : Cache α β := c.replace (c.others key)

/-- Takes all keys out. -/
def flush (c : Cache α β) : Cache α β := c.replace []

omit [DecidableEq α] in
/-- The cache in words. -/
def describe (c : Cache α β) : String :=
  s!"Cache \x7b len: {c.entries.length}, cap: {c.capacity}, metered: {c.metrics.isSome} \x7d"

/-- A cache never holds more than its capacity once a value has been put. -/
theorem size_put_le (c : Cache α β) (key : α) (value : β) :
    (c.put key value).size ≤ c.capacity := by
  simp only [put, replace, size, List.length_take]
  omega

end Cache

end WorkQueue
