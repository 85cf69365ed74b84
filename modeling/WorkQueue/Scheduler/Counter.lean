import WorkQueue.Scheduler.JobStore

/-!
# The number of pending jobs

A `Counter` keeps the number of stored jobs in memory and in the store. The stored number goes into
the same batch as each change it accounts for: an operation is staged first, and `count` follows
when the batch has been written.
-/

namespace WorkQueue

/-- The number of pending jobs, as in the store. -/
structure Counter where
  space : Namespace
  count : UInt64
deriving DecidableEq, Repr

namespace Counter

/-- The key of the stored number. -/
def key : Bytes := Bytes.ofText "pendingJobs"

/-- The largest number that can be stored. -/
def largest : UInt64 := 0xffffffffffffffff

/-- The number that a value holds. -/
def readCount (value : Bytes) : Except Error UInt64 :=
  match BigEndian.decodeWord? value with
  | some count => .ok count
  | none => .error (.counterLength value.length)

/-- The stored number, or, where there is none, the number of stored jobs, which is then stored. -/
def load {J : Type} (space : Namespace) (jobs : JobStore J) : StoreM Counter := do
  match ← space.get? key with
  | some value => return ⟨space, ← MonadExcept.ofExcept (readCount value)⟩
  | none =>
    let count := UInt64.ofNat (← jobs.count)
    space.put key (BigEndian.encodeWord count)
    return ⟨space, count⟩

/-- The operation that stores a number. -/
def stage (c : Counter) (count : UInt64) : Operation :=
  c.space.stagePut key (BigEndian.encodeWord count)

/-- The next number, and the operations that store it. -/
def stageIncrement (c : Counter) : UInt64 × Batch :=
  let next := if c.count = largest then c.count else c.count + 1
  (next, [c.stage next])

/-- The number before, and the operations that store it; at zero there is none to store. -/
def stageDecrement (c : Counter) : UInt64 × Batch :=
  if c.count = 0 then (0, []) else (c.count - 1, [c.stage (c.count - 1)])

/-- Zero, and the operations that store it. -/
def stageReset (c : Counter) : UInt64 × Batch := (0, [c.stage 0])

end Counter

end WorkQueue
