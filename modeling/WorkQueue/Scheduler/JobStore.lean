import WorkQueue.Cache
import WorkQueue.Job.Basic
import WorkQueue.Store.Live
import WorkQueue.Store.Namespace

/-!
# Stored jobs

A `JobStore` keeps jobs by id in a namespace and remembers parsed jobs in a cache. Writing is left
to the caller, who puts `stagePut` or `stageDelete` into a batch and tells the cache afterwards
(`remember`, `forget`).
-/

namespace WorkQueue

/-- The jobs of a namespace, with those used last already parsed. -/
structure JobStore (J : Type) where
  space : Namespace
  parse : Parser J
  cache : Cache JobId J
  /-- Whether the cache is in use. -/
  caching : Bool

namespace JobStore

variable {J : Type} [Job J]

omit [Job J] in
/-- The jobs of a namespace, none of them in the cache. -/
def new (space : Namespace) (parse : Parser J) (cache : Cache JobId J) : JobStore J :=
  ⟨space, parse, cache, true⟩

/-- The operation that stores a job. -/
def stagePut (s : JobStore J) (job : J) : Operation :=
  s.space.stagePut (Job.id job).bytes (Job.bytes job)

omit [Job J] in
/-- The operation that takes a job out. -/
def stageDelete (s : JobStore J) (id : JobId) : Operation := s.space.stageDelete id.bytes

/-- Puts a job that has been written into the cache. -/
def remember (s : JobStore J) (job : J) : JobStore J :=
  if s.caching then { s with cache := s.cache.put (Job.id job) job } else s

omit [Job J] in
/-- Drops a job that has been taken out from the cache. -/
def forget (s : JobStore J) (id : JobId) : JobStore J := { s with cache := s.cache.remove id }

omit [Job J] in
/-- Whether there is a job with the id. -/
def has (s : JobStore J) (id : JobId) : StoreM Bool :=
  if s.caching && s.cache.contains id then return true else s.space.has id.bytes

omit [Job J] in
/-- The job stored under an id, from the store. A job that can be parsed goes into the cache. -/
def fetch (id : JobId) : LiveM (JobStore J) J :=
  LiveM.renew fun s => do
    let bytes ← s.space.get id.bytes
    let job ← MonadExcept.ofExcept (s.parse bytes)
    return (job, if s.caching then { s with cache := s.cache.put id job } else s)

omit [Job J] in
/-- The job stored under an id, from the cache if it is there. -/
def get (id : JobId) : LiveM (JobStore J) J := do
  let s ← LiveM.memory
  if s.caching then
    let (found, cache) := s.cache.get id
    LiveM.update ({ · with cache })
    match found with
    | some job => return job
    | none => fetch id
  else fetch id

omit [Job J] in
/-- The number of stored jobs. -/
def count (s : JobStore J) : StoreM Nat := return (← s.space.scan []).length

omit [Job J] in
/-- Empties the cache. -/
def flush (s : JobStore J) : JobStore J := { s with cache := s.cache.flush }

omit [Job J] in
/-- Empties the cache and does without it from now on. -/
def disableCaching (s : JobStore J) : JobStore J := { s.flush with caching := false }

end JobStore

end WorkQueue
