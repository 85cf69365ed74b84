import WorkQueue.Cache
import WorkQueue.JobId.Reading
import WorkQueue.Store.Live
import WorkQueue.Store.OrderedSet

/-!
# Dependents

`Dependents` keeps for each job the ordered set of the jobs that wait for it, its bucket, in a
namespace inside one for all of them. The buckets used last are remembered with their tails.
-/

namespace WorkQueue

/-- The jobs that wait for others, by the job they wait for. -/
structure Dependents where
  space : Namespace
  buckets : Cache JobId OrderedSet
  /-- Whether buckets are remembered. -/
  caching : Bool

namespace Dependents

/-- The dependents in a namespace, no bucket remembered. -/
def new (space : Namespace) (buckets : Cache JobId OrderedSet) : Dependents :=
  ⟨space, buckets, true⟩

/-- The namespace of a bucket. -/
def bucketSpace (d : Dependents) (dependency : JobId) : Namespace :=
  d.space.nested dependency.bytes

/-- Runs an action on a bucket, remembered or loaded for it. What the action makes of the bucket is
remembered, and after an error the bucket as it was. -/
def withBucket {α : Type} (dependency : JobId) (action : OrderedSet → StoreM (α × OrderedSet)) :
    LiveM Dependents α := do
  let d ← LiveM.memory
  if d.caching then
    let (found, buckets) := d.buckets.get dependency
    LiveM.update ({ · with buckets })
    match found with
    | some bucket =>
      let (a, bucket) ← LiveM.onStore (action bucket)
      LiveM.update fun d => { d with buckets := d.buckets.revise dependency bucket }
      return a
    | none =>
      let bucket ← LiveM.onStore (OrderedSet.load (d.bucketSpace dependency))
      LiveM.update fun d => { d with buckets := d.buckets.put dependency bucket }
      let (a, bucket) ← LiveM.onStore (action bucket)
      LiveM.update fun d => { d with buckets := d.buckets.revise dependency bucket }
      return a
  else
    LiveM.onStore do
      let bucket ← OrderedSet.load (d.bucketSpace dependency)
      let (a, _) ← action bucket
      return a

/-- Notes that a job waits for another. -/
def add (dependency dependent : JobId) : LiveM Dependents Unit :=
  discard (withBucket dependency fun bucket => bucket.put dependent.bytes)

/-- Takes out all jobs that wait for a job, oldest first. -/
def removeAll (dependency : JobId) : LiveM Dependents (List JobId) :=
  withBucket dependency fun bucket => bucket.takeAll JobId.ofBytes

/-- The jobs that wait for a job, oldest first. -/
def of (dependency : JobId) : LiveM Dependents (List JobId) :=
  withBucket dependency fun bucket => do
    let ids ← (← bucket.members).mapM fun key => MonadExcept.ofExcept (JobId.ofBytes key)
    return (ids, bucket)

/-- Forgets the remembered buckets, after the namespace was changed by others. -/
def flush (d : Dependents) : Dependents := { d with buckets := d.buckets.flush }

/-- Forgets the remembered buckets and remembers none from now on. -/
def disableCaching (d : Dependents) : Dependents := { d.flush with caching := false }

end Dependents

end WorkQueue
