import WorkQueue.Scheduler.Counter
import WorkQueue.Scheduler.Dependents
import WorkQueue.Scheduler.IdSet

/-!
# The scheduler

A `Scheduler` keeps the books of the queue: the stored jobs and their number, the jobs that wait
for others, the runnable jobs in the order in which they became so, and the ids that are missing.
Each part has a namespace of its own in the store. Which job waits for which, and what is missing,
is for the caller to say.

The verbs are actions on the scheduler's memory and the store. A verb that writes once leaves
everything as it was when it fails. `removeRunnable` writes twice: once the job has left the
runnable queue, a failure is reported as `Error.dequeue`, since queue and jobs no longer agree.
-/

namespace WorkQueue

/-- How a scheduler is set up. -/
structure Options where
  /-- Whether to start with caching. -/
  caching : Bool
  jobsCapacity : Nat
  dependentsCapacity : Nat
  /-- The beginning of the names of all metrics. -/
  metricsName : String
deriving DecidableEq, Repr

/-- The books of the queue. -/
structure Scheduler (J : Type) where
  jobs : JobStore J
  dependents : Dependents
  runnable : IdSet
  missing : IdSet
  pending : Counter

namespace Scheduler

/-! ## Namespaces -/

/-- The namespace of the runnable queue. -/
def runnableSpace : Namespace := .ofName (Bytes.ofText "runnable")

/-- The namespace of the stored jobs. -/
def jobsSpace : Namespace := .ofName (Bytes.ofText "jobs")

/-- The namespace of the jobs that wait for others. -/
def dependentsSpace : Namespace := .ofName (Bytes.ofText "dependencies")

/-- The namespace of the missing ids. -/
def missingSpace : Namespace := .ofName (Bytes.ofText "missing job IDs")

/-- The namespace of the number of pending jobs. -/
def pendingSpace : Namespace := .ofName (Bytes.ofText "pendingJobs")

/-! ## Setting up -/

/-- The metrics of the two caches. -/
def registerMetrics (name : String) : EStateM Error Registry (CacheMetrics × CacheMetrics) := do
  let jobs ← CacheMetrics.register s!"{name}_jobs_cache"
  let dependents ← CacheMetrics.register s!"{name}_dependents_cache"
  return (jobs, dependents)

/-- The scheduler that a store holds, with or without metrics for its caches. -/
def load {J : Type} (parse : Parser J) (options : Options)
    (metrics : Option (CacheMetrics × CacheMetrics)) : StoreM (Scheduler J) := do
  let jobs := JobStore.new jobsSpace parse (.new options.jobsCapacity (metrics.map (·.1)))
  let pending ← Counter.load pendingSpace jobs
  let dependents :=
    Dependents.new dependentsSpace (.new options.dependentsCapacity (metrics.map (·.2)))
  let runnable ← IdSet.load runnableSpace
  let missing ← IdSet.load missingSpace
  if options.caching then return ⟨jobs, dependents, runnable, missing, pending⟩
  else return ⟨jobs.disableCaching, dependents.disableCaching, runnable, missing, pending⟩

/-- The scheduler that a store holds, with metrics entered in a registry. -/
def loadMetered {J : Type} (parse : Parser J) (options : Options) :
    LiveM Registry (Scheduler J) := fun s =>
  match registerMetrics options.metricsName s.memory with
  | .error e registry => .error e { s with memory := registry }
  | .ok metrics registry => LiveM.onStore (load parse options metrics) { s with memory := registry }

/-- Shows a registry the current numbers of the two caches. -/
def publish {J : Type} (s : Scheduler J) (registry : Registry) : Registry :=
  [s.jobs.cache.metrics, s.dependents.buckets.metrics].foldl
    (fun r m => m.elim r r.publish) registry

/-! ## Verbs -/

variable {J : Type}

/-- The scheduler's part of an action on the stored jobs. -/
def onJobs {α : Type} : LiveM (JobStore J) α → LiveM (Scheduler J) α :=
  LiveM.onPart (·.jobs) fun s jobs => { s with jobs }

/-- The scheduler's part of an action on the jobs that wait. -/
def onDependents {α : Type} : LiveM Dependents α → LiveM (Scheduler J) α :=
  LiveM.onPart (·.dependents) fun s dependents => { s with dependents }

/-- The scheduler's part of an action on the runnable queue. -/
def onRunnable {α : Type} : LiveM IdSet α → LiveM (Scheduler J) α :=
  LiveM.onPart (·.runnable) fun s runnable => { s with runnable }

/-- The scheduler's part of an action on the missing ids. -/
def onMissing {α : Type} : LiveM IdSet α → LiveM (Scheduler J) α :=
  LiveM.onPart (·.missing) fun s missing => { s with missing }

/-- The number of jobs that are stored and have not been executed. -/
def pendingCount : LiveM (Scheduler J) UInt64 := return (← LiveM.memory).pending.count

/-- Stores a job, and the number of pending jobs with it. -/
def putJob [Job J] (job : J) : LiveM (Scheduler J) Unit := do
  let s ← LiveM.memory
  let (count, operations) := s.pending.stageIncrement
  LiveM.onStore (Store.write (s.jobs.stagePut job :: operations))
  LiveM.update fun s =>
    { s with pending := { s.pending with count }, jobs := s.jobs.remember job }

/-- Whether a job is stored. -/
def hasJob (id : JobId) : LiveM (Scheduler J) Bool := do
  LiveM.onStore ((← LiveM.memory).jobs.has id)

/-- The job stored under an id. -/
def getJob (id : JobId) : LiveM (Scheduler J) J := onJobs (JobStore.get id)

/-- Puts an id at the end of the runnable queue, unless it is in the queue. -/
def addRunnable (id : JobId) : LiveM (Scheduler J) Unit := onRunnable (discard (IdSet.push id))

/-- Whether the runnable queue has a member. -/
def hasRunnable : LiveM (Scheduler J) Bool := do
  return !(← LiveM.onStore (← LiveM.memory).runnable.isEmpty)

/-- The runnable queue. -/
def runnableIds : LiveM (Scheduler J) (List JobId) := do
  LiveM.onStore (← LiveM.memory).runnable.ids

/-- An action whose errors mean that a job which has left the runnable queue is not done with. -/
def afterDequeue {σ α : Type} (id : JobId) (action : LiveM σ α) : LiveM σ α :=
  tryCatch action fun e => throw (e.dequeued id)

/-- Takes the first job out of the runnable queue and out of the stored jobs. -/
def removeRunnable : LiveM (Scheduler J) J := do
  let key ← onRunnable IdSet.pop
  let id ← MonadExcept.ofExcept (JobId.ofBytes key)
  let job ← afterDequeue id (getJob id)
  let s ← LiveM.memory
  let (count, operations) := s.pending.stageDecrement
  afterDequeue id (LiveM.onStore (Store.write (s.jobs.stageDelete id :: operations)))
  LiveM.update fun s =>
    { s with jobs := s.jobs.forget id, pending := { s.pending with count } }
  return job

/-- Notes that a job waits for another. -/
def addDependency (dependency dependent : JobId) : LiveM (Scheduler J) Unit :=
  onDependents (Dependents.add dependency dependent)

/-- Takes out all jobs that wait for a job, oldest first. -/
def removeDependents (dependency : JobId) : LiveM (Scheduler J) (List JobId) :=
  onDependents (Dependents.removeAll dependency)

/-- Adds missing ids. -/
def addMissing (ids : List JobId) : LiveM (Scheduler J) Unit := onMissing (IdSet.pushAll ids)

/-- Takes missing ids out. -/
def removeMissing (ids : List JobId) : LiveM (Scheduler J) Unit := onMissing (IdSet.eraseAll ids)

/-- The missing ids. -/
def missingIds : LiveM (Scheduler J) (List JobId) := do
  LiveM.onStore (← LiveM.memory).missing.ids

/-- The number of missing ids. -/
def missingCount : LiveM (Scheduler J) Nat := do
  LiveM.onStore (← LiveM.memory).missing.size

/-- Empties both caches and does without them from now on. -/
def disableCaching : LiveM (Scheduler J) Unit :=
  LiveM.update fun s =>
    { s with dependents := s.dependents.disableCaching, jobs := s.jobs.disableCaching }

/-- Whether caches are in use. -/
def caching : LiveM (Scheduler J) Bool := return (← LiveM.memory).jobs.caching

/-- Takes everything out, in one batch. -/
def clear : LiveM (Scheduler J) Unit := do
  let s ← LiveM.memory
  let (count, reset) := s.pending.stageReset
  LiveM.onStore do
    let runnable ← s.runnable.space.stageClear
    let jobs ← s.jobs.space.stageClear
    let dependents ← s.dependents.space.stageClear
    let missing ← s.missing.space.stageClear
    Store.write (runnable ++ jobs ++ dependents ++ missing ++ reset)
  LiveM.update fun s => { s with jobs := s.jobs.flush, dependents := s.dependents.flush }
  onRunnable IdSet.reload
  onMissing IdSet.reload
  LiveM.update fun s => { s with pending := { s.pending with count } }

/-- The scheduler in words. -/
def describe (s : Scheduler J) : String :=
  s!"Scheduler \x7b pending: {s.pending.count.toNat}, caching: {s.jobs.caching}, " ++
    s!"cached_jobs: {s.jobs.cache.size}, cached_handles: {s.dependents.buckets.size}, .. \x7d"

end Scheduler

end WorkQueue
