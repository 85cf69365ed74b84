import WorkQueue.Proofs.OrderedSet.Runs
import WorkQueue.Proofs.Scheduler.Parts

/-!
# A scheduler without memory

The verbs of a scheduler that keeps nothing in memory: each one reads from the store what it needs,
and leaves nothing behind but what it writes. They are what the verbs of a `Scheduler` come to, as
far as replies and the store go.
-/

namespace WorkQueue.Scheduler.Plain

variable {J : Type}

/-- Runs an action on the set that a namespace holds. -/
def onSet {α : Type} (space : Namespace) (action : OrderedSet → StoreM (α × OrderedSet)) :
    StoreM α := do
  let set ← OrderedSet.load space
  return (← action set).1

/-- The ids that a set holds, oldest first, and the set. -/
def listIds (set : OrderedSet) : StoreM (List JobId × OrderedSet) := do
  let ids ← (← set.members).mapM fun key => MonadExcept.ofExcept (JobId.ofBytes key)
  return (ids, set)

/-- The number of pending jobs. -/
def counter : StoreM Counter := do
  let value ← pendingSpace.get Counter.key
  return ⟨pendingSpace, ← MonadExcept.ofExcept (Counter.readCount value)⟩

/-- The number of jobs that are stored and have not been executed. -/
def pendingCount : StoreM UInt64 := return (← counter).count

/-- Stores a job, and the number of pending jobs with it. -/
def putJob [Job J] (job : J) : StoreM Unit := do
  let pending ← counter
  Store.write (jobsSpace.stagePut (Job.id job).bytes (Job.bytes job) :: pending.stageIncrement.2)

/-- Whether a job is stored. -/
def hasJob (id : JobId) : StoreM Bool := jobsSpace.has id.bytes

/-- The job stored under an id. -/
def getJob (parse : Parser J) (id : JobId) : StoreM J := do
  MonadExcept.ofExcept (parse (← jobsSpace.get id.bytes))

/-- Puts an id at the end of the runnable queue, unless it is in the queue. -/
def addRunnable (id : JobId) : StoreM Unit := discard (onSet runnableSpace (·.put id.bytes))

/-- Whether the runnable queue has a member. -/
def hasRunnable : StoreM Bool := onSet runnableSpace fun queue => do
  return (!(← queue.isEmpty), queue)

/-- The runnable queue. -/
def runnableIds : StoreM (List JobId) := onSet runnableSpace listIds

/-- Takes the oldest key out of a set, and gives it with the set. -/
def takeHead (set : OrderedSet) : StoreM (Bytes × OrderedSet) := do
  let head ← set.head
  discard (set.delete head)
  return (head, set)

theorem takeHead_run (set : OrderedSet) (s : Store) :
    takeHead set s = match (OrderedSet.listed set.space s.table).map (·.2) with
      | [] => .error .notFound s
      | head :: _ => match set.delete head s with
        | .ok _ t => .ok (head, set) t
        | .error e t => .error e t := by
  rw [takeHead, Runs.bind_apply, OrderedSet.head_run]
  cases (OrderedSet.listed set.space s.table).map (·.2) with
  | nil => rfl
  | cons head rest =>
    show ((set.delete head >>= fun _ => pure ()) >>= fun _ => pure (head, set)) s = _
    simp only [Runs.bind_apply]
    cases set.delete head s <;> rfl

theorem takeHead_snd {set set' : OrderedSet} {s t : Store} {head : Bytes}
    (h : takeHead set s = .ok (head, set') t) : set' = set := by
  rw [takeHead_run] at h
  split at h
  · cases h
  · split at h <;> cases h
    rfl

/-- Takes the oldest key out of the runnable queue. -/
def pop : StoreM Bytes := onSet runnableSpace takeHead

/-- An action whose errors mean that a job which has left the runnable queue is not done with. -/
def afterDequeue {α : Type} (id : JobId) (action : StoreM α) : StoreM α :=
  tryCatch action fun e => throw (e.dequeued id)

theorem afterDequeue_ok {α : Type} {id : JobId} {x : StoreM α} {a : α} {s t : Store}
    (h : x s = .ok a t) : afterDequeue id x s = .ok a t := Runs.tryCatch_of_ok h

theorem afterDequeue_error {α : Type} {id : JobId} {x : StoreM α} {e : Error} {s t : Store}
    (h : x s = .error e t) : afterDequeue id x s = .error (e.dequeued id) t :=
  Runs.tryCatch_of_error h

/-- Takes a job out of the stored jobs. -/
def dropJob (id : JobId) : StoreM Unit := do
  let pending ← counter
  Store.write (jobsSpace.stageDelete id.bytes :: pending.stageDecrement.2)

/-- Takes the first job out of the runnable queue and out of the stored jobs. -/
def removeRunnable (parse : Parser J) : StoreM J := do
  let key ← pop
  let id ← MonadExcept.ofExcept (JobId.ofBytes key)
  let job ← afterDequeue id (getJob parse id)
  afterDequeue id (dropJob id)
  return job

/-- Notes that a job waits for another. -/
def addDependency (dependency dependent : JobId) : StoreM Unit :=
  discard (onSet (bucketSpace dependency) (·.put dependent.bytes))

/-- Takes out all jobs that wait for a job, oldest first. -/
def removeDependents (dependency : JobId) : StoreM (List JobId) :=
  onSet (bucketSpace dependency) (·.takeAll JobId.ofBytes)

/-- The jobs that wait for a job, oldest first. -/
def dependentsOf (dependency : JobId) : StoreM (List JobId) :=
  onSet (bucketSpace dependency) listIds

/-- Adds missing ids. -/
def addMissing (ids : List JobId) : StoreM Unit :=
  ids.forM fun id => discard (onSet missingSpace (·.put id.bytes))

/-- Takes missing ids out. -/
def removeMissing (ids : List JobId) : StoreM Unit :=
  ids.forM fun id => discard (onSet missingSpace fun set => do
    return (← set.delete id.bytes, set))

/-- The missing ids. -/
def missingIds : StoreM (List JobId) := onSet missingSpace listIds

/-- The number of missing ids. -/
def missingCount : StoreM Nat := onSet missingSpace fun set => do
  return (← set.size, set)

/-- Takes everything out, in one batch. -/
def clear : StoreM Unit := do
  let runnable ← runnableSpace.stageClear
  let jobs ← jobsSpace.stageClear
  let dependents ← dependentsSpace.stageClear
  let missing ← missingSpace.stageClear
  Store.write (runnable ++ jobs ++ dependents ++ missing ++
    [pendingSpace.stagePut Counter.key (BigEndian.encodeWord 0)])

end WorkQueue.Scheduler.Plain
