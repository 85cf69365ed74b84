import WorkQueue.Job.Linked
import WorkQueue.Scheduler.Basic

/-!
# Pushing and draining

`push` stores a job and queues it, or notes what it waits for. `drain` takes runnable jobs out one
after the other, has them executed, and queues the jobs that waited for them and wait no more.

Execution takes place in a world of its own, of type `W`, which an executor changes and which
decides what a job still misses. A `Runner` is what `drain` has to know of it. `Recorder` is a world
that keeps a ledger of the executed jobs and lists them in order.

Every round of `drain` takes a job out that is stored or in the cache and puts none in, so
`roundLimit`, one more than their number, is enough rounds.
-/

namespace WorkQueue

/-- How jobs are executed in a world, and what they still miss there. -/
structure Runner (W J : Type) where
  missing : W → J → Except Error (List JobId)
  execute : J → EStateM Error W Unit

/-- An action on a world, a scheduler and its store. -/
abbrev DrainM (W J : Type) := EStateM Error (W × Live (Scheduler J))

namespace DrainM

variable {W J α : Type}

/-- An action on the scheduler and its store. -/
def onQueue (action : LiveM (Scheduler J) α) : DrainM W J α := fun s =>
  match action s.2 with
  | .ok a live => .ok a (s.1, live)
  | .error e live => .error e (s.1, live)

/-- An action on the world. -/
def onWorld (action : EStateM Error W α) : DrainM W J α := fun s =>
  match action s.1 with
  | .ok a world => .ok a (world, s.2)
  | .error e world => .error e (world, s.2)

/-- The world. -/
def world : DrainM W J W := fun s => .ok s.1 s

end DrainM

namespace Scheduler

variable {W J : Type} [Job J]

/-- Stores a job unless it is stored, and tells whether it was new. A job that misses nothing is
queued, and any other waits for all that it misses. -/
def push (missing : J → Except Error (List JobId)) (job : J) : LiveM (Scheduler J) Bool := do
  let id := Job.id job
  if ← hasJob id then return false
  let waitsFor ← MonadExcept.ofExcept (missing job)
  putJob job
  if waitsFor.isEmpty then addRunnable id
  else waitsFor.forM fun dependency => addDependency dependency id
  return true

omit [Job J] in
/-- Queues those of the jobs that miss nothing any more. -/
def release (runner : Runner W J) (ids : List JobId) : DrainM W J Unit :=
  ids.forM fun id => do
    let job ← DrainM.onQueue (getJob id)
    let missing ← MonadExcept.ofExcept (runner.missing (← DrainM.world) job)
    if missing.isEmpty then DrainM.onQueue (addRunnable id)

/-- Executes the first runnable job and releases the jobs that waited for it. -/
def executeNext (runner : Runner W J) : DrainM W J Unit := do
  let job ← DrainM.onQueue removeRunnable
  DrainM.onWorld (runner.execute job)
  release runner (← DrainM.onQueue (removeDependents (Job.id job)))

/-- At most `rounds` rounds of execution, `executed` jobs having been executed before them. -/
def drainFrom (runner : Runner W J) (limit : Option Nat) :
    (rounds executed : Nat) → DrainM W J Nat
  | 0, executed => return executed
  | rounds + 1, executed => do
    if limit.any (· ≤ executed) then return executed
    if !(← DrainM.onQueue hasRunnable) then return executed
    executeNext runner
    drainFrom runner limit rounds (executed + 1)

omit [Job J] in
/-- One more than the number of jobs that are stored or in the cache. -/
def roundLimit (live : Live (Scheduler J)) : Nat :=
  (live.store.table.scan live.memory.jobs.space.lead).length + live.memory.jobs.cache.size + 1

/-- Executes runnable jobs, `limit` of them at most, and tells how many. -/
def drain (runner : Runner W J) (limit : Option Nat) : DrainM W J Nat := fun s =>
  drainFrom runner limit (roundLimit s.2) 0 s

end Scheduler

/-- A world that records which jobs were executed. -/
structure Recorder where
  ledger : Ledger
  /-- The executed jobs, in order. -/
  order : List JobId
  /-- A job that is not executed. -/
  failOn : Option JobId

namespace Recorder

/-- Records a job, unless it is the one to be rejected or misses a dependency. -/
def execute (job : LinkedJob) : EStateM Error Recorder Unit := fun r =>
  let id := Job.id job
  if r.failOn = some id then .error (.refused (.rejected id)) r
  else
    match job.dependencies.find? (· ∉ r.ledger) with
    | some dependency => .error (.refused (.dependencyPending id dependency)) r
    | none => .ok () { r with ledger := r.ledger.mark id, order := r.order ++ [id] }

/-- Linked jobs are recorded, and miss what is not in the ledger. -/
def runner : Runner Recorder LinkedJob where
  missing r job := .ok (job.missing r.ledger)
  execute := execute

end Recorder

end WorkQueue
