import WorkQueue.Scheduler.Drain

/-!
# The worker

A scheduler can be given to a `Worker`, which carries out one `Command` after the other and answers
each with a `Reply` or an error. An error does not stop the worker, but an executor that does not
return ends it: that command and all later ones are answered with `Error.closed`.

`Command.perform` is what a command means for a scheduler, and `Worker.serve` what the worker makes
of it.
-/

namespace WorkQueue

/-- A verb of the scheduler with its arguments. -/
inductive Command (W J : Type) where
  | putJob (job : J)
  | hasJob (id : JobId)
  | getJob (id : JobId)
  | addRunnable (id : JobId)
  | hasRunnable
  | runnableIds
  | removeRunnable
  | addDependency (dependency dependent : JobId)
  | removeDependents (dependency : JobId)
  | addMissing (ids : List JobId)
  | removeMissing (ids : List JobId)
  | missingIds
  | missingCount
  | pendingCount
  | disableCaching
  | clear
  | execute (runner : Runner W J) (limit : Option Nat)

/-- What a command gives. -/
inductive Reply (J : Type) where
  | done
  | flag (b : Bool)
  | count (n : Nat)
  | job (job : J)
  | ids (ids : List JobId)

namespace Command

variable {W J : Type} [Job J]

open Scheduler in
/-- Carries out a command. -/
def perform : Command W J → DrainM W J (Reply J)
  | putJob job => DrainM.onQueue do Scheduler.putJob job; return .done
  | hasJob id => DrainM.onQueue do return .flag (← Scheduler.hasJob id)
  | getJob id => DrainM.onQueue do return .job (← Scheduler.getJob id)
  | addRunnable id => DrainM.onQueue do Scheduler.addRunnable id; return .done
  | hasRunnable => DrainM.onQueue do return .flag (← Scheduler.hasRunnable)
  | runnableIds => DrainM.onQueue do return .ids (← Scheduler.runnableIds)
  | removeRunnable => DrainM.onQueue do return .job (← Scheduler.removeRunnable)
  | addDependency dependency dependent =>
    DrainM.onQueue do Scheduler.addDependency dependency dependent; return .done
  | removeDependents dependency =>
    DrainM.onQueue do return .ids (← Scheduler.removeDependents dependency)
  | addMissing ids => DrainM.onQueue do Scheduler.addMissing ids; return .done
  | removeMissing ids => DrainM.onQueue do Scheduler.removeMissing ids; return .done
  | missingIds => DrainM.onQueue do return .ids (← Scheduler.missingIds)
  | missingCount => DrainM.onQueue do return .count (← Scheduler.missingCount)
  | pendingCount => DrainM.onQueue do return .count (← Scheduler.pendingCount).toNat
  | disableCaching => DrainM.onQueue do Scheduler.disableCaching; return .done
  | clear => DrainM.onQueue do Scheduler.clear; return .done
  | execute runner limit => do return .count (← drain runner limit)

end Command

/-- Who carries out commands. -/
inductive Worker (J : Type) where
  | serving (scheduler : Scheduler J)
  /-- The worker has ended, and left its scheduler as it was then. -/
  | gone (scheduler : Scheduler J)

namespace Worker

variable {W J : Type}

/-- Has a worker carry out a command. -/
def serve [Job J] (command : Command W J) :
    EStateM Error (W × Live (Worker J)) (Reply J) := fun s =>
  match s.2.memory with
  | .gone _ => .error .closed s
  | .serving scheduler =>
    match command.perform (s.1, ⟨scheduler, s.2.store⟩) with
    | .ok reply (world, live) => .ok reply (world, ⟨.serving live.memory, live.store⟩)
    | .error .panicked (world, live) => .error .closed (world, ⟨.gone live.memory, live.store⟩)
    | .error e (world, live) => .error e (world, ⟨.serving live.memory, live.store⟩)

/-- Takes the scheduler back. -/
def shutdown : Worker J → Except Error (Scheduler J)
  | .serving scheduler => .ok scheduler
  | .gone _ => .error .panicked

/-- Shows a registry the current numbers of the scheduler's caches, or the last ones. -/
def publish : Worker J → Registry → Registry
  | .serving scheduler | .gone scheduler => scheduler.publish

/-- The way to the worker, in words. -/
def describe : Worker J → String
  | .serving _ => "SchedulerHandle \x7b closed: false \x7d"
  | .gone _ => "SchedulerHandle \x7b closed: true \x7d"

end Worker

end WorkQueue
