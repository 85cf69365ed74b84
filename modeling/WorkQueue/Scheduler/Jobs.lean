import WorkQueue.Scheduler.Drain

/-!
# Draining with reports

`Jobs` is how a scheduler is drained by hand: with a report after every so many executed jobs, and
one at the end. The reports are for the reader of a log only. What becomes of the scheduler is what
`Scheduler.drain` makes of it, whatever the interval between the reports is.
-/

namespace WorkQueue

/-- How a scheduler is drained. -/
structure Jobs where
  /-- The number of executed jobs between two reports. -/
  interval : Nat
deriving DecidableEq, Repr

/-- How far draining has come. -/
structure Report where
  executed : Nat
  pending : UInt64
deriving DecidableEq, Repr

/-- A world and a scheduler that is being drained, with the reports on it. -/
structure Driving (W J : Type) where
  place : W × Live (Scheduler J)
  reports : List Report

/-- An action on a scheduler that is being drained. -/
abbrev DrivingM (W J : Type) := EStateM Error (Driving W J)

namespace DrivingM

variable {W J α : Type}

/-- An action without a report. -/
def onPlace (action : DrainM W J α) : DrivingM W J α := fun s =>
  match action s.place with
  | .ok a place => .ok a { s with place }
  | .error e place => .error e { s with place }

/-- Reports how many jobs were executed, and how many are pending. -/
def report (executed : Nat) : DrivingM W J Unit := do
  let pending ← onPlace (DrainM.onQueue Scheduler.pendingCount)
  modify fun s => { s with reports := s.reports ++ [⟨executed, pending⟩] }

end DrivingM

namespace Jobs

variable {W J : Type} [Job J]

/-- Reports are not made less often than after every job. -/
def new (interval : Nat) : Jobs := ⟨max interval 1⟩

/-- What is left of a number when it is divided. There is no dividing by zero. -/
def remainder (n : Nat) : Nat → Except Error Nat
  | 0 => .error .panicked
  | interval + 1 => .ok (n % (interval + 1))

omit [Job J] in
/-- Reports if it is time for that. -/
def reportInterval (jobs : Jobs) (executed : Nat) : DrivingM W J Unit := do
  if (← MonadExcept.ofExcept (remainder executed jobs.interval)) = 0 then DrivingM.report executed

omit [Job J] in
/-- The last report, with the number of executed jobs. -/
def finish (executed : Nat) : DrivingM W J Nat := do
  DrivingM.report executed
  return executed

/-- At most `rounds` rounds, `executed` jobs having been executed before them. -/
def executeFrom (jobs : Jobs) (runner : Runner W J) (limit : Option Nat) :
    (rounds executed : Nat) → DrivingM W J Nat
  | 0, executed => finish executed
  | rounds + 1, executed => do
    if limit.any (· ≤ executed) then finish executed
    else if !(← DrivingM.onPlace (DrainM.onQueue Scheduler.hasRunnable)) then finish executed
    else
      DrivingM.onPlace (Scheduler.executeNext runner)
      reportInterval jobs (executed + 1)
      executeFrom jobs runner limit rounds (executed + 1)

/-- Executes runnable jobs, and drops the reports. -/
def execute (jobs : Jobs) (runner : Runner W J) (limit : Option Nat) : DrainM W J Nat := fun s =>
  match executeFrom jobs runner limit (Scheduler.roundLimit s.2) 0 ⟨s, []⟩ with
  | .ok executed driving => .ok executed driving.place
  | .error e driving => .error e driving.place

/-- Executes all runnable jobs. -/
def executeAll (jobs : Jobs) (runner : Runner W J) : DrainM W J Nat := jobs.execute runner none

/-- Executes runnable jobs, `limit` of them at most. -/
def executeUpTo (jobs : Jobs) (runner : Runner W J) (limit : Nat) : DrainM W J Nat :=
  jobs.execute runner (some limit)

end Jobs

end WorkQueue
