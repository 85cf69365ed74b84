import WorkQueue.Proofs.Runs
import WorkQueue.Scheduler.Jobs
import WorkQueue.Scheduler.Worker

/-!
# Calls through a worker

A `Call` is a method of the scheduler, by the type of what it gives. It can be made directly, on
the scheduler and its store, or by asking a worker: then it is sent as a `Command`, and what it
gives is read off the `Reply`.

* `Jobs.execute_eq_drain`: reports do not change what is drained;
* `Call.perform_command`: the worker does for a command what the call does directly;
* `Call.ask_serving`: so asking a worker is the call itself, unless the call panics;
* `asking_agrees`: a session of calls through a worker is the session of direct calls, as far as
  that goes.
-/

namespace WorkQueue

variable {W J : Type}

/-! ## Reports -/

namespace Jobs

variable [Job J] (runner : Runner W J) (limit : Option Nat)

/-- A driven scheduler without the reports on it. -/
abbrev unreported {α : Type} :
    EStateM.Result Error (Driving W J) α → EStateM.Result Error (W × Live (Scheduler J)) α :=
  Runs.mapState Driving.place

omit [Job J] in
theorem unreported_onPlace {α : Type} (action : DrainM W J α) (s : Driving W J) :
    unreported (DrivingM.onPlace action s) = action s.place := by
  simp only [DrivingM.onPlace]
  cases action s.place <;> rfl

omit [Job J] in
theorem unreported_finish (executed : Nat) (s : Driving W J) :
    unreported (finish executed s) = .ok executed s.place := rfl

theorem remainder_pos {interval : Nat} (h : 0 < interval) (n : Nat) :
    remainder n interval = .ok (n % interval) := by
  cases interval with
  | zero => exact absurd h (Nat.lt_irrefl 0)
  | succ interval => rfl

omit [Job J] in
theorem unreported_reportInterval {jobs : Jobs} (h : 0 < jobs.interval) (executed : Nat)
    (s : Driving W J) : unreported (reportInterval jobs executed s) = .ok () s.place := by
  simp only [reportInterval, remainder_pos h, Runs.bind_apply, Runs.ofExcept_ok]
  split <;> rfl

theorem unreported_executeFrom {jobs : Jobs} (h : 0 < jobs.interval) (rounds executed : Nat)
    (s : Driving W J) :
    unreported (jobs.executeFrom runner limit rounds executed s) =
      Scheduler.drainFrom runner limit rounds executed s.place := by
  induction rounds generalizing executed s with
  | zero => exact unreported_finish executed s
  | succ rounds ih =>
    rw [executeFrom, Scheduler.drainFrom]
    split
    · exact unreported_finish executed s
    refine Runs.mapState_bind _ (unreported_onPlace _ s) fun more s => ?_
    split
    · exact unreported_finish executed s
    refine Runs.mapState_bind _ (unreported_onPlace _ s) fun _ s => ?_
    have hreport := unreported_reportInterval h (executed + 1) s
    refine (Runs.mapState_bind (y := pure ()) _ hreport fun _ s => ih (executed + 1) s).trans ?_
    rfl

/-- Whatever the interval between reports is, it is the scheduler that is drained. -/
theorem execute_eq_drain (interval : Nat) :
    (Jobs.new interval).execute runner limit = Scheduler.drain runner limit := by
  funext s
  have hinterval : 0 < (Jobs.new interval).interval := Nat.le_max_right _ _
  have h := unreported_executeFrom runner limit hinterval (Scheduler.roundLimit s.2) 0 ⟨s, []⟩
  rw [Scheduler.drain, ← h, execute]
  cases (Jobs.new interval).executeFrom runner limit (Scheduler.roundLimit s.2) 0 ⟨s, []⟩ <;> rfl

end Jobs

/-! ## Calls -/

/-- A method of the scheduler with its arguments, by the type of what it gives. -/
inductive Call (W J : Type) : Type → Type where
  | putJob (job : J) : Call W J Unit
  | hasJob (id : JobId) : Call W J Bool
  | getJob (id : JobId) : Call W J J
  | addRunnable (id : JobId) : Call W J Unit
  | hasRunnable : Call W J Bool
  | runnableIds : Call W J (List JobId)
  | removeRunnable : Call W J J
  | addDependency (dependency dependent : JobId) : Call W J Unit
  | removeDependents (dependency : JobId) : Call W J (List JobId)
  | addMissing (ids : List JobId) : Call W J Unit
  | removeMissing (ids : List JobId) : Call W J Unit
  | missingIds : Call W J (List JobId)
  | missingCount : Call W J Nat
  | pendingCount : Call W J UInt64
  | disableCaching : Call W J Unit
  | clear : Call W J Unit
  /-- Draining, with so many executed jobs between two reports. -/
  | execute (runner : Runner W J) (limit : Option Nat) (interval : Nat) : Call W J Nat

namespace Call

variable {α : Type}

/-- Makes the call on the scheduler itself. -/
def direct [Job J] : Call W J α → DrainM W J α
  | putJob job => .onQueue (Scheduler.putJob job)
  | hasJob id => .onQueue (Scheduler.hasJob id)
  | getJob id => .onQueue (Scheduler.getJob id)
  | addRunnable id => .onQueue (Scheduler.addRunnable id)
  | hasRunnable => .onQueue Scheduler.hasRunnable
  | runnableIds => .onQueue Scheduler.runnableIds
  | removeRunnable => .onQueue Scheduler.removeRunnable
  | addDependency dependency dependent => .onQueue (Scheduler.addDependency dependency dependent)
  | removeDependents dependency => .onQueue (Scheduler.removeDependents dependency)
  | addMissing ids => .onQueue (Scheduler.addMissing ids)
  | removeMissing ids => .onQueue (Scheduler.removeMissing ids)
  | missingIds => .onQueue Scheduler.missingIds
  | missingCount => .onQueue Scheduler.missingCount
  | pendingCount => .onQueue Scheduler.pendingCount
  | disableCaching => .onQueue Scheduler.disableCaching
  | clear => .onQueue Scheduler.clear
  | execute runner none interval => (Jobs.new interval).executeAll runner
  | execute runner (some limit) interval => (Jobs.new interval).executeUpTo runner limit

/-- The command that a call is sent as. -/
def command : Call W J α → Command W J
  | putJob job => .putJob job
  | hasJob id => .hasJob id
  | getJob id => .getJob id
  | addRunnable id => .addRunnable id
  | hasRunnable => .hasRunnable
  | runnableIds => .runnableIds
  | removeRunnable => .removeRunnable
  | addDependency dependency dependent => .addDependency dependency dependent
  | removeDependents dependency => .removeDependents dependency
  | addMissing ids => .addMissing ids
  | removeMissing ids => .removeMissing ids
  | missingIds => .missingIds
  | missingCount => .missingCount
  | pendingCount => .pendingCount
  | disableCaching => .disableCaching
  | clear => .clear
  | execute runner limit _ => .execute runner limit

/-- What a call gives, read off the reply to its command. -/
def read : Call W J α → Reply J → Option α
  | hasJob _, .flag b | hasRunnable, .flag b => some b
  | getJob _, .job job | removeRunnable, .job job => some job
  | runnableIds, .ids ids | removeDependents _, .ids ids | missingIds, .ids ids => some ids
  | missingCount, .count n | execute _ _ _, .count n => some n
  | pendingCount, .count n => some (.ofNat n)
  | putJob _, .done | addRunnable _, .done | addDependency _ _, .done | addMissing _, .done
  | removeMissing _, .done | disableCaching, .done | clear, .done => some ()
  | _, _ => none

/-- Has a worker make the call. A reply of another kind would be as good as none. -/
def ask [Job J] (call : Call W J α) : EStateM Error (W × Live (Worker J)) α := do
  match call.read (← Worker.serve call.command) with
  | some a => return a
  | none => throw .closed

/-- The reply that holds what a call gives. -/
def reply : Call W J α → α → Reply J
  | hasJob _, b | hasRunnable, b => .flag b
  | getJob _, job | removeRunnable, job => .job job
  | runnableIds, ids | removeDependents _, ids | missingIds, ids => .ids ids
  | missingCount, n | execute _ _ _, n => .count n
  | pendingCount, n => .count n.toNat
  | putJob _, _ | addRunnable _, _ | addDependency _ _, _ | addMissing _, _ | removeMissing _, _
  | disableCaching, _ | clear, _ => .done

theorem read_reply (call : Call W J α) (a : α) : call.read (call.reply a) = some a := by
  cases call with
  | pendingCount => exact congrArg some UInt64.ofNat_toNat
  | _ => rfl

theorem onQueue_reply {β : Type} (x : LiveM (Scheduler J) α) (f : α → β) :
    (DrainM.onQueue (do return f (← x)) : DrainM W J β) = do return f (← DrainM.onQueue x) := by
  funext s
  show DrainM.onQueue (x >>= _) s = (DrainM.onQueue x >>= _) s
  simp only [DrainM.onQueue, Runs.bind_apply]
  cases x s.2 <;> rfl

variable [Job J]

/-- The command of a call does what the call does, and replies with what it gives. -/
theorem perform_command (call : Call W J α) :
    call.command.perform = do return call.reply (← call.direct) := by
  cases call with
  | execute runner limit interval =>
    have hdirect : (execute runner limit interval).direct = Scheduler.drain runner limit := by
      rw [← Jobs.execute_eq_drain runner limit interval]
      cases limit <;> rfl
    rw [hdirect]
    rfl
  | hasRunnable => exact onQueue_reply Scheduler.hasRunnable Reply.flag
  | missingCount => exact onQueue_reply Scheduler.missingCount Reply.count
  | pendingCount => exact onQueue_reply Scheduler.pendingCount fun n => Reply.count n.toNat
  | disableCaching => exact onQueue_reply Scheduler.disableCaching fun _ => Reply.done
  | _ => exact onQueue_reply _ _

/-- Asking a worker is the call itself, unless the call panics: then the worker has gone. -/
theorem ask_serving (call : Call W J α) (world : W) (scheduler : Scheduler J) (store : Store) :
    call.ask (world, ⟨.serving scheduler, store⟩) =
      match call.direct (world, ⟨scheduler, store⟩) with
      | .ok a (w, live) => .ok a (w, ⟨.serving live.memory, live.store⟩)
      | .error .panicked (w, live) => .error .closed (w, ⟨.gone live.memory, live.store⟩)
      | .error e (w, live) => .error e (w, ⟨.serving live.memory, live.store⟩) := by
  rw [ask, Runs.bind_apply]
  simp only [Worker.serve, perform_command, Runs.bind_apply]
  cases call.direct (world, ⟨scheduler, store⟩) with
  | ok a t => simp only [Runs.pure_apply, read_reply]
  | error e t => cases e <;> rfl

/-- A worker that has gone replies to nothing. -/
theorem ask_gone (call : Call W J α) (world : W) (scheduler : Scheduler J) (store : Store) :
    call.ask (world, ⟨.gone scheduler, store⟩) =
      .error .closed (world, ⟨.gone scheduler, store⟩) := rfl

/-! ## Sessions -/

/-- Asks a worker to make calls, one after the other. -/
def asking : List ((α : Type) × Call W J α) → W × Live (Worker J) →
    List (Runs.Outcome Error) × (W × Live (Worker J))
  | [], s => ([], s)
  | call :: rest, s =>
    let (first, next) := Runs.attempt call.2.ask s
    let (replies, last) := asking rest next
    (first :: replies, last)

/-- Makes calls on the scheduler, one after the other, until one panics. An error of another kind
does not keep the later ones from being made. The calls from the panic on are given back, with what
is there after it. -/
def directly : List ((α : Type) × Call W J α) → W × Live (Scheduler J) →
    List (Runs.Outcome Error) × List ((α : Type) × Call W J α) × (W × Live (Scheduler J))
  | [], s => ([], [], s)
  | call :: rest, s =>
    match call.2.direct s with
    | .error .panicked t => ([], call :: rest, t)
    | result =>
      let (replies, left, last) := directly rest (Runs.final result)
      (⟨call.1, Runs.outcome result⟩ :: replies, left, last)

/-- The reply to a call that a worker does not make. -/
def unanswered (call : (α : Type) × Call W J α) : Runs.Outcome Error := ⟨call.1, .error .closed⟩

theorem directly_panicked {call : (α : Type) × Call W J α} {s t : W × Live (Scheduler J)}
    (h : call.2.direct s = .error .panicked t) (rest : List ((α : Type) × Call W J α)) :
    directly (call :: rest) s = ([], call :: rest, t) := by
  simp only [directly, h]

theorem directly_cons {call : (α : Type) × Call W J α} {s : W × Live (Scheduler J)}
    (h : ∀ t, call.2.direct s ≠ .error .panicked t) (rest : List ((α : Type) × Call W J α)) :
    directly (call :: rest) s =
      (⟨call.1, Runs.outcome (call.2.direct s)⟩ ::
          (directly rest (Runs.final (call.2.direct s))).1,
        (directly rest (Runs.final (call.2.direct s))).2) := by
  rw [directly]
  split
  · exact absurd ‹_› (h _)
  · rfl

/-- One call made through a worker and directly: both panic, or both give the same. -/
theorem attempt_ask (call : Call W J α) (world : W) (scheduler : Scheduler J) (store : Store) :
    (∃ w live, call.direct (world, ⟨scheduler, store⟩) = .error .panicked (w, live) ∧
      Runs.attempt call.ask (world, ⟨.serving scheduler, store⟩) =
        (⟨α, .error .closed⟩, (w, ⟨.gone live.memory, live.store⟩))) ∨
    (∀ t, call.direct (world, ⟨scheduler, store⟩) ≠ .error .panicked t) ∧
      ∃ w live, Runs.final (call.direct (world, ⟨scheduler, store⟩)) = (w, live) ∧
        Runs.attempt call.ask (world, ⟨.serving scheduler, store⟩) =
          (⟨α, Runs.outcome (call.direct (world, ⟨scheduler, store⟩))⟩,
            (w, ⟨.serving live.memory, live.store⟩)) := by
  rw [Runs.attempt, ask_serving]
  cases call.direct (world, ⟨scheduler, store⟩) with
  | ok a t => exact .inr ⟨nofun, t.1, t.2, rfl, rfl⟩
  | error e t =>
    by_cases he : e = .panicked
    · subst he
      exact .inl ⟨t.1, t.2, rfl, rfl⟩
    · refine .inr ⟨fun t' h => he (by cases h; rfl), t.1, t.2, rfl, ?_⟩
      cases e <;> first | rfl | exact absurd rfl he

theorem asking_gone (calls : List ((α : Type) × Call W J α)) (world : W) (scheduler : Scheduler J)
    (store : Store) :
    asking calls (world, ⟨.gone scheduler, store⟩) =
      (calls.map unanswered, (world, ⟨.gone scheduler, store⟩)) := by
  induction calls with
  | nil => rfl
  | cons call rest ih =>
    simp only [asking, Runs.attempt, ask_gone, Runs.final_error, ih]
    rfl

/-- Whatever calls are made through a worker, the replies are those of the direct calls, and taking
the scheduler back gives the one that these leave. If one panics, it and all later ones are replied
to with `closed`, nothing changes after it, and the scheduler cannot be taken back. -/
theorem asking_agrees (calls : List ((α : Type) × Call W J α)) (world : W)
    (scheduler : Scheduler J) (store : Store) :
    ∃ replies left last worker,
      directly calls (world, ⟨scheduler, store⟩) = (replies, left, last) ∧
      asking calls (world, ⟨.serving scheduler, store⟩) =
        (replies ++ left.map unanswered, (last.1, ⟨worker, last.2.store⟩)) ∧
      worker.shutdown = if left.isEmpty then .ok last.2.memory else .error .panicked := by
  induction calls generalizing world scheduler store with
  | nil => exact ⟨[], [], _, _, rfl, rfl, rfl⟩
  | cons call rest ih =>
    rcases call.2.attempt_ask world scheduler store with
      ⟨w, live, hdirect, hask⟩ | ⟨hdirect, w, live, hfinal, hask⟩
    · refine ⟨[], call :: rest, (w, live), .gone live.memory, directly_panicked hdirect rest, ?_, rfl⟩
      simp only [asking, hask, asking_gone]
      rfl
    · obtain ⟨replies, left, last, worker, hrest, hasking, hshutdown⟩ :=
        ih w live.memory live.store
      let first : Runs.Outcome Error :=
        ⟨call.1, Runs.outcome (call.2.direct (world, ⟨scheduler, store⟩))⟩
      refine ⟨first :: replies, left, last, worker, ?_, ?_, hshutdown⟩
      · rw [directly_cons hdirect, hfinal, hrest]
      · simp only [asking, hask, hasking]
        rfl

end Call

end WorkQueue
