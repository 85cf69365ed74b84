import WorkQueue.Proofs.Runs
import WorkQueue.Scheduler.Drain

/-!
# Running the drain

What `release`, `executeNext` and `drainFrom` give, read off the verbs of the scheduler, the world
and the rounds that follow.
-/

namespace WorkQueue

namespace DrainM

variable {W J α : Type}

@[simp] theorem onQueue_apply (action : LiveM (Scheduler J) α) (w : W) (live : Live (Scheduler J)) :
    onQueue action (w, live) = match action live with
      | .ok a t => .ok a (w, t)
      | .error e t => .error e (w, t) := rfl

@[simp] theorem onWorld_apply (action : EStateM Error W α) (w : W) (live : Live (Scheduler J)) :
    onWorld action (w, live) = match action w with
      | .ok a w' => .ok a (w', live)
      | .error e w' => .error e (w', live) := rfl

@[simp] theorem world_apply (s : W × Live (Scheduler J)) : world s = .ok s.1 s := rfl

end DrainM

namespace Scheduler

variable {W J : Type}

/-- What `release` does with one job; tells whether the job was queued. -/
def releaseOne (runner : Runner W J) (id : JobId) : DrainM W J Bool := do
  let job ← DrainM.onQueue (getJob id)
  let missing ← MonadExcept.ofExcept (runner.missing (← DrainM.world) job)
  if missing.isEmpty then DrainM.onQueue (addRunnable id)
  return missing.isEmpty

theorem releaseOne_run (runner : Runner W J) (id : JobId) (w : W) (live : Live (Scheduler J)) :
    releaseOne runner id (w, live) = match getJob id live with
      | .error e t => .error e (w, t)
      | .ok job t => match runner.missing w job with
        | .error e => .error e (w, t)
        | .ok [] => match addRunnable id t with
          | .error e u => .error e (w, u)
          | .ok _ u => .ok true (w, u)
        | .ok (_ :: _) => .ok false (w, t) := by
  simp only [releaseOne, Runs.bind_apply, DrainM.onQueue_apply]
  cases getJob id live with
  | error e t => rfl
  | ok job t =>
    simp only [DrainM.world_apply]
    cases runner.missing w job with
    | error e => rfl
    | ok missing =>
      cases missing with
      | nil =>
        show (DrainM.onQueue (addRunnable id) >>= fun _ => pure true) (w, t) = _
        simp only [Runs.bind_apply, DrainM.onQueue_apply]
        cases addRunnable id t <;> rfl
      | cons d rest => rfl

theorem release_cons (runner : Runner W J) (id : JobId) (rest : List JobId)
    (s : W × Live (Scheduler J)) :
    release runner (id :: rest) s = match releaseOne runner id s with
      | .ok _ t => release runner rest t
      | .error e t => .error e t := by
  obtain ⟨w, live⟩ := s
  rw [release, Runs.forM_cons_apply, releaseOne_run]
  simp only [Runs.bind_apply, DrainM.onQueue_apply]
  cases getJob id live with
  | error e t => rfl
  | ok job t =>
    simp only [DrainM.world_apply]
    cases runner.missing w job with
    | error e => rfl
    | ok missing =>
      cases missing with
      | nil =>
        simp only [Runs.ofExcept_ok, List.isEmpty_nil, if_true, DrainM.onQueue_apply]
        cases addRunnable id t <;> rfl
      | cons d rest => rfl

variable [Job J]

theorem executeNext_run (runner : Runner W J) (w : W) (live : Live (Scheduler J)) :
    executeNext runner (w, live) = match removeRunnable live with
      | .error e t => .error e (w, t)
      | .ok job t => match runner.execute job w with
        | .error e w' => .error e (w', t)
        | .ok _ w' => match removeDependents (Job.id job) t with
          | .error e u => .error e (w', u)
          | .ok taken u => release runner taken (w', u) := by
  simp only [executeNext, Runs.bind_apply, DrainM.onQueue_apply]
  cases removeRunnable live with
  | error e t => rfl
  | ok job t =>
    simp only [DrainM.onWorld_apply]
    cases runner.execute job w with
    | error e w' => rfl
    | ok _ w' =>
      simp only [DrainM.onQueue_apply]
      cases removeDependents (Job.id job) t <;> rfl

theorem drainFrom_succ (runner : Runner W J) (limit : Option Nat) (rounds executed : Nat) (w : W)
    (live : Live (Scheduler J)) :
    drainFrom runner limit (rounds + 1) executed (w, live) =
      if limit.any (· ≤ executed) then .ok executed (w, live)
      else match hasRunnable live with
        | .error e t => .error e (w, t)
        | .ok false t => .ok executed (w, t)
        | .ok true t => match executeNext runner (w, t) with
          | .error e u => .error e u
          | .ok _ u => drainFrom runner limit rounds (executed + 1) u := by
  rw [drainFrom]
  cases limit.any (· ≤ executed) with
  | true => rfl
  | false =>
    simp only [Bool.false_eq_true, if_false, Runs.bind_apply, DrainM.onQueue_apply]
    cases hasRunnable live with
    | error e t => rfl
    | ok more t =>
      cases more with
      | true =>
        simp only [Bool.not_true, Bool.false_eq_true, if_false, Runs.bind_apply]
        cases executeNext runner (w, t) <;> rfl
      | false => rfl

/-! ## Loops -/

omit [Job J] in
theorem hasRunnable_run (live : Live (Scheduler J)) :
    ∃ more, hasRunnable live = .ok more live := ⟨_, rfl⟩

section Loops

variable {runner : Runner W J} {P : W × Live (Scheduler J) → Prop}

open Runs (Preserves)

/-- What every round keeps, any number of rounds keeps. -/
theorem preserves_drainFrom (h : Preserves P (executeNext runner)) (limit : Option Nat) :
    ∀ rounds executed : Nat, Preserves P (drainFrom runner limit rounds executed)
  | 0, executed => .pure executed
  | rounds + 1, executed => by
    rintro ⟨w, live⟩ hs
    obtain ⟨more, hmore⟩ := hasRunnable_run live
    rw [drainFrom_succ, hmore]
    split
    · exact hs
    cases more with
    | false => exact hs
    | true =>
      simp only
      cases hx : executeNext runner (w, live) with
      | error e u => exact h.of_error hs hx
      | ok _ u => exact preserves_drainFrom h limit rounds (executed + 1) u (h.of_ok hs hx)

theorem preserves_drain (h : Preserves P (executeNext runner)) (limit : Option Nat) :
    Preserves P (drain runner limit) :=
  fun s hs => preserves_drainFrom h limit (roundLimit s.2) 0 s hs

end Loops

end Scheduler

end WorkQueue
