import WorkQueue.Proofs.Scheduler.Dwindling
import WorkQueue.Proofs.Scheduler.Handle
import WorkQueue.Proofs.Scheduler.Release

/-!
# Drains in two pieces

A drain with a limit that succeeds, and another one on what it leaves, come to the same as a single
drain with both limits together (`Jobs.executeUpTo_cut`): the same result up to what the first one
gave, the same scheduler and store, the same world, and the same jobs handed to the executor in the
same order. Where the queue runs empty before the limit is reached, neither of the two goes on.

The jobs that are handed to an executor are told by one that notes them (`Runner.noting`), and
noting changes nothing else (`Jobs.execute_noting`): what one runner does, another one does as well
in a world that shows it the same (`Runner.Follows`).
-/

namespace WorkQueue

variable {W W' J : Type}

/-! ## Noting what is executed -/

/-- What one runner does in its world, another one does in what `f` makes of this world. -/
structure Runner.Follows (f : W → W') (runner : Runner W J) (runner' : Runner W' J) : Prop where
  missing : ∀ w job, runner'.missing (f w) job = runner.missing w job
  execute : ∀ w job, runner'.execute job (f w) = Runs.mapState f (runner.execute job w)

/-- A runner that also notes the jobs that it is to execute, whether that succeeds or not. -/
def Runner.noting (runner : Runner W J) : Runner (W × List J) J where
  missing w job := runner.missing w.1 job
  execute job := fun w => Runs.mapState (·, w.2 ++ [job]) (runner.execute job w.1)

theorem Runner.follows_noting (runner : Runner W J) : Follows Prod.fst runner.noting runner where
  missing _ _ := rfl
  execute w job := by
    show _ = Runs.mapState Prod.fst (Runs.mapState _ (runner.execute job w.1))
    cases runner.execute job w.1 <;> rfl

/-- What has been noted before stands before what is noted. -/
theorem Runner.noting_follows (runner : Runner W J) (before : List J) :
    Follows (fun w : W × List J => (w.1, before ++ w.2)) runner.noting runner.noting where
  missing _ _ := rfl
  execute w job := by
    show Runs.mapState _ (runner.execute job w.1) =
      Runs.mapState _ (Runs.mapState _ (runner.execute job w.1))
    cases runner.execute job w.1 with
    | ok _ w' => simp only [Runs.mapState, List.append_assoc]
    | error e w' => simp only [Runs.mapState, List.append_assoc]

namespace Scheduler

/-- A state whose world is seen through `f`. -/
def inWorld (f : W → W') (s : W × Live (Scheduler J)) : W' × Live (Scheduler J) := (f s.1, s.2)

section Follows

variable {f : W → W'} {runner : Runner W J} {runner' : Runner W' J} {limit : Option Nat}

theorem releaseOne_follows (h : runner.Follows f runner') (id : JobId)
    (s : W × Live (Scheduler J)) :
    Runs.mapState (inWorld f) (releaseOne runner id s) = releaseOne runner' id (inWorld f s) := by
  obtain ⟨w, live⟩ := s
  rw [inWorld, releaseOne_run, releaseOne_run]
  cases getJob id live with
  | error e t => rfl
  | ok job t =>
    simp only [h.missing]
    cases runner.missing w job with
    | error e => rfl
    | ok missing =>
      cases missing with
      | nil => cases addRunnable id t <;> rfl
      | cons d rest => rfl

theorem release_follows (h : runner.Follows f runner') (taken : List JobId)
    (s : W × Live (Scheduler J)) :
    Runs.mapState (inWorld f) (release runner taken s) = release runner' taken (inWorld f s) := by
  induction taken generalizing s with
  | nil => rfl
  | cons id rest ih =>
    rw [release_cons, release_cons, ← releaseOne_follows h]
    cases releaseOne runner id s with
    | error e t => rfl
    | ok ready t => exact ih t

variable [Job J]

theorem executeNext_follows (h : runner.Follows f runner') (s : W × Live (Scheduler J)) :
    Runs.mapState (inWorld f) (executeNext runner s) = executeNext runner' (inWorld f s) := by
  obtain ⟨w, live⟩ := s
  rw [inWorld, executeNext_run, executeNext_run]
  cases removeRunnable live with
  | error e t => rfl
  | ok job t =>
    simp only [h.execute]
    cases runner.execute job w with
    | error e w' => rfl
    | ok _ w' =>
      simp only [Runs.mapState]
      cases removeDependents (Job.id job) t with
      | error e u => rfl
      | ok taken u => exact release_follows h taken (w', u)

theorem drainFrom_follows (h : runner.Follows f runner') (rounds executed : Nat)
    (s : W × Live (Scheduler J)) :
    Runs.mapState (inWorld f) (drainFrom runner limit rounds executed s) =
      drainFrom runner' limit rounds executed (inWorld f s) := by
  induction rounds generalizing executed s with
  | zero => rfl
  | succ rounds ih =>
    obtain ⟨w, live⟩ := s
    obtain ⟨more, hmore⟩ := hasRunnable_run live
    have hnext := executeNext_follows h (w, live)
    rw [inWorld] at hnext ⊢
    rw [drainFrom_succ, drainFrom_succ, hmore]
    split
    · rfl
    cases more with
    | false => rfl
    | true =>
      simp only [← hnext]
      cases executeNext runner (w, live) with
      | error e t => rfl
      | ok _ t => exact ih (executed + 1) t

theorem drain_follows (h : runner.Follows f runner') (limit : Option Nat)
    (s : W × Live (Scheduler J)) :
    Runs.mapState (inWorld f) (drain runner limit s) = drain runner' limit (inWorld f s) :=
  drainFrom_follows h (roundLimit s.2) 0 s

end Follows

/-! ## Going on -/

section Pieces

variable [Job J] {runner : Runner W J} {limit limit' : Option Nat} {ids : Finset JobId}
  {s t : W × Live (Scheduler J)} {rounds executed n a : Nat}

/-- Jobs that were executed before are counted, and nothing else. -/
theorem drainFrom_shift (runner : Runner W J) (k : Nat) (limit : Option Nat) (rounds executed : Nat)
    (s : W × Live (Scheduler J)) :
    drainFrom runner (limit.map (k + ·)) rounds (k + executed) s =
      Runs.mapValue (k + ·) (drainFrom runner limit rounds executed s) := by
  have hlimit : ∀ e, (limit.map (k + ·)).any (· ≤ k + e) = limit.any (· ≤ e) := by
    intro e
    cases limit <;> simp
  induction rounds generalizing executed s with
  | zero => rfl
  | succ rounds ih =>
    obtain ⟨w, live⟩ := s
    obtain ⟨more, hmore⟩ := hasRunnable_run live
    rw [drainFrom_succ, drainFrom_succ, hmore, hlimit]
    split
    · rfl
    cases more with
    | false => rfl
    | true =>
      simp only
      cases executeNext runner (w, live) with
      | error e u => rfl
      | ok _ u => exact ih (executed + 1) u

theorem drainFrom_idle (hidle : hasRunnable t.2 = .ok false t.2) (hrounds : 0 < rounds) :
    drainFrom runner limit rounds executed t = .ok executed t := by
  obtain ⟨more, rfl⟩ : ∃ more, rounds = more + 1 := ⟨rounds - 1, by omega⟩
  obtain ⟨w, live⟩ := t
  rw [drainFrom_succ, hidle]
  split <;> rfl

theorem drainFrom_le (hrun : drainFrom runner (some n) rounds executed s = .ok a t)
    (hle : executed ≤ n) : a ≤ n := by
  induction rounds generalizing executed s with
  | zero =>
    cases hrun
    exact hle
  | succ rounds ih =>
    obtain ⟨w, live⟩ := s
    obtain ⟨more, hmore⟩ := hasRunnable_run live
    rw [drainFrom_succ, hmore] at hrun
    split at hrun
    · cases hrun
      exact hle
    · rename_i hlimit
      have hlt : executed < n := by simpa using hlimit
      cases more with
      | false =>
        cases hrun
        exact hle
      | true =>
        simp only at hrun
        cases hnext : executeNext runner (w, live) with
        | error e u =>
          rw [hnext] at hrun
          cases hrun
        | ok _ u =>
          rw [hnext] at hrun
          exact ih hrun hlt

/-- With a limit that allows more, a drain goes through the state in which one has ended. That one
has come to its limit, or there is no job in the queue. -/
theorem drainFrom_resume (h : Confined ids s.2) (hrounds : ids.card < rounds)
    (hlimit : ∀ e, limit'.any (· ≤ e) = true → limit.any (· ≤ e) = true)
    (hrun : drainFrom runner limit rounds executed s = .ok a t) :
    (∃ ids' rest, Confined ids' t.2 ∧ ids'.card < rest ∧
      drainFrom runner limit' rounds executed s = drainFrom runner limit' rest a t) ∧
    (limit.any (· ≤ a) = true ∨ hasRunnable t.2 = .ok false t.2) := by
  induction rounds generalizing ids executed s with
  | zero => omega
  | succ rounds ih =>
    obtain ⟨w, live⟩ := s
    obtain ⟨more, hmore⟩ := hasRunnable_run live
    rw [drainFrom_succ, hmore] at hrun
    split at hrun
    · rename_i hreached
      cases hrun
      exact ⟨⟨ids, rounds + 1, h, hrounds, rfl⟩, .inl hreached⟩
    · rename_i hbelow
      cases more with
      | false =>
        cases hrun
        exact ⟨⟨ids, rounds + 1, h, hrounds, rfl⟩, .inr hmore⟩
      | true =>
        simp only at hrun
        cases hnext : executeNext runner (w, live) with
        | error e u =>
          rw [hnext] at hrun
          cases hrun
        | ok _ u =>
          rw [hnext] at hrun
          obtain ⟨id, hid, hu⟩ := h.executeNext hnext
          have hcard := Finset.card_erase_of_mem hid
          have hpos := Finset.card_pos.mpr ⟨id, hid⟩
          obtain ⟨⟨ids', rest, hids', hrest, hresume⟩, hend⟩ := ih hu (by omega) hrun
          refine ⟨⟨ids', rest, hids', hrest, ?_⟩, hend⟩
          rw [drainFrom_succ, if_neg fun hreached => hbelow (hlimit _ hreached), hmore]
          simp only [hnext, hresume]

/-- A drain with a limit, and another one on what it leaves. -/
theorem drain_resume (h : Sited s.2) (hrun : drain runner (some n) s = .ok a t)
    (more : Option Nat) :
    drain runner (more.map (n + ·)) s = Runs.mapValue (a + ·) (drain runner more t) := by
  obtain ⟨ids, hids, hcard⟩ := h.exists_confined
  have hlimit : ∀ e, (more.map (n + ·)).any (· ≤ e) = true → (some n).any (· ≤ e) = true := by
    intro e
    cases more with
    | none => exact nofun
    | some m =>
      simp only [Option.map_some, Option.any_some, decide_eq_true_eq]
      omega
  obtain ⟨⟨ids', rest, hids', hrest, hresume⟩, hend⟩ := drainFrom_resume hids hcard hlimit hrun
  obtain ⟨others, hothers, hcard'⟩ := hids'.sited.exists_confined
  rw [drain, hresume]
  rcases hend with hreached | hidle
  · have hle := drainFrom_le hrun (Nat.zero_le n)
    obtain rfl : a = n := by
      simp only [Option.any_some, decide_eq_true_eq] at hreached
      omega
    have hshift := drainFrom_shift runner a more rest 0 t
    rw [Nat.add_zero] at hshift
    rw [hshift, drain]
    congr 1
    -- Both numbers of rounds are enough, for different reasons.
    exact (drainFrom_rounds hids' hrest (Nat.lt_add_right (roundLimit t.2) hrest) 0).trans
      (drainFrom_rounds hothers hcard' (Nat.lt_add_left rest hcard') 0).symm
  · rw [drainFrom_idle hidle (by omega), drain, drainFrom_idle hidle (by omega)]
    rfl

end Pieces

end Scheduler

/-! ## Executing in pieces -/

namespace Jobs

open Scheduler

variable [Job J] {runner : Runner W J} {s t : W × Live (Scheduler J)} {n a : Nat}

/-- The jobs that are handed to the executor, in order. -/
def calls (jobs : Jobs) (runner : Runner W J) (limit : Option Nat) (s : W × Live (Scheduler J)) :
    List J :=
  (Runs.final (jobs.execute runner.noting limit ((s.1, []), s.2))).1.2

/-- Noting changes nothing of what becomes of the scheduler, the store and the world. -/
theorem execute_noting (runner : Runner W J) (interval : Nat) (limit : Option Nat) (noted : List J)
    (s : W × Live (Scheduler J)) :
    Runs.mapState (inWorld Prod.fst)
        ((Jobs.new interval).execute runner.noting limit ((s.1, noted), s.2)) =
      (Jobs.new interval).execute runner limit s := by
  rw [execute_eq_drain, execute_eq_drain]
  exact drain_follows runner.follows_noting limit ((s.1, noted), s.2)

/-- What is noted comes behind what has been noted before. -/
theorem noted_execute (interval : Nat) (limit : Option Nat) (noted : List J)
    (s : W × Live (Scheduler J)) :
    (Runs.final ((Jobs.new interval).execute runner.noting limit ((s.1, noted), s.2))).1.2 =
      noted ++ (Jobs.new interval).calls runner limit s := by
  have hfollows := drain_follows (runner.noting_follows noted) limit ((s.1, []), s.2)
  rw [inWorld, List.append_nil] at hfollows
  rw [calls, execute_eq_drain, ← hfollows, Runs.final_mapState]
  rfl

/-- A drain with a limit that succeeds, and a second one on what it leaves, are together one drain
with both limits. -/
theorem execute_resume {interval : Nat} (h : Sited s.2)
    (hfirst : (Jobs.new interval).execute runner (some n) s = .ok a t) (more : Option Nat) :
    (Jobs.new interval).execute runner (more.map (n + ·)) s =
        Runs.mapValue (a + ·) ((Jobs.new interval).execute runner more t) ∧
      (Jobs.new interval).calls runner (more.map (n + ·)) s =
        (Jobs.new interval).calls runner (some n) s ++
          (Jobs.new interval).calls runner more t := by
  constructor
  · simp only [execute_eq_drain] at hfirst ⊢
    exact drain_resume h hfirst more
  · -- The same, with a runner that notes.
    have hnoting := execute_noting runner interval (some n) [] s
    rw [hfirst] at hnoting
    cases hrun : (Jobs.new interval).execute runner.noting (some n) ((s.1, []), s.2) with
    | error e u =>
      rw [hrun] at hnoting
      cases hnoting
    | ok a' u =>
      obtain ⟨⟨w, noted⟩, live⟩ := u
      rw [hrun] at hnoting
      cases hnoting
      have hnoted : (Jobs.new interval).calls runner (some n) s = noted := by
        rw [calls, hrun]
        rfl
      rw [execute_eq_drain] at hrun
      have hresume := drain_resume (s := ((s.1, []), s.2)) h hrun more
      rw [hnoted, ← noted_execute, calls]
      simp only [execute_eq_drain, hresume, Runs.final_mapValue]
      rfl

/-- A drain can be cut anywhere: one that executes up to `n` jobs and succeeds, with `a` of them
executed, and one that then executes up to `m` jobs, or all, come to what a single one comes to, up
to adding `a`. The same jobs are handed to the executor in the same order. -/
theorem executeUpTo_cut {interval : Nat} (h : Sited s.2)
    (hfirst : (Jobs.new interval).executeUpTo runner n s = .ok a t) :
    (∀ m, (Jobs.new interval).executeUpTo runner (n + m) s =
        Runs.mapValue (a + ·) ((Jobs.new interval).executeUpTo runner m t) ∧
      (Jobs.new interval).calls runner (some (n + m)) s =
        (Jobs.new interval).calls runner (some n) s ++
          (Jobs.new interval).calls runner (some m) t) ∧
    (Jobs.new interval).executeAll runner s =
        Runs.mapValue (a + ·) ((Jobs.new interval).executeAll runner t) ∧
      (Jobs.new interval).calls runner none s =
        (Jobs.new interval).calls runner (some n) s ++ (Jobs.new interval).calls runner none t :=
  ⟨fun m => execute_resume h hfirst (some m), execute_resume h hfirst none⟩

/-- A drain that is cut behind `forerunner`: `follower` is executed in the second piece. -/
theorem executeUpTo_cut_follower : ∃ s t : Recorder × Live (Scheduler LinkedJob),
    Sited s.2 ∧ (Jobs.new 1).executeUpTo Recorder.runner 1 s = .ok 1 t ∧
    (Jobs.new 1).executeAll Recorder.runner s =
      Runs.mapValue (1 + ·) ((Jobs.new 1).executeAll Recorder.runner t) ∧
    ((Jobs.new 1).calls Recorder.runner none s).map Job.id =
      [Job.id forerunner, Job.id follower] := by
  let pushed : Live (Scheduler LinkedJob) → Recorder × Live (Scheduler LinkedJob) :=
    fun live => (⟨[], [], none⟩, (bothPushed live).withWrites none)
  have hruns : (match load LinkedJob.parse ⟨true, 4, 4, ""⟩ none ⟨.empty, .empty, none, none⟩ with
    | .error _ _ => false
    | .ok scheduler u =>
      match (Jobs.new 1).executeUpTo Recorder.runner 1 (pushed ⟨scheduler, u⟩) with
      | .error _ _ => false
      | .ok a t => a == 1 &&
        ((Jobs.new 1).calls Recorder.runner (some 1) (pushed ⟨scheduler, u⟩)).map Job.id ==
          [Job.id forerunner] &&
        ((Jobs.new 1).calls Recorder.runner none t).map Job.id == [Job.id follower]) = true := by
    decide +kernel
  cases hload : load LinkedJob.parse ⟨true, 4, 4, ""⟩ none ⟨.empty, .empty, none, none⟩ with
  | error e u =>
    rw [hload] at hruns
    cases hruns
  | ok scheduler u =>
    simp only [hload] at hruns
    have hpushed : Opened LinkedJob.parse (bothPushed ⟨scheduler, u⟩) :=
      .kept (.pushed (.pushed (.loaded hload) (LinkedJob.parse_encode forerunner (by decide)))
        (LinkedJob.parse_encode follower (by decide))) rfl
    have hsited : Sited (pushed ⟨scheduler, u⟩).2 :=
      (hpushed.placed.held.withWrites none).sited
    cases hfirst : (Jobs.new 1).executeUpTo Recorder.runner 1 (pushed ⟨scheduler, u⟩) with
    | error e t =>
      rw [hfirst] at hruns
      cases hruns
    | ok a t =>
      simp only [hfirst, Bool.and_eq_true, beq_iff_eq] at hruns
      obtain ⟨⟨rfl, hbefore⟩, hbehind⟩ := hruns
      obtain ⟨-, hall, hcalls⟩ := executeUpTo_cut hsited hfirst
      refine ⟨_, t, hsited, hfirst, hall, ?_⟩
      rw [hcalls, List.map_append, hbefore, hbehind]
      rfl

end Jobs

end WorkQueue
