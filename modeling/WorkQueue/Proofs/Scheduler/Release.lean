import Mathlib.Logic.Relation
import WorkQueue.Proofs.Scheduler.Opened
import WorkQueue.Proofs.Scheduler.Reached

/-!
# Failures of a drain

A round of the drain executes a job (`executeFirst`) and then looks at those that waited for it
(`releaseAfter`). It takes them all out of the bucket before it looks at the first one. `drain_error`
says what that comes to when a drain ends in an error, over any entries of the store: a dependent that
misses nothing any more is neither in the queue nor in the bucket afterwards, unless the release had
come past it or it had been in the queue before.
-/

namespace WorkQueue.Scheduler

open OrderedSet (indexed listed)

open Runs (Preserves)

variable {W J : Type} {parse : Parser J} {runner : Runner W J} {live : Live (Scheduler J)} {w : W}

/-- A job is stored and misses nothing in a world. -/
def Ready (parse : Parser J) (runner : Runner W J) (w : W) (t : Table) (id : JobId) : Prop :=
  ∃ job, storedJob parse t id = .ok job ∧ runner.missing w job = .ok []

/-- Whether a job is ready does not depend on the queue or the buckets. -/
theorem OnlyIn.ready {part : Part} {t t' : Table} (h : OnlyIn part t t')
    (hne : part.rank ≠ Part.jobs.rank) (id : JobId) :
    Ready parse runner w t' id ↔ Ready parse runner w t id := by
  rw [Ready, Ready, h.storedJob hne]

/-! ## Releasing -/

/-- A release that fails has come past some jobs and failed at the next one. -/
theorem release_eq_error {taken : List JobId} {s t : W × Live (Scheduler J)} {e : Error}
    (h : release runner taken s = .error e t) :
    ∃ done x rest mid, taken = done ++ x :: rest ∧ release runner done s = .ok ⟨⟩ mid ∧
      releaseOne runner x mid = .error e t := by
  induction taken generalizing s with
  | nil => cases h
  | cons id taken ih =>
    rw [release_cons] at h
    cases hone : releaseOne runner id s with
    | error e' u =>
      rw [hone] at h
      cases h
      exact ⟨[], id, taken, s, rfl, rfl, hone⟩
    | ok ready u =>
      rw [hone] at h
      obtain ⟨done, x, rest, mid, rfl, hdone, hfail⟩ := ih h
      refine ⟨id :: done, x, rest, mid, rfl, ?_, hfail⟩
      rw [release_cons, hone]
      exact hdone

namespace Placed

/-- A job that is ready is in the queue then, and nothing else changes; or nothing changes. -/
theorem releaseOne (h : Placed parse live) (runner : Runner W J) (id : JobId) (w : W) :
    (∃ ready live', Scheduler.releaseOne runner id (w, live) = .ok ready (w, live') ∧
      Placed parse live' ∧ OnlyIn .runnable live.store.table live'.store.table ∧
      ∀ other, Queued live'.store.table other ↔ Queued live.store.table other ∨
        other = id ∧ Ready parse runner w live.store.table other) ∨
    ∃ e live', Scheduler.releaseOne runner id (w, live) = .error e (w, live') ∧
      live'.store = live.store := by
  obtain ⟨found, hget, hstore, hfound⟩ := h.getJob id
  rw [releaseOne_run, hget]
  cases hjob : storedJob parse live.store.table id with
  | error e => exact .inr ⟨e, found, rfl, hstore⟩
  | ok job =>
    simp only [Runs.ofExcept_ok]
    cases hmissing : runner.missing w job with
    | error e => exact .inr ⟨e, found, rfl, hstore⟩
    | ok missing =>
      cases missing with
      | nil =>
        have hready : Ready parse runner w live.store.table id := ⟨job, hjob, hmissing⟩
        rcases hfound.addRunnable id with ⟨live', hadd, hplaced, honly, hqueued⟩ | ⟨e, hadd⟩
        · rw [hstore] at honly hqueued
          simp only [hadd]
          refine .inl ⟨true, live', rfl, hplaced, honly, fun other => (hqueued other).trans ?_⟩
          exact or_congr_right ⟨fun he => ⟨he, he ▸ hready⟩, And.left⟩
        · simp only [hadd]
          exact .inr ⟨e, found, rfl, hstore⟩
      | cons d rest =>
        refine .inl ⟨false, found, rfl, hfound, hstore ▸ OnlyIn.refl _ _, fun other => ?_⟩
        rw [hstore]
        refine ⟨.inl, ?_⟩
        rintro (hq | ⟨rfl, job', hjob', hmissing'⟩)
        · exact hq
        · cases hjob.symm.trans hjob'
          cases hmissing.symm.trans hmissing'

/-- A release adds the jobs that are ready to the queue, and changes nothing else. -/
theorem release {done : List JobId} {t : W × Live (Scheduler J)} (h : Placed parse live)
    (hrun : Scheduler.release runner done (w, live) = .ok ⟨⟩ t) :
    t.1 = w ∧ Placed parse t.2 ∧ OnlyIn .runnable live.store.table t.2.store.table ∧
      ∀ other, Queued t.2.store.table other ↔ Queued live.store.table other ∨
        other ∈ done ∧ Ready parse runner w live.store.table other := by
  induction done generalizing live with
  | nil =>
    cases hrun
    exact ⟨rfl, h, .refl _ _, fun other => by simp⟩
  | cons id done ih =>
    rw [release_cons] at hrun
    rcases h.releaseOne runner id w with
      ⟨ready, mid, hone, hmid, honly, hqueued⟩ | ⟨e, mid, hone, -⟩
    · rw [hone] at hrun
      obtain ⟨hworld, hplaced, honly', hqueued'⟩ := ih hmid hrun
      refine ⟨hworld, hplaced, honly.trans honly', fun other => ?_⟩
      rw [hqueued' other, hqueued other, honly.ready (by decide), List.mem_cons]
      tauto
    · rw [hone] at hrun
      cases hrun

end Placed

/-! ## Rounds -/

variable [Job J]

/-- The first half of a round: the first job is taken out and executed. -/
def executeFirst (runner : Runner W J) : DrainM W J J := do
  let job ← DrainM.onQueue removeRunnable
  DrainM.onWorld (runner.execute job)
  return job

/-- The second half of a round: the jobs that waited for an executed one are released. -/
def releaseAfter (runner : Runner W J) (job : J) : DrainM W J Unit := do
  Scheduler.release runner (← DrainM.onQueue (removeDependents (Job.id job)))

theorem executeNext_eq (runner : Runner W J) (s : W × Live (Scheduler J)) :
    executeNext runner s = (executeFirst runner >>= releaseAfter runner) s := by
  obtain ⟨w, live⟩ := s
  rw [executeNext_run]
  simp only [executeFirst, releaseAfter, Runs.bind_apply, DrainM.onQueue_apply]
  cases removeRunnable live with
  | error e t => rfl
  | ok job t =>
    simp only [DrainM.onWorld_apply]
    cases runner.execute job w with
    | error e w' => rfl
    | ok _ w' =>
      simp only [Runs.pure_apply, DrainM.onQueue_apply]
      cases removeDependents (Job.id job) t <;> rfl

/-- Complete rounds lead from one state to another. -/
def Rounds (runner : Runner W J) : W × Live (Scheduler J) → W × Live (Scheduler J) → Prop :=
  Relation.ReflTransGen fun s t => executeNext runner s = .ok ⟨⟩ t

/-- A drain that ends in an error has ended in a round, after complete rounds. -/
theorem drainFrom_eq_error {limit : Option Nat} {e : Error} {t : W × Live (Scheduler J)} :
    ∀ {rounds executed : Nat} {s : W × Live (Scheduler J)},
      drainFrom runner limit rounds executed s = .error e t →
      ∃ u, Rounds runner s u ∧ executeNext runner u = .error e t
  | 0, _, _, h => nomatch h
  | rounds + 1, executed, (w, live), h => by
    obtain ⟨more, hmore⟩ := hasRunnable_run live
    rw [drainFrom_succ, hmore] at h
    split at h
    · cases h
    · cases more with
      | false => cases h
      | true =>
        simp only at h
        cases hnext : executeNext runner (w, live) with
        | error e' u =>
          rw [hnext] at h
          cases h
          exact ⟨_, .refl, hnext⟩
        | ok _ u =>
          rw [hnext] at h
          obtain ⟨v, hrounds, herr⟩ := drainFrom_eq_error h
          exact ⟨v, .head hnext hrounds, herr⟩

omit [Job J] in
theorem preserves_executeFirst (runner : Runner W J) :
    Preserves (fun s => Placed parse s.2) (executeFirst runner) :=
  (preserves_onQueue preserves_removeRunnable).bind fun job =>
    (preserves_onWorld (runner.execute job)).bind fun _ => .pure job

/-- What every round keeps, complete rounds keep. -/
theorem Rounds.keeps {P : W × Live (Scheduler J) → Prop} (h : Preserves P (executeNext runner))
    {s t : W × Live (Scheduler J)} (hrounds : Rounds runner s t) (hs : P s) : P t := by
  induction hrounds with
  | refl => exact hs
  | tail _ hnext ih => exact h.of_ok ih hnext

theorem Placed.rounds {s t : W × Live (Scheduler J)} (h : Placed parse s.2)
    (hrounds : Rounds runner s t) : Placed parse t.2 :=
  hrounds.keeps (P := fun s => Placed parse s.2) (preserves_executeNext runner) h

/-- How a drain ends in an error, and what is left then of the dependents of a job that had been
executed. -/
inductive DrainFailure (parse : Parser J) (runner : Runner W J) (s : W × Live (Scheduler J))
    (e : Error) (failed : W × Live (Scheduler J)) : Prop where
  /-- After complete rounds, no job could be taken out or its execution failed. -/
  | executing {u : W × Live (Scheduler J)} (hrounds : Rounds runner s u)
      (herr : executeFirst runner u = .error e failed)
  /-- The dependents of an executed job could not be taken out, and the store did not change. -/
  | taking {u executed : W × Live (Scheduler J)} {job : J} (hrounds : Rounds runner s u)
      (hexecuted : executeFirst runner u = .ok job executed)
      (hstore : failed.2.store = executed.2.store)
  /-- The release failed at `x`, having come past `done`. Of the jobs that are ready, it has lost
  those that it had not come past and that had not been in the queue before. -/
  | releasing {u executed cleared mid : W × Live (Scheduler J)} {job : J} {done rest : List JobId}
      {x : JobId} (hrounds : Rounds runner s u) (hexecuted : executeFirst runner u = .ok job executed)
      (htaken : DrainM.onQueue (removeDependents (Job.id job)) executed =
        .ok (done ++ x :: rest) cleared)
      (hdone : release runner done cleared = .ok ⟨⟩ mid)
      (herr : releaseOne runner x mid = .error e failed)
      (hregistered : ∀ id, Registered executed.2.store.table (Job.id job) id ↔
        id ∈ done ++ x :: rest)
      (hkept : ∀ id, Ready parse runner executed.1 executed.2.store.table id →
        (Queued failed.2.store.table id ∨ Registered failed.2.store.table (Job.id job) id ↔
          Queued executed.2.store.table id ∨ id ∈ done))

/-- A drain that ends in an error has lost just those dependents, if it failed while releasing. -/
theorem drain_error {limit : Option Nat} {s failed : W × Live (Scheduler J)} {e : Error}
    (h : Opened parse s.2) (hrun : drain runner limit s = .error e failed) :
    DrainFailure parse runner s e failed := by
  obtain ⟨u, hrounds, hnext⟩ := drainFrom_eq_error hrun
  have hu := h.placed.rounds hrounds
  rw [executeNext_eq] at hnext
  rcases Runs.bind_eq_error.mp hnext with herr | ⟨job, executed, hfirst, hafter⟩
  · exact .executing hrounds herr
  have hexecuted := (preserves_executeFirst runner).of_ok hu hfirst
  rcases hexecuted.removeDependents (Job.id job) with
    ⟨taken, cleared, hok, hcleared, hbucket, hregistered, hempty⟩ | ⟨e', live', herr, hstore⟩
  · have htake : DrainM.onQueue (W := W) (removeDependents (Job.id job)) executed =
        .ok taken (executed.1, cleared) := by
      rw [show executed = (executed.1, executed.2) from rfl, DrainM.onQueue_apply, hok]
    rw [releaseAfter, Runs.bind_of_ok htake] at hafter
    obtain ⟨done, x, rest, mid, rfl, hdone, hfail⟩ := release_eq_error hafter
    obtain ⟨hworld, hmid, honly, hqueued⟩ := hcleared.release hdone
    have hstore : failed.2.store = mid.2.store := by
      rcases hmid.releaseOne runner x mid.1 with ⟨_, _, hone, -⟩ | ⟨_, _, hone, hstore⟩
      · cases hone.symm.trans hfail
      · cases hone.symm.trans hfail
        exact hstore
    refine .releasing hrounds hfirst htake hdone hfail hregistered fun id hready => ?_
    -- Nothing is registered any more, and the queue has what the release came past.
    have hready' : Ready parse runner executed.1 cleared.store.table id :=
      (hbucket.ready nofun id).mpr hready
    have hnot : ¬ Registered mid.2.store.table (Job.id job) id := by
      rw [honly.registered _ nofun]
      exact hempty id
    rw [hstore, hqueued id, hbucket.queued nofun]
    simp only [hnot, hready', and_true, or_false]
  · have htake : DrainM.onQueue (W := W) (removeDependents (Job.id job)) executed =
        .error e' (executed.1, live') := by
      rw [show executed = (executed.1, executed.2) from rfl, DrainM.onQueue_apply, herr]
    rw [releaseAfter, Runs.bind_of_error htake] at hafter
    cases hafter
    exact .taking hrounds hfirst hstore

/-- Both jobs are pushed, and three more writes are granted. -/
def bothPushed (live : Live (Scheduler LinkedJob)) : Live (Scheduler LinkedJob) :=
  (Runs.final (push missesAll follower (Runs.final (push missesAll forerunner live)))).withWrites
    (some 3)

/-- A drain has ended in an error, and a job that is ready is neither queued nor registered. -/
def loses (dependency id : JobId) :
    EStateM.Result Error (Recorder × Live (Scheduler LinkedJob)) Nat → Bool
  | .ok _ _ => false
  | .error _ failed =>
    (match storedJob LinkedJob.parse failed.2.store.table id with
      | .ok job => (job.missing failed.1.ledger).isEmpty
      | .error _ => false) &&
    !indexed runnableSpace failed.2.store.table id.bytes &&
    (listed (bucketSpace dependency) failed.2.store.table).isEmpty

/-- `forerunner` is executed and its bucket emptied, and `follower` does not come into the queue. -/
theorem drain_error_follower : ∃ live failed e,
    drain Recorder.runner none (⟨[], [], none⟩, live) = .error e failed ∧
    DrainFailure LinkedJob.parse Recorder.runner (⟨[], [], none⟩, live) e failed ∧
    Registered live.store.table (Job.id forerunner) (Job.id follower) ∧
    Ready LinkedJob.parse Recorder.runner failed.1 failed.2.store.table (Job.id follower) ∧
    ¬ Queued failed.2.store.table (Job.id follower) ∧
    ¬ Registered failed.2.store.table (Job.id forerunner) (Job.id follower) := by
  have hrun : (match load LinkedJob.parse ⟨true, 4, 4, ""⟩ none ⟨.empty, .empty, none, none⟩ with
    | .error _ _ => false
    | .ok scheduler t =>
      decide (Registered (bothPushed ⟨scheduler, t⟩).store.table (Job.id forerunner)
        (Job.id follower)) &&
      loses (Job.id forerunner) (Job.id follower)
        (drain Recorder.runner none (⟨[], [], none⟩, bothPushed ⟨scheduler, t⟩))) = true := by
    decide +kernel
  cases hload : load LinkedJob.parse ⟨true, 4, 4, ""⟩ none ⟨.empty, .empty, none, none⟩ with
  | error e t =>
    rw [hload] at hrun
    cases hrun
  | ok scheduler t =>
    rw [hload] at hrun
    obtain ⟨hbefore, hloses⟩ := (Bool.and_eq_true _ _).mp hrun
    have hforerunner := LinkedJob.parse_encode forerunner (by decide)
    have hfollower := LinkedJob.parse_encode follower (by decide)
    have hopened : Opened LinkedJob.parse (bothPushed ⟨scheduler, t⟩) :=
      .kept (.pushed (.pushed (.loaded hload) hforerunner) hfollower) rfl
    cases hdrain : drain Recorder.runner none (⟨[], [], none⟩, bothPushed ⟨scheduler, t⟩) with
    | ok n live =>
      rw [hdrain] at hloses
      cases hloses
    | error e failed =>
      rw [hdrain] at hloses
      simp only [loses, Bool.and_eq_true, Bool.not_eq_true'] at hloses
      obtain ⟨⟨hready, hqueued⟩, hempty⟩ := hloses
      refine ⟨_, failed, e, hdrain, drain_error hopened hdrain,
        of_decide_eq_true hbefore, ?_, ?_, ?_⟩
      · cases hjob : storedJob LinkedJob.parse failed.2.store.table (Job.id follower) with
        | error e' =>
          rw [hjob] at hready
          cases hready
        | ok job =>
          rw [hjob] at hready
          exact ⟨job, hjob, congrArg _ (List.isEmpty_iff.mp hready)⟩
      · rw [Queued, hqueued]
        exact Bool.false_ne_true
      · rw [Registered, List.isEmpty_iff.mp hempty]
        exact List.not_mem_nil

end WorkQueue.Scheduler
