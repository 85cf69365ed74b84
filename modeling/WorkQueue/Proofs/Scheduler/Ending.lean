import WorkQueue.Proofs.Scheduler.Cut

/-!
# Every drain ends

`Scheduler.drain` is allowed a number of rounds. Here its rounds are taken without such a number:
`Ends` says how a drain that goes on as long as there are runnable jobs comes to a result, and which
jobs it has taken out of the queue until then.

* `exists_ends`: every drain comes to a result, since a round leaves fewer ids under which
  there is a job;
* `Ends.length_le`: so it has taken out at most as many jobs as there were ids;
* `Ends.drainFrom_eq`: the result is that of the rounds that are allowed, if these are more;
* `executeAll_ends`: for the whole drain, over any entries of the store and anything in memory.

The queue itself is no measure: taking its first key out may leave the key where it is, and a round
adds to the queue.
-/

namespace WorkQueue.Scheduler

variable {W J : Type} [Job J]

/-- What becomes of a job that has been taken out: it is executed, and those that waited for it are
released. -/
def settle (runner : Runner W J) (job : J) : DrainM W J Unit := do
  DrainM.onWorld (runner.execute job)
  releaseAfter runner job

theorem executeNext_eq_settle {runner : Runner W J} {s t : W × Live (Scheduler J)} {job : J}
    (htake : DrainM.onQueue removeRunnable s = .ok job t) :
    executeNext runner s = settle runner job t := Runs.bind_of_ok htake

/-- From a state, with so many jobs executed before, a drain takes jobs out of the queue and ends
with a result. -/
inductive Ends (runner : Runner W J) (limit : Option Nat) :
    Nat → W × Live (Scheduler J) → List J →
      EStateM.Result Error (W × Live (Scheduler J)) Nat → Prop where
  /-- The limit has been reached. -/
  | limited {executed s} (hlimit : limit.any (· ≤ executed)) :
    Ends runner limit executed s [] (.ok executed s)
  /-- There is no runnable job. -/
  | idle {executed s t} (hlimit : ¬ limit.any (· ≤ executed))
    (hidle : DrainM.onQueue hasRunnable s = .ok false t) :
    Ends runner limit executed s [] (.ok executed t)
  /-- Whether there is a runnable job cannot be told. -/
  | unread {executed s e t} (hlimit : ¬ limit.any (· ≤ executed))
    (hread : DrainM.onQueue hasRunnable s = .error e t) :
    Ends runner limit executed s [] (.error e t)
  /-- There is a runnable job, and it cannot be taken out. -/
  | untaken {executed s t e u} (hlimit : ¬ limit.any (· ≤ executed))
    (hmore : DrainM.onQueue hasRunnable s = .ok true t)
    (htake : DrainM.onQueue removeRunnable t = .error e u) :
    Ends runner limit executed s [] (.error e u)
  /-- A job is taken out, and what becomes of it fails. -/
  | unsettled {executed s t job u e v} (hlimit : ¬ limit.any (· ≤ executed))
    (hmore : DrainM.onQueue hasRunnable s = .ok true t)
    (htake : DrainM.onQueue removeRunnable t = .ok job u)
    (hsettle : settle runner job u = .error e v) :
    Ends runner limit executed s [job] (.error e v)
  /-- A round is complete, and the next one begins. -/
  | round {executed s t job u v taken r} (hlimit : ¬ limit.any (· ≤ executed))
    (hmore : DrainM.onQueue hasRunnable s = .ok true t)
    (htake : DrainM.onQueue removeRunnable t = .ok job u)
    (hsettle : settle runner job u = .ok ⟨⟩ v) (hrest : Ends runner limit (executed + 1) v taken r) :
    Ends runner limit executed s (job :: taken) r

/-! ## The end -/

variable {runner : Runner W J} {limit : Option Nat} {executed : Nat}
  {s t : W × Live (Scheduler J)} {job : J} {taken : List J}
  {r : EStateM.Result Error (W × Live (Scheduler J)) Nat} {ids : Finset JobId}

omit [Job J] in
/-- Asking for a runnable job succeeds and changes nothing. -/
theorem onQueue_hasRunnable (s : W × Live (Scheduler J)) :
    ∃ more, DrainM.onQueue hasRunnable s = .ok more s := ⟨_, rfl⟩

omit [Job J] in
theorem eq_of_onQueue_hasRunnable {more : Bool}
    (h : DrainM.onQueue hasRunnable s = .ok more t) : t = s := by
  obtain ⟨more', hasked⟩ := onQueue_hasRunnable s
  cases h.symm.trans hasked
  rfl

omit [Job J] in
/-- A job that is taken out leaves one of the ids without a job. -/
theorem Confined.take (h : Confined ids s.2)
    (htake : DrainM.onQueue Scheduler.removeRunnable s = .ok job t) :
    ∃ id ∈ ids, Confined (ids.erase id) t.2 := by
  rw [DrainM.onQueue] at htake
  cases hremove : Scheduler.removeRunnable s.2 with
  | error e live =>
    rw [hremove] at htake
    cases htake
  | ok job' live =>
    rw [hremove] at htake
    cases htake
    exact h.removeRunnable hremove

/-- A drain comes to a result, whatever the store and the memory of the scheduler hold. -/
theorem exists_ends (h : Confined ids s.2) (runner : Runner W J) (limit : Option Nat)
    (executed : Nat) : ∃ taken r, Ends runner limit executed s taken r := by
  -- By the number of ids under which there may be a job: a complete round takes one of them away.
  induction ids using Finset.strongInduction generalizing executed s with
  | H ids ih =>
    by_cases hlimit : limit.any (· ≤ executed)
    · exact ⟨_, _, .limited hlimit⟩
    obtain ⟨more, hmore⟩ := onQueue_hasRunnable s
    cases more with
    | false => exact ⟨_, _, .idle hlimit hmore⟩
    | true =>
      cases htake : DrainM.onQueue removeRunnable s with
      | error e u => exact ⟨_, _, .untaken hlimit hmore htake⟩
      | ok job u =>
        cases hsettle : settle runner job u with
        | error e v => exact ⟨_, _, .unsettled hlimit hmore htake hsettle⟩
        | ok _ v =>
          have hnext := executeNext_eq_settle htake ▸ hsettle
          obtain ⟨id, hid, hleft⟩ := h.executeNext hnext
          obtain ⟨taken, r, hrest⟩ := ih _ (Finset.erase_ssubset hid) hleft (executed + 1)
          exact ⟨job :: taken, r, .round hlimit hmore htake hsettle hrest⟩

namespace Ends

/-- A drain takes out at most as many jobs as there are ids under which there may be one. -/
theorem length_le (h : Ends runner limit executed s taken r) (hs : Confined ids s.2) :
    taken.length ≤ ids.card := by
  induction h generalizing ids with
  | limited | idle | unread | untaken => exact Nat.zero_le _
  | @unsettled executed s t job u e v _ hmore htake hsettle =>
    obtain rfl := eq_of_onQueue_hasRunnable hmore
    obtain ⟨id, hid, -⟩ := hs.take htake
    exact Finset.card_pos.mpr ⟨id, hid⟩
  | @round executed s t job u v taken r _ hmore htake hsettle hrest ih =>
    obtain rfl := eq_of_onQueue_hasRunnable hmore
    have hnext := executeNext_eq_settle htake ▸ hsettle
    obtain ⟨id, hid, hleft⟩ := hs.executeNext hnext
    calc (job :: taken).length = taken.length + 1 := List.length_cons
      _ ≤ (ids.erase id).card + 1 := Nat.succ_le_succ (ih hleft)
      _ = ids.card := Finset.card_erase_add_one hid

/-- More rounds than jobs are taken out come to the same result. -/
theorem drainFrom_eq (h : Ends runner limit executed s taken r) (more : Nat) :
    drainFrom runner limit (more + taken.length + 1) executed s = r := by
  induction h with
  | limited hlimit =>
    rw [drainFrom, if_pos hlimit]
    rfl
  | idle hlimit hidle =>
    rw [drainFrom, if_neg hlimit, Runs.bind_of_ok hidle]
    rfl
  | unread hlimit hread => rw [drainFrom, if_neg hlimit, Runs.bind_of_error hread]
  | untaken hlimit hmore htake =>
    rw [drainFrom, if_neg hlimit, Runs.bind_of_ok hmore]
    exact Runs.bind_of_error (Runs.bind_of_error htake)
  | unsettled hlimit hmore htake hsettle =>
    rw [drainFrom, if_neg hlimit, Runs.bind_of_ok hmore]
    exact Runs.bind_of_error ((executeNext_eq_settle htake).trans hsettle)
  | round hlimit hmore htake hsettle _ ih =>
    rw [drainFrom, if_neg hlimit, Runs.bind_of_ok hmore, ← ih]
    exact Runs.bind_of_ok ((executeNext_eq_settle htake).trans hsettle)

/-- On success, the jobs that were taken out are counted. -/
theorem count_eq (h : Ends runner limit executed s taken r) {a : Nat} {t : W × Live (Scheduler J)}
    (hr : r = .ok a t) : a = executed + taken.length := by
  induction h with
  | limited | idle =>
    cases hr
    rfl
  | unread | untaken | unsettled => cases hr
  | round _ _ _ _ _ ih =>
    rw [ih hr, List.length_cons]
    omega

end Ends

end WorkQueue.Scheduler

namespace WorkQueue.Jobs

open Scheduler

variable {W J : Type} [Job J]

/-- A drain without a limit ends. It comes to one result only, after at most as many jobs have been
taken out of the queue as there were ids under which a job was stored or in the cache. If it
succeeds, it gives their number. -/
theorem executeAll_ends (interval : Nat) (runner : Runner W J) {s : W × Live (Scheduler J)}
    (h : Sited s.2) :
    (∃ taken r, Ends runner none 0 s taken r) ∧
    ∀ taken r, Ends runner none 0 s taken r →
      r = (Jobs.new interval).executeAll runner s ∧ taken.length ≤ (jobIds s.2).card ∧
      ∀ a t, r = .ok a t → a = taken.length := by
  refine ⟨exists_ends h.confined runner none 0, fun taken r hends => ?_⟩
  have hle := hends.length_le h.confined
  refine ⟨?_, hle, fun a t hr => (hends.count_eq hr).trans (Nat.zero_add _)⟩
  obtain ⟨more, hrounds⟩ : ∃ more, roundLimit s.2 = more + taken.length + 1 := by
    have hlt := h.card_jobIds_lt
    exact ⟨roundLimit s.2 - taken.length - 1, by omega⟩
  rw [executeAll, execute_eq_drain, drain, hrounds, hends.drainFrom_eq more]

/-- A store with a job, and a runnable queue in which the job stands without a sequence number:
taking it out leaves it in the queue. -/
def stuckQueue : Store :=
  (Store.volatile .empty).after
    [jobsSpace.stagePut (Job.id forerunner).bytes (Job.bytes forerunner),
      runnableSpace.stagePut (OrderedSet.memberKey 0) (Job.id forerunner).bytes]

/-- The only job is taken out once, and the second time it is not found. -/
theorem executeAll_ends_stuckQueue : ∃ (s t : Recorder × Live (Scheduler LinkedJob)) (taken : _),
    Sited s.2 ∧ (jobIds s.2).card = 1 ∧ taken.length ≤ 1 ∧
    Ends Recorder.runner none 0 s taken (.error (.dequeue (Job.id forerunner) .notFound) t) := by
  have hruns : (match load LinkedJob.parse ⟨true, 4, 4, ""⟩ none stuckQueue with
    | .error _ _ => false
    | .ok scheduler u =>
      (jobIds ⟨scheduler, u⟩).card == 1 &&
      match (Jobs.new 1).executeAll Recorder.runner (⟨[], [], none⟩, ⟨scheduler, u⟩) with
      | .error e _ => e == .dequeue (Job.id forerunner) .notFound
      | .ok _ _ => false) = true := by
    decide +kernel
  cases hload : load LinkedJob.parse ⟨true, 4, 4, ""⟩ none stuckQueue with
  | error e u =>
    rw [hload] at hruns
    cases hruns
  | ok scheduler u =>
    simp only [hload, Bool.and_eq_true, beq_iff_eq] at hruns
    obtain ⟨hcard, hruns⟩ := hruns
    have hsited := sited_of_load hload
    obtain ⟨⟨taken, r, hends⟩, hall⟩ := executeAll_ends (s := (⟨[], [], none⟩, ⟨scheduler, u⟩)) 1
      Recorder.runner hsited
    obtain ⟨hr, hle, -⟩ := hall taken r hends
    rw [hcard] at hle
    cases r with
    | ok a t =>
      rw [← hr] at hruns
      cases hruns
    | error e t =>
      rw [← hr] at hruns
      obtain rfl := beq_iff_eq.mp hruns
      exact ⟨(⟨[], [], none⟩, ⟨scheduler, u⟩), t, taken, hsited, hcard, hle, hends⟩

end WorkQueue.Jobs
