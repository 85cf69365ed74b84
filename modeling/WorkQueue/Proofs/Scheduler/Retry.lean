import WorkQueue.Proofs.Scheduler.Reached

/-!
# Pushing again after a failure

`push` writes more than once: it stores the job, and then queues it or notes it under one missing
dependency after the other. `push_retry` says what a push leaves behind that a store ended by
refusing a write, and what the same push gives once writes are granted again. Where nothing had been
written, it gives what it would have given the first time. Where the job had been stored, it is taken
for one that is pushed already, and stays out of the queue or of the buckets that the first push did
not come to.
-/

namespace WorkQueue.Scheduler

variable {J : Type} [Job J] {ids : List JobId} {parse : Parser J}

open Runs (Gives)

/-- A job that misses some others has come in between two states: it is stored and counted, and
stands in the queue or under all that it misses. -/
structure Settled (before after : Live (Scheduler J)) (job : J) (waits : List JobId) : Prop where
  stored : Gives (getJob (Job.id job)) after (· = job)
  counted : ∀ n, Gives pendingCount before (· = n) → Gives pendingCount after (· = n + 1)
  queued : waits = [] → Gives runnableIds after (Job.id job ∈ ·)
  registered : ∀ d ∈ waits, Gives (onDependents (Dependents.of d)) after (Job.id job ∈ ·)

/-- The books say whether a job has been settled. -/
theorem Keeps.settled_push (hids : Hashed ids) {b : Books J} {before after : Live (Scheduler J)}
    (hb : Keeps ids parse b before) {job : J} {waits : List JobId} (hin : waits ⊆ ids)
    (ha : Keeps ids parse (b.push job waits) after) : Settled before after job waits := by
  have hjob : (b.push job waits).job? (Job.id job) = some job := by
    rw [Books.job?, Books.push, Books.jobs_note, ← Books.job?, Books.job?_put, if_pos rfl]
  refine ⟨?_, fun n hn => ?_, fun hnil => ?_, fun d hd => ?_⟩
  · obtain ⟨live', hok, -⟩ := ha.getJob hids hjob
    exact ⟨job, live', hok, rfl⟩
  · rw [Runs.gives_iff hb.pendingCount] at hn
    rw [Runs.gives_iff ha.pendingCount, Books.push, Books.pending_note, ← hn]
    exact UInt64.ofNat_add b.pending 1
  · obtain ⟨live', hok⟩ := ha.runnableIds
    refine ⟨_, live', hok, ?_⟩
    simp [Books.push, Books.note, hnil, Books.enqueue]
  · obtain ⟨live', hok⟩ := ha.dependentsOf hids (hin hd)
    refine ⟨_, live', hok, ?_⟩
    have hne : waits.isEmpty = false := by
      rw [List.isEmpty_eq_false_iff]
      exact List.ne_nil_of_mem hd
    simp [Books.push, Books.note, hne, Books.register, hd]

/-- A job that is missing from the queue or from one of its dependencies has not been settled. -/
theorem Keeps.not_settled (hids : Hashed ids) {b : Books J} {before after : Live (Scheduler J)}
    {job : J} {waits : List JobId} (hin : waits ⊆ ids) (ha : Keeps ids parse b after)
    (h : (waits = [] ∧ Job.id job ∉ b.queue.members) ∨
      ∃ d ∈ waits, Job.id job ∉ (b.waiting d).members) : ¬ Settled before after job waits := by
  intro hs
  rcases h with ⟨hnil, hnot⟩ | ⟨d, hd, hnot⟩
  · obtain ⟨live', hok⟩ := ha.runnableIds
    exact hnot ((Runs.gives_iff hok _).mp (hs.queued hnil))
  · obtain ⟨live', hok⟩ := ha.dependentsOf hids (hin hd)
    exact hnot ((Runs.gives_iff hok _).mp (hs.registered d hd))

/-- A push of a new job that a store ended after it had granted `k` writes can be made up for by the
same push if and only if `k` is zero. Then nothing had changed. Otherwise the job is found stored,
and the second push changes nothing. -/
theorem push_retry {n : Nat} {live : Live (Scheduler J)} (hids : Hashed ids)
    (h : Reached ids parse n live) {missing : J → Except Error (List JobId)} {job : J}
    {waits : List JobId} (hjob : parse (Job.bytes job) = .ok job) (hmissing : missing job = .ok waits)
    (hin : waits ⊆ ids) (hroom : n + 1 < UInt64.size)
    (hnew : Gives (hasJob (Job.id job)) live (· = false)) {k : Nat} {e : Error}
    {failed : Live (Scheduler J)}
    (hfail : push missing job (live.withWrites (some k)) = .error e failed) :
    ∃ again retried, push missing job (failed.withWrites none) = .ok again retried ∧
      (Settled live retried job waits ↔ k = 0) ∧ (again = true ↔ k = 0) ∧
      (k = 0 → failed.withWrites none = live.withWrites none) ∧
      (k ≠ 0 → retried = failed.withWrites none) := by
  obtain ⟨b, hk, hb⟩ := h.sound hids (by omega)
  rw [Runs.gives_iff (hk.hasJob _), Option.isSome_eq_false_iff, Option.isNone_iff_eq_none] at hnew
  have hp := hb.pending
  have hq := hb.queue
  have hspec := fun live (hk : Keeps ids parse b live) => hk.push_new hids hnew hmissing hjob hin
    (by omega) (by omega) fun d => by have := hb.waiting d; omega
  rcases hspec _ (hk.withWrites (some k)) with
    ⟨_, hok, -⟩ | ⟨hw, herr⟩ | ⟨-, hw, done, rest, _, -, herr, hkf, hnot⟩
  · rw [hok] at hfail
    cases hfail
  · -- The first write was refused: the second push finds the state of the first.
    rw [herr] at hfail
    cases hfail
    have hzero : k = 0 := by simpa using hw
    rcases hspec _ (hk.withWrites none) with ⟨retried, hok, hkr, -⟩ | ⟨hw, -⟩ | ⟨hw, -⟩
    · exact ⟨true, retried, hok, by simp [hzero, hk.settled_push hids hin hkr], by simp [hzero],
        fun _ => rfl, fun hne => absurd hzero hne⟩
    · cases hw
    · exact absurd rfl hw
  · -- The job was stored: the second push takes it for a duplicate.
    rw [herr] at hfail
    cases hfail
    have hne : k ≠ 0 := by simpa using hw
    have hknown : (((b.put job).register done (Job.id job)).job? (Job.id job)).isSome = true := by
      show ((b.put job).job? (Job.id job)).isSome = true
      rw [Books.job?_put, if_pos rfl]
      rfl
    have hkr := hkf.withWrites none
    refine ⟨false, _, hkr.push_known missing hknown, ?_, by simp [hne], fun hz => absurd hz hne,
      fun _ => rfl⟩
    exact ⟨fun hs => absurd hs (hkr.not_settled hids hin hnot), fun hz => absurd hz hne⟩

/-- The first push of `follower` stores it and cannot note what it waits for, which the second push
does not make up for. -/
theorem push_retry_follower : ∃ live failed retried e,
    push missesAll follower (live.withWrites (some 1)) = .error e failed ∧
    push missesAll follower (failed.withWrites none) = .ok false retried ∧
    ¬ Settled live retried follower [Job.id forerunner] := by
  have hids : Hashed follower.dependencies := by decide +kernel
  have hin : follower.missing [] ⊆ follower.dependencies := fun d hd =>
    (LinkedJob.mem_missing.mp hd).1
  have hrun : (match load LinkedJob.parse ⟨true, 4, 4, ""⟩ none ⟨.empty, .empty, none, none⟩ with
    | .error _ _ => false
    | .ok scheduler t => match push missesAll follower (Live.withWrites ⟨scheduler, t⟩ (some 1)) with
      | .error _ _ => true
      | .ok _ _ => false) = true := by decide +kernel
  cases hload : load LinkedJob.parse ⟨true, 4, 4, ""⟩ none ⟨.empty, .empty, none, none⟩ with
  | error e t =>
    rw [hload] at hrun
    cases hrun
  | ok scheduler t =>
    rw [hload] at hrun
    cases hfail : push missesAll follower (Live.withWrites ⟨scheduler, t⟩ (some 1)) with
    | ok again live =>
      simp only [hfail] at hrun
      cases hrun
    | error e failed =>
      have hnew : Runs.Gives (hasJob (Job.id follower)) ⟨scheduler, t⟩ (· = false) :=
        ⟨false, _, (keeps_of_load hids rfl hload).1.hasJob _, rfl⟩
      obtain ⟨again, retried, hretry, hsettled, hagain, -⟩ :=
        push_retry hids (.opened rfl hload) (LinkedJob.parse_encode follower (by decide)) rfl hin
          (by decide) hnew hfail
      obtain rfl : again = false := by simpa using hagain
      exact ⟨_, failed, retried, e, hfail, hretry, fun hs => Nat.one_ne_zero (hsettled.mp hs)⟩

end WorkQueue.Scheduler
