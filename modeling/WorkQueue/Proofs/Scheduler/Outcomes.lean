import Mathlib.Data.Set.List
import WorkQueue.Proofs.Scheduler.Accounts
import WorkQueue.Proofs.Scheduler.Dequeue
import WorkQueue.Proofs.Scheduler.Orderly
import WorkQueue.Proofs.Store.Isolation

/-!
# The outcomes of a dequeue

A dequeue of an orderly scheduler comes to one of five things, which are tried in this order: the
queue is empty; its first write is refused; the job is not stored; its second write is refused; the
job is taken out. `dequeue_outcomes` says of each what it gives and what is left then, for every
state that a session leads to from a store without entries.

* `Undisturbed`: what is the same before and after, in the answers of a scheduler and in its store;
* `Shortened`: the first id has left the queue, and nothing else has changed;
* `Orderly.pop_granted`, `Orderly.shortened`: the first step does that;
* `Orderly.dequeue_*`: one lemma an outcome.
-/

namespace WorkQueue.Scheduler

open OrderedSet (listed)

open Runs (outcome)

variable {J : Type} {parse : Parser J} {live live' : Live (Scheduler J)} {head : JobId}
  {rest : List JobId}

/-! ## What is left alone -/

/-- Two states hold the same jobs, but for some ids, and the same missing ids and buckets, both by
what the scheduler answers and by what its store holds. -/
structure Undisturbed (others : JobId → Prop) (live live' : Live (Scheduler J)) : Prop where
  hasJob : ∀ id, others id → outcome (hasJob id live') = outcome (hasJob id live)
  getJob : ∀ id, others id → outcome (getJob id live') = outcome (getJob id live)
  missing : outcome (missingIds live') = outcome (missingIds live)
  waiting : ∀ dependency, outcome (Scheduler.onDependents (Dependents.of dependency) live') =
    outcome (Scheduler.onDependents (Dependents.of dependency) live)
  jobsStored : ∀ id, others id → jobsSpace.view live'.store.table id.bytes =
    jobsSpace.view live.store.table id.bytes
  missingStored : missingSpace.view live'.store.table = missingSpace.view live.store.table
  bucketsStored : ∀ dependency, (bucketSpace dependency).view live'.store.table =
    (bucketSpace dependency).view live.store.table

theorem Undisturbed.trans {others : JobId → Prop} {mid : Live (Scheduler J)}
    (h : Undisturbed (fun _ => True) live mid) (h' : Undisturbed others mid live') :
    Undisturbed others live live' where
  hasJob id hid := (h'.hasJob id hid).trans (h.hasJob id trivial)
  getJob id hid := (h'.getJob id hid).trans (h.getJob id trivial)
  missing := h'.missing.trans h.missing
  waiting dependency := (h'.waiting dependency).trans (h.waiting dependency)
  jobsStored id hid := (h'.jobsStored id hid).trans (h.jobsStored id trivial)
  missingStored := h'.missingStored.trans h.missingStored
  bucketsStored dependency := (h'.bucketsStored dependency).trans (h.bucketsStored dependency)

/-- The ids of a set are read off its part of the store. -/
theorem ids_of_view (set : IdSet) {s s' : Store}
    (hv : set.order.space.view s'.table = set.order.space.view s.table) :
    outcome (set.ids s') = outcome (set.ids s) := by
  have hlisted : listed set.order.space s'.table = listed set.order.space s.table :=
    Namespace.entries_of_view hv _
  simp only [IdSet.ids, Runs.bind_apply, OrderedSet.members_run, Runs.mapM_ofExcept, hlisted]
  cases ((listed set.order.space s.table).map (·.2)).mapM JobId.ofBytes <;> rfl

/-- The jobs that wait for another are read off its bucket. -/
theorem BucketsPlaced.of_view {d : Dependents} (h : BucketsPlaced d) {dependency : JobId}
    {s s' : Store}
    (hv : (bucketSpace dependency).view s'.table = (bucketSpace dependency).view s.table) :
    outcome (Dependents.of dependency ⟨d, s'⟩) = outcome (Dependents.of dependency ⟨d, s⟩) := by
  have hused : d.usedBucket dependency s'.table = d.usedBucket dependency s.table := by
    rw [Dependents.usedBucket, Dependents.usedBucket, bucketSpace_of_eq h.space_eq,
      OrderedSet.stored_of_view hv]
  have hlisted : listed (bucketSpace dependency) s'.table =
      listed (bucketSpace dependency) s.table := Namespace.entries_of_view hv _
  have hof : Dependents.of dependency = Dependents.withBucket dependency Plain.listIds := rfl
  rw [hof, Dependents.outcome_withBucket, Dependents.outcome_withBucket, hused]
  cases hbucket : d.usedBucket dependency s.table with
  | error e => rfl
  | ok bucket =>
    simp only [Except.bind, listIds_run, h.space_of_used hbucket, hlisted]
    cases ((listed (bucketSpace dependency) s.table).map (·.2)).mapM JobId.ofBytes <;> rfl

/-- What a scheduler answers depends on what it keeps in memory of sets and buckets, and on the
entries of the store. -/
theorem Placed.undisturbed (h : Placed parse live) (h' : Placed parse live')
    (hdependents : live'.memory.dependents = live.memory.dependents)
    (hmissing : live'.memory.missing = live.memory.missing) {others : JobId → Prop}
    (hjobs : ∀ id, others id → jobsSpace.view live'.store.table id.bytes =
      jobsSpace.view live.store.table id.bytes)
    (hmissingStored : missingSpace.view live'.store.table = missingSpace.view live.store.table)
    (hbuckets : ∀ dependency, (bucketSpace dependency).view live'.store.table =
      (bucketSpace dependency).view live.store.table) : Undisturbed others live live' where
  hasJob id hid := by rw [h'.hasJob, h.hasJob, hjobs id hid, Runs.outcome_ok, Runs.outcome_ok]
  getJob id hid := by
    obtain ⟨found, hget, -, -⟩ := h.getJob id
    obtain ⟨found', hget', -, -⟩ := h'.getJob id
    rw [hget, hget', Runs.outcome_ofExcept, Runs.outcome_ofExcept, storedJob, hjobs id hid]
    rfl
  missing := by
    have hrun : ∀ live : Live (Scheduler J),
        outcome (missingIds live) = outcome (live.memory.missing.ids live.store) := by
      intro live
      have hids : missingIds live = LiveM.onStore live.memory.missing.ids live := rfl
      rw [hids, LiveM.onStore]
      cases live.memory.missing.ids live.store <;> rfl
    have hspace := OrderedSet.space_of_stored h.missing.order
    rw [hrun, hrun, hmissing]
    exact ids_of_view _ (by rw [hspace]; exact hmissingStored)
  waiting dependency := by
    have hrun : ∀ live : Live (Scheduler J),
        outcome (Scheduler.onDependents (Dependents.of dependency) live) =
          outcome (Dependents.of dependency ⟨live.memory.dependents, live.store⟩) := by
      intro live
      rw [Scheduler.onDependents, LiveM.onPart]
      cases Dependents.of dependency ⟨live.memory.dependents, live.store⟩ <;> rfl
    rw [hrun, hrun, hdependents]
    exact h.dependents.of_view (hbuckets dependency)
  jobsStored := hjobs
  missingStored := hmissingStored
  bucketsStored := hbuckets

/-! ## The queue -/

theorem runnableIds_run (live : Live (Scheduler J)) :
    runnableIds live = (MonadExcept.ofExcept ((queueKeys live).mapM JobId.ofBytes) :
      LiveM (Scheduler J) (List JobId)) live := by
  have hrun : runnableIds live = LiveM.onStore live.memory.runnable.ids live := rfl
  rw [hrun, LiveM.onStore, queueKeys]
  simp only [IdSet.ids, Runs.bind_apply, OrderedSet.members_run, Runs.mapM_ofExcept]
  cases ((listed live.memory.runnable.order.space live.store.table).map (·.2)).mapM
    JobId.ofBytes <;> rfl

theorem queueKeys_of_runnableIds {q : List JobId} (h : runnableIds live = .ok q live) :
    queueKeys live = q.map JobId.bytes := by
  rw [runnableIds_run] at h
  refine eq_map_bytes_of_mapM ?_
  rw [queueKeys, List.mapM_map] at h
  exact (Runs.ofExcept_eq_ok.mp h).2

theorem runnableIds_of_queueKeys {q : List JobId} (h : queueKeys live = q.map JobId.bytes) :
    runnableIds live = .ok q live := by
  rw [runnableIds_run, h, Rolled.mapM_ofBytes, Runs.ofExcept_ok]

variable [Job J]

/-- The queue of an orderly scheduler can be read. -/
theorem Orderly.runnableIds (h : Orderly parse live) :
    ∃ q, Scheduler.runnableIds live = .ok q live := by
  have hspace := OrderedSet.space_of_stored h.placed.runnable.order
  have hids : queueKeys live ∈ {l | ∀ key ∈ l, key ∈ Set.range JobId.bytes} := by
    intro key hkey
    rw [queueKeys, hspace] at hkey
    obtain ⟨id, rfl⟩ := h.queued key (h.aligned.indexed hkey)
    exact ⟨id, rfl⟩
  rw [← Set.range_list_map] at hids
  obtain ⟨q, hq⟩ := hids
  exact ⟨q, runnableIds_of_queueKeys hq.symm⟩

/-! ## The first step -/

/-- The first id has left the queue, and nothing else is different. -/
structure Shortened (rest : List JobId) (live left : Live (Scheduler J)) : Prop where
  queue : runnableIds left = .ok rest left
  pending : outcome (pendingCount left) = outcome (pendingCount live)
  undisturbed : Undisturbed (fun _ => True) live left
  inQueue : OnlyIn .runnable live.store.table left.store.table

/-- The first id has left the queue and its job the stored ones, of which there is one less. -/
structure TakenOut (head : JobId) (rest : List JobId) (live left : Live (Scheduler J)) : Prop where
  queue : runnableIds left = .ok rest left
  unknown : hasJob head left = .ok false left
  lookup : outcome (getJob head left) = .error .notFound
  pending : ∃ n m, pendingCount live = .ok n live ∧ pendingCount left = .ok m left ∧
    m.toNat = n.toNat - 1
  undisturbed : Undisturbed (· ≠ head) live left

namespace Orderly

/-- The first id can be taken out in one write. -/
private theorem delete_head (h : Orderly parse live)
    (hq : Scheduler.runnableIds live = .ok (head :: rest) live) :
    ∃ seq, onRunnable IdSet.pop live =
        (if live.store.writesLeft = some 0 then .error (.file .writeRefused) live
        else .ok head.bytes
          ⟨live.memory, live.store.after (live.memory.runnable.order.removal seq head.bytes)⟩) ∧
      (listed runnableSpace (Batch.apply (live.memory.runnable.order.removal seq head.bytes)
        live.store.table)).map (·.2) = rest.map JobId.bytes := by
  have hspace := OrderedSet.space_of_stored h.placed.runnable.order
  have hkeys := queueKeys_of_runnableIds hq
  obtain ⟨first, others, hlisted, hfirst, hothers⟩ := List.map_eq_cons_iff.mp hkeys
  obtain ⟨seq, hdelete, hleft⟩ := OrderedSet.Aligned.delete_first (hspace.symm ▸ h.aligned) hlisted
  rw [hfirst] at hdelete hleft
  rw [hspace] at hleft
  refine ⟨seq, ?_, by rw [hleft, hothers]⟩
  simp only [pop_eq, hkeys, List.map_cons, hdelete]
  split
  · rename_i hsome
    split at hsome
    · cases hsome
    · rename_i hw
      cases hsome
      rw [if_neg hw]
  · rename_i hsome
    split at hsome
    · rename_i hw
      cases hsome
      rw [if_pos hw]
    · cases hsome

theorem pop_refused (h : Orderly parse live)
    (hq : Scheduler.runnableIds live = .ok (head :: rest) live)
    (hw : live.store.writesLeft = some 0) :
    onRunnable IdSet.pop live = .error (.file .writeRefused) live := by
  obtain ⟨seq, hpop, -⟩ := h.delete_head hq
  rw [hpop, if_pos hw]

theorem pop_granted (h : Orderly parse live)
    (hq : Scheduler.runnableIds live = .ok (head :: rest) live)
    (hw : live.store.writesLeft ≠ some 0) :
    ∃ batch, runnableSpace.Holds batch ∧
      onRunnable IdSet.pop live = .ok head.bytes ⟨live.memory, live.store.after batch⟩ ∧
      (listed runnableSpace (batch.apply live.store.table)).map (·.2) = rest.map JobId.bytes ∧
      Orderly parse ⟨live.memory, live.store.after batch⟩ := by
  obtain ⟨seq, hpop, hleft⟩ := h.delete_head hq
  rw [if_neg hw] at hpop
  have hspace := OrderedSet.space_of_stored h.placed.runnable.order
  exact ⟨_, hspace ▸ OrderedSet.holds_removal _ seq _, hpop, hleft,
    preserves_orderly_pop.of_ok h hpop⟩

/-- Once the first id has been taken out and the job looked up, the queue is shorter and nothing
else is different. -/
theorem shortened (h : Orderly parse live) {batch : Batch} (hb : runnableSpace.Holds batch)
    (hleft : (listed runnableSpace (batch.apply live.store.table)).map (·.2) =
      rest.map JobId.bytes) {jobs : JobStore J}
    (hfound : Orderly parse ⟨{ live.memory with jobs }, live.store.after batch⟩) :
    Shortened rest live ⟨{ live.memory with jobs }, live.store.after batch⟩ := by
  have hspace := OrderedSet.space_of_stored h.placed.runnable.order
  have honly : OnlyIn .runnable live.store.table (live.store.after batch).table :=
    ⟨batch, hb, Store.table_after _ _⟩
  have hjobs : jobsSpace.view (live.store.after batch).table = jobsSpace.view live.store.table :=
    honly.view .jobs (by decide)
  refine ⟨runnableIds_of_queueKeys ?_, rfl, ?_, honly⟩
  · rw [queueKeys, hspace, Store.table_after]
    exact hleft
  · exact h.placed.undisturbed hfound.placed rfl rfl (fun id _ => congrFun hjobs id.bytes)
      (honly.view .missing (by decide))
      fun dependency => honly.view (.bucket dependency) (by simp [Part.rank])

/-! ## The second step -/

omit [Job J] in
/-- A change in the stored jobs and their number leaves the other parts. -/
theorem view_jobs_pending {op : Operation} {ops : Batch} {key : Bytes}
    (hop : op.key = jobsSpace.key key) (hops : pendingSpace.Holds ops) (part : Part)
    (hjobs : part.rank ≠ Part.jobs.rank) (hpending : part.rank ≠ Part.pending.rank) (t : Table) :
    part.space.view (Batch.apply (op :: ops) t) = part.space.view t := by
  have hholds : jobsSpace.Holds [op] := by
    intro op' hop'
    rw [List.mem_singleton.mp hop']
    exact ⟨key, hop⟩
  have hfirst : jobsSpace.Apart part.space := Part.apart_of_rank_ne (a := .jobs) hjobs.symm
  have hsecond : pendingSpace.Apart part.space :=
    Part.apart_of_rank_ne (a := .pending) hpending.symm
  calc part.space.view (Batch.apply ops (Batch.apply [op] t))
      = part.space.view (Batch.apply [op] t) := Namespace.view_apply hsecond hops _
    _ = part.space.view t := Namespace.view_apply hfirst hholds _

omit [Job J] in
theorem toNat_stageDecrement_sub (counter : Counter) :
    counter.stageDecrement.1.toNat = counter.count.toNat - 1 := by
  by_cases hzero : counter.count = 0
  · rw [Counter.stageDecrement, if_pos hzero, hzero]
    rfl
  · have hpos : 0 < counter.count.toNat :=
      Nat.pos_of_ne_zero fun h => hzero (UInt64.toNat.inj h)
    rw [← toNat_stageDecrement hpos]
    rfl

/-- Deleting the job and counting one less takes the job out, and nothing else. -/
theorem takenOut {left : Live (Scheduler J)} (h : Orderly parse live) (hleft : Orderly parse left)
    (hq : Scheduler.runnableIds live = .ok rest live) (head : JobId)
    (hrunnable : left.memory.runnable = live.memory.runnable)
    (hdependents : left.memory.dependents = live.memory.dependents)
    (hmissing : left.memory.missing = live.memory.missing)
    (hcount : left.memory.pending.count = live.memory.pending.stageDecrement.1)
    (htable : left.store.table = Batch.apply (live.memory.jobs.stageDelete head ::
      live.memory.pending.stageDecrement.2) live.store.table) : TakenOut head rest live left := by
  have hspace := h.placed.jobs.space_eq
  have hops := (stageDecrement_agrees h.placed.pending).1
  have hjobs : ∀ key, jobsSpace.view left.store.table key =
      if key = head.bytes then none else jobsSpace.view live.store.table key := by
    intro key
    rw [htable, JobStore.stageDelete, hspace, view_jobs_delete hops]
  have hgone : jobsSpace.view left.store.table head.bytes = none := by
    rw [hjobs, if_pos rfl]
  have hviews : ∀ part : Part, part.rank ≠ Part.jobs.rank → part.rank ≠ Part.pending.rank →
      part.space.view left.store.table = part.space.view live.store.table := by
    intro part hj hp
    rw [htable]
    exact view_jobs_pending (key_stageDelete hspace head) hops part hj hp _
  obtain ⟨found, hget, -, -⟩ := hleft.placed.getJob head
  refine ⟨?_, ?_, ?_, ⟨_, _, rfl, rfl, ?_⟩, ?_⟩
  · have hview := hviews .runnable (by decide) (by decide)
    refine runnableIds_of_queueKeys ?_
    rw [← queueKeys_of_runnableIds hq, queueKeys, queueKeys, hrunnable,
      OrderedSet.space_of_stored h.placed.runnable.order]
    exact congrArg (List.map (·.2)) (Namespace.entries_of_view hview _)
  · rw [hleft.placed.hasJob, hgone]
    rfl
  · rw [hget, Runs.outcome_ofExcept, storedJob, hgone]
  · rw [hcount]
    exact toNat_stageDecrement_sub _
  · refine h.placed.undisturbed hleft.placed hdependents hmissing ?_ ?_ ?_
    · intro id hid
      rw [hjobs, if_neg fun he => hid (JobId.ext he)]
    · exact hviews .missing (by decide) (by decide)
    · intro dependency
      exact hviews (.bucket dependency) (by simp [Part.rank]) (by simp [Part.rank])

/-- The job is taken out in one write. -/
theorem drop_granted (h : Orderly parse live) (hq : Scheduler.runnableIds live = .ok rest live)
    (head : JobId) (job : J) (hw : live.store.writesLeft ≠ some 0) :
    ∃ left, dropJob head job live = .ok job left ∧ TakenOut head rest live left := by
  have hlast := preserves_orderly_dropJob head job live h
  rw [dropJob_run, if_neg hw] at hlast ⊢
  exact ⟨_, rfl, h.takenOut hlast hq head rfl rfl rfl rfl (Store.table_after _ _)⟩

/-! ## The outcomes -/

omit [Job J] in
theorem dequeue_empty (hq : Scheduler.runnableIds live = .ok [] live) :
    Scheduler.removeRunnable live = .error .notFound live := by
  have hpop : onRunnable IdSet.pop live = .error .notFound live := by
    rw [pop_eq, queueKeys_of_runnableIds hq]
    rfl
  rw [removeRunnable_eq, Runs.bind_of_error hpop]

variable (h : Orderly parse live) (hq : Scheduler.runnableIds live = .ok (head :: rest) live)

include h hq

theorem dequeue_refused (hw : live.store.writesLeft = some 0) :
    Scheduler.removeRunnable live = .error (.file .writeRefused) live := by
  rw [removeRunnable_eq, Runs.bind_of_error (h.pop_refused hq hw)]

/-- Once the first id has been taken out, it is looked up, and the queue is shorter. -/
private theorem dequeue_popped (hw : live.store.writesLeft ≠ some 0) :
    ∃ left : Live (Scheduler J), Shortened rest live left ∧ Orderly parse left ∧
      left.store.writesLeft = live.store.writesLeft.map (· - 1) ∧
      Scheduler.removeRunnable live = match storedJob parse live.store.table head with
        | .ok job => dropJob head job left
        | .error e => .error (e.dequeued head) left := by
  obtain ⟨batch, hb, hpop, hleft, hpopped⟩ := h.pop_granted hq hw
  obtain ⟨jobs, hget, hfound⟩ := hpopped.getJob head
  have hshort := h.shortened hb hleft hfound
  have hstored : storedJob parse (live.store.after batch).table head =
      storedJob parse live.store.table head := hshort.inQueue.storedJob (by decide) parse head
  refine ⟨_, hshort, hfound, Store.writesLeft_after _ _, ?_⟩
  rw [removeRunnable_eq, Runs.bind_of_ok hpop, JobId.ofBytes_bytes, Runs.bind_apply,
    Runs.ofExcept_ok]
  simp only
  rw [hstored] at hget
  cases hjob : storedJob parse live.store.table head with
  | error e =>
    rw [hjob] at hget
    exact Runs.bind_of_error (afterDequeue_error hget)
  | ok job =>
    rw [hjob] at hget
    exact Runs.bind_of_ok (afterDequeue_ok hget)

theorem dequeue_vanished (hw : live.store.writesLeft ≠ some 0)
    (hnone : Scheduler.hasJob head live = .ok false live) :
    ∃ left, Scheduler.removeRunnable live = .error (.dequeue head .notFound) left ∧
      Shortened rest live left := by
  obtain ⟨left, hshort, -, -, hrun⟩ := h.dequeue_popped hq hw
  have hview : jobsSpace.view live.store.table head.bytes = none := by
    rw [h.placed.hasJob] at hnone
    exact Option.not_isSome_iff_eq_none.mp (by simpa using hnone)
  have hjob : storedJob parse live.store.table head = .error .notFound := by
    rw [storedJob, hview]
  refine ⟨left, ?_, hshort⟩
  simp only [hrun, hjob, Error.dequeued]

omit hq in
/-- A job under the first id is found, and has this id. -/
private theorem storedJob_head (hsome : Scheduler.hasJob head live = .ok true live) :
    ∃ job, storedJob parse live.store.table head = .ok job ∧ Job.id job = head := by
  rw [h.placed.hasJob, EStateM.Result.ok.injEq, Option.isSome_iff_exists] at hsome
  obtain ⟨⟨bytes, hview⟩, -⟩ := hsome
  obtain ⟨job, hparse, hid⟩ := h.stored head bytes hview
  exact ⟨job, by rw [storedJob, hview]; exact hparse, hid⟩

theorem dequeue_stuck (hw : live.store.writesLeft = some 1)
    (hsome : Scheduler.hasJob head live = .ok true live) :
    ∃ left job, Scheduler.removeRunnable live = .error (.dequeue head (.file .writeRefused)) left ∧
      Shortened rest live left ∧ outcome (Scheduler.getJob head left) = .ok job ∧
      Job.id job = head := by
  obtain ⟨left, hshort, -, hleft, hrun⟩ := h.dequeue_popped hq (by rw [hw]; decide)
  obtain ⟨job, hjob, hid⟩ := h.storedJob_head hsome
  obtain ⟨jobs, hget, -⟩ := h.getJob head
  refine ⟨left, job, ?_, hshort, ?_, hid⟩
  · rw [hw] at hleft
    simp only [hrun, hjob, dropJob_run]
    exact if_pos hleft
  · rw [hshort.undisturbed.getJob head trivial, hget, Runs.outcome_ofExcept, hjob]

theorem dequeue_taken (hw : live.store.writesLeft ≠ some 0) (hw' : live.store.writesLeft ≠ some 1)
    (hsome : Scheduler.hasJob head live = .ok true live) :
    ∃ job left, Scheduler.removeRunnable live = .ok job left ∧
      outcome (Scheduler.getJob head live) = .ok job ∧ Job.id job = head ∧
      TakenOut head rest live left := by
  obtain ⟨mid, hshort, hmid, hleft, hrun⟩ := h.dequeue_popped hq hw
  obtain ⟨job, hjob, hid⟩ := h.storedJob_head hsome
  obtain ⟨jobs, hget, -⟩ := h.getJob head
  have hgranted : mid.store.writesLeft ≠ some 0 := by
    rw [hleft]
    cases hn : live.store.writesLeft with
    | none => simp
    | some n =>
      rw [hn] at hw hw'
      simp only [ne_eq, Option.some.injEq, Option.map_some] at hw hw' ⊢
      omega
  obtain ⟨left, hdrop, hqueue, hunknown, hlookup, ⟨n, m, hn, hm, hnm⟩, hrest⟩ :=
    hmid.drop_granted hshort.queue head job hgranted
  refine ⟨job, left, ?_, ?_, hid, hqueue, hunknown, hlookup, ⟨n, m, ?_, hm, hnm⟩,
    hshort.undisturbed.trans hrest⟩
  · simp only [hrun, hjob]
    exact hdrop
  · rw [hget, Runs.outcome_ofExcept, hjob]
  · have hcount : .ok live.memory.pending.count = Except.ok n :=
      hshort.pending.symm.trans (congrArg outcome hn)
    cases hcount
    rfl

end Orderly

/-- A scheduler that is opened on a store without entries is orderly. -/
theorem orderly_of_load {store t : Store} (hempty : store.table = .empty) {options : Options}
    {metrics : Option (CacheMetrics × CacheMetrics)} {scheduler : Scheduler J}
    (hload : load parse options metrics store = .ok scheduler t) :
    Orderly parse ⟨scheduler, t⟩ := by
  obtain ⟨hkeeps, -⟩ := keeps_of_load hashed_nil hempty hload
  obtain ⟨entries, tail, hlists, hmembers, -⟩ := hkeeps.filed.queue
  refine ⟨hkeeps.coherent.placed, hlists.aligned, fun key hkey => ?_, fun id bytes hview => ?_⟩
  · rw [hlists.indexed_iff, hmembers] at hkey
    cases hkey
  · cases (hkeeps.filed.jobs id).symm.trans hview

/-- Taking the first job out of the queue of a scheduler comes to one of five things, in any state
that a session leads to from a store without entries, with any number of writes left. -/
theorem dequeue_outcomes {store t : Store} {options : Options}
    {metrics : Option (CacheMetrics × CacheMetrics)} {scheduler : Scheduler J}
    (hempty : store.table = .empty) (hload : load parse options metrics store = .ok scheduler t)
    {moves : List (Move J)} (hfaithful : ∀ move ∈ moves, move.Faithful parse) :
    ∃ trace live q,
      Move.playAll parse moves ⟨scheduler, t⟩ = .ok trace live ∧
      runnableIds live = .ok q live ∧
      (q = [] → removeRunnable live = .error .notFound live) ∧
      ∀ head rest, q = head :: rest →
        (live.store.writesLeft = some 0 →
          removeRunnable live = .error (.file .writeRefused) live ∧
          (Error.file .writeRefused).isFatal = false) ∧
        (live.store.writesLeft ≠ some 0 →
          ∃ known, hasJob head live = .ok known live ∧
          (known = false → ∃ left,
            removeRunnable live = .error (.dequeue head .notFound) left ∧
            Shortened rest live left) ∧
          (known = true → live.store.writesLeft = some 1 → ∃ left job,
            removeRunnable live = .error (.dequeue head (.file .writeRefused)) left ∧
            Shortened rest live left ∧
            outcome (getJob head left) = .ok job ∧ Job.id job = head) ∧
          (known = true → live.store.writesLeft ≠ some 1 → ∃ job left,
            removeRunnable live = .ok job left ∧
            outcome (getJob head live) = .ok job ∧ Job.id job = head ∧
            TakenOut head rest live left ∧
            ((sinceClear trace).countP Exchange.puts < UInt64.size → ∃ n m,
              pendingCount live = .ok n live ∧ pendingCount left = .ok m left ∧
              m.toNat + 1 = n.toNat))) := by
  obtain ⟨trace, live, hplay, -, haccounts⟩ := playAll_of_empty hempty hload moves
  have h := (orderly_of_load hempty hload).playAll hfaithful hplay
  obtain ⟨q, hq⟩ := h.runnableIds
  refine ⟨trace, live, q, hplay, hq, ?_, ?_⟩
  · rintro rfl
    exact Orderly.dequeue_empty hq
  rintro head rest rfl
  refine ⟨fun hw => ⟨h.dequeue_refused hq hw, rfl⟩, fun hw => ?_⟩
  refine ⟨_, h.placed.hasJob head, fun hknown => ?_, fun hknown hw' => ?_, fun hknown hw' => ?_⟩
  · exact h.dequeue_vanished hq hw (by rw [h.placed.hasJob, hknown])
  · exact h.dequeue_stuck hq hw' (by rw [h.placed.hasJob, hknown])
  · obtain ⟨job, left, hrun, hget, hid, htaken⟩ :=
      h.dequeue_taken hq hw hw' (by rw [h.placed.hasJob, hknown])
    refine ⟨job, left, hrun, hget, hid, htaken, fun hlt => ?_⟩
    obtain ⟨n, m, hn, hm, hnm⟩ := htaken.pending
    have hstored := Nat.lt_of_lt_of_le (Namespace.size_pos hknown) (haccounts hlt).stored_le
    cases hn
    exact ⟨_, m, rfl, hm, by omega⟩

/-- `forerunner` has left the queue and is still stored, as the second write of a dequeue was
refused, and two more writes are granted then. -/
def grantedSession : List (Move LinkedJob) :=
  [.ask ⟨.putJob forerunner, trivial⟩, .ask ⟨.putJob follower, trivial⟩,
    .ask ⟨.addRunnable (Job.id forerunner), trivial⟩,
    .ask ⟨.addRunnable (Job.id follower), trivial⟩, .grant (some 1),
    .ask ⟨.removeRunnable, trivial⟩, .grant (some 2)]

theorem dequeue_outcomes_grantedSession : ∃ scheduler t trace live job left n m,
    load LinkedJob.parse ⟨true, 4, 4, ""⟩ none (.volatile .empty) = .ok scheduler t ∧
    Move.playAll LinkedJob.parse grantedSession ⟨scheduler, t⟩ = .ok trace live ∧
    removeRunnable live = .ok job left ∧ Job.id job = Job.id follower ∧
    TakenOut (Job.id follower) [] live left ∧
    pendingCount live = .ok n live ∧ pendingCount left = .ok m left ∧ m.toNat + 1 = n.toNat := by
  have hnone : (Store.volatile .empty).table = .empty := rfl
  have hfaithful : ∀ move ∈ grantedSession, move.Faithful LinkedJob.parse := by
    have hfore := LinkedJob.parse_encode forerunner (by decide)
    have hfollow := LinkedJob.parse_encode follower (by decide)
    simp only [grantedSession, List.forall_mem_cons]
    exact ⟨hfore, hfollow, trivial, trivial, trivial, trivial, trivial, nofun⟩
  obtain ⟨scheduler, t, hload⟩ := load_of_empty LinkedJob.parse hnone rfl ⟨true, 4, 4, ""⟩ none
  obtain ⟨trace, live, q, hplay, hq, -, houtcomes⟩ := dequeue_outcomes hnone hload hfaithful
  have hstate : (match load LinkedJob.parse ⟨true, 4, 4, ""⟩ none (.volatile .empty) with
    | .error _ _ => false
    | .ok scheduler t => match Move.playAll LinkedJob.parse grantedSession ⟨scheduler, t⟩ with
      | .error _ _ => false
      | .ok trace live => (sinceClear trace).countP Exchange.puts == 2 &&
        live.store.writesLeft == some 2 &&
        (match runnableIds live with
          | .ok ids _ => ids == [Job.id follower]
          | .error _ _ => false) &&
        (match hasJob (Job.id follower) live with
          | .ok known _ => known
          | .error _ _ => false)) = true := by decide +kernel
  simp only [hload, hplay, hq, Bool.and_eq_true, beq_iff_eq] at hstate
  obtain ⟨⟨⟨hputs, hwrites⟩, hids⟩, hstored⟩ := hstate
  obtain ⟨-, hgranted⟩ := houtcomes _ _ hids
  obtain ⟨known, hknown, -, -, htaken⟩ := hgranted (by rw [hwrites]; decide)
  rw [hknown] at hstored
  obtain ⟨job, left, hrun, -, hid, hleft, hcount⟩ := htaken hstored (by rw [hwrites]; decide)
  obtain ⟨n, m, hn, hm, hnm⟩ := hcount (by rw [hputs]; decide)
  exact ⟨scheduler, t, trace, live, job, left, n, m, hload, hplay, hrun, hid, hleft, hn, hm, hnm⟩

end WorkQueue.Scheduler
