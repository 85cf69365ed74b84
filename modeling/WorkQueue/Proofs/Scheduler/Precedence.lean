import WorkQueue.Proofs.Scheduler.Refusals
import WorkQueue.Proofs.Scheduler.Tidy

/-!
# Dependencies first

No job is handed to an executor before its dependencies have been executed. `ReadyQueue` carries
this: each id in the queue is that of a stored job which misses nothing. Pushes and rounds of the
drain keep it, whether they are carried out or fail half-way (`ReadyQueue.push`,
`preserves_readyQueue_executeNext`), since

* an id comes into the queue only once its job is stored and has been found to miss nothing;
* a job is put into the store only if there was none, so its id is not in the queue;
* a job is taken out of the store only once its id has left the queue;
* what misses nothing goes on to miss nothing.

Of the entries of the queue `OrderedSet.Aligned` is enough: buckets may have the same hash, and
sequence numbers may run out.

`Worked` are the states that pushes and drains lead to, with recorders that share a ledger.
`handed_after_dependencies` says of them that the dependencies of a job are in the ledger when it is
handed to a recorder.
-/

namespace WorkQueue

/-- What misses nothing in a world misses nothing after an execution either. -/
def Runner.Grows {W J : Type} (runner : Runner W J) : Prop :=
  ∀ executed job w, runner.missing w job = .ok [] →
    runner.missing (Runs.final (runner.execute executed w)) job = .ok []

namespace Scheduler

open OrderedSet (Aligned indexed listed)

open Runs (Preserves)

variable {W J α : Type} {parse : Parser J} {runner : Runner W J} {w : W}
  {live live' : Live (Scheduler J)}

/-- Every job in the queue is stored and misses nothing. -/
structure ReadyQueue (parse : Parser J) (runner : Runner W J) (w : W) (live : Live (Scheduler J)) :
    Prop where
  placed : Placed parse live
  aligned : Aligned runnableSpace live.store.table
  ready : ∀ id, Queued live.store.table id → Ready parse runner w live.store.table id

namespace ReadyQueue

/-! ## Changes -/

/-- Another world, in which what missed nothing misses nothing either. -/
theorem of_world {w' : W} (h : ReadyQueue parse runner w live)
    (hw : ∀ job, runner.missing w job = .ok [] → runner.missing w' job = .ok []) :
    ReadyQueue parse runner w' live := by
  refine ⟨h.placed, h.aligned, fun id hid => ?_⟩
  obtain ⟨job, hjob, hmissing⟩ := h.ready id hid
  exact ⟨job, hjob, hw job hmissing⟩

theorem of_table (h : ReadyQueue parse runner w live) {store : Store}
    (ht : store.table = live.store.table) : ReadyQueue parse runner w ⟨live.memory, store⟩ := by
  refine ⟨h.placed.of_table ht, ?_, ?_⟩
  · rw [ht]
    exact h.aligned
  · rw [ht]
    exact h.ready

/-- A change in a part that is neither the stored jobs nor the queue. -/
theorem elsewhere (h : ReadyQueue parse runner w live) (hplaced : Placed parse live')
    {part : Part} (honly : OnlyIn part live.store.table live'.store.table)
    (hjobs : part.rank ≠ Part.jobs.rank) (hqueue : part.rank ≠ Part.runnable.rank) :
    ReadyQueue parse runner w live' := by
  refine ⟨hplaced, h.aligned.of_view (honly.view .runnable hqueue), fun id hid => ?_⟩
  exact (honly.ready hjobs id).mpr (h.ready id ((honly.queued hqueue id).mp hid))

/-- Other memory beside the same store. -/
theorem of_store (h : ReadyQueue parse runner w live) (hplaced : Placed parse live')
    (hstore : live'.store = live.store) : ReadyQueue parse runner w live' := by
  have honly : OnlyIn .missing live.store.table live'.store.table := by
    rw [hstore]
    exact .refl _ _
  exact h.elsewhere hplaced honly (by decide) (by decide)

/-- A job whose id is not in the queue is put into the store or taken out. -/
theorem with_job (h : ReadyQueue parse runner w live) (hplaced : Placed parse live') {id : JobId}
    (hout : ¬ Queued live.store.table id) {op : Operation} {ops : Batch}
    (hop : op.key = jobsSpace.key id.bytes) (hops : pendingSpace.Holds ops)
    (ht : live'.store.table = Batch.apply (op :: ops) live.store.table) :
    ReadyQueue parse runner w live' := by
  have hw : Part.Within [] [.jobs, .pending] (op :: ops) := within_jobs_pending hop hops
  have hqueue : runnableSpace.view live'.store.table = runnableSpace.view live.store.table := by
    rw [ht]
    exact Part.view_apply hashed_nil hw .runnable trivial (by simp) _
  refine ⟨hplaced, h.aligned.of_view hqueue, fun other hother => ?_⟩
  have hqueued : Queued live.store.table other := by
    rwa [Queued, indexed, hqueue] at hother
  -- Another job stays as it is stored.
  have hne : ∀ op' ∈ op :: ops, op'.key ≠ jobsSpace.key other.bytes := by
    intro op' hop' he
    rcases List.mem_cons.mp hop' with rfl | hop'
    · exact hout (JobId.ext (Namespace.key_inj.mp (hop.symm.trans he)) ▸ hqueued)
    · obtain ⟨key, hkey⟩ := hops op' hop'
      exact apart_jobs_pending _ _ (he.symm.trans hkey)
  have hview : jobsSpace.view live'.store.table other.bytes =
      jobsSpace.view live.store.table other.bytes := by
    rw [ht]
    exact Batch.get?_apply_of_not_mem hne
  rw [Ready, storedJob, hview]
  exact h.ready other hqueued

/-! ## Joining the queue -/

theorem getJob (h : ReadyQueue parse runner w live) (id : JobId) :
    ∃ live', Scheduler.getJob id live =
        (MonadExcept.ofExcept (storedJob parse live.store.table id) : LiveM (Scheduler J) J) live' ∧
      live'.store = live.store ∧ ReadyQueue parse runner w live' := by
  obtain ⟨live', hget, hstore, hplaced⟩ := h.placed.getJob id
  exact ⟨live', hget, hstore, h.of_store hplaced hstore⟩

/-- A job that is ready joins the queue, or nothing changes. -/
theorem addRunnable (h : ReadyQueue parse runner w live) {id : JobId}
    (hid : Ready parse runner w live.store.table id) :
    ReadyQueue parse runner w (Runs.final (Scheduler.addRunnable id live)) := by
  have haligned : Aligned runnableSpace
      (Runs.final (Scheduler.addRunnable id live)).store.table := by
    have hspace := OrderedSet.space_of_stored h.placed.runnable.order
    have hold := h.aligned
    rw [addRunnable_run]
    cases hput : live.memory.runnable.order.put id.bytes live.store with
    | ok r t =>
      rw [← hspace] at hold ⊢
      exact hold.put hput
    | error e t =>
      obtain rfl := (OrderedSet.steady_put id.bytes).error hput
      exact hold
  rcases h.placed.addRunnable id with ⟨live', hok, hplaced, honly, hqueued⟩ | ⟨e, herr⟩
  · rw [hok] at haligned ⊢
    refine ⟨hplaced, haligned, fun other hother => (honly.ready (by decide) other).mpr ?_⟩
    rcases (hqueued other).mp hother with hother | rfl
    · exact h.ready other hother
    · exact hid
  · rw [herr]
    exact h

theorem releaseOne (h : ReadyQueue parse runner w live) (id : JobId) :
    ReadyQueue parse runner (Runs.final (Scheduler.releaseOne runner id (w, live))).1
      (Runs.final (Scheduler.releaseOne runner id (w, live))).2 := by
  obtain ⟨found, hget, hstore, hfound⟩ := h.getJob id
  rw [releaseOne_run, hget]
  cases hjob : storedJob parse live.store.table id with
  | error e => exact hfound
  | ok job =>
    simp only [Runs.ofExcept_ok]
    cases hmissing : runner.missing w job with
    | error e => exact hfound
    | ok missing =>
      cases missing with
      | cons d rest => exact hfound
      | nil =>
        have hready : Ready parse runner w found.store.table id :=
          ⟨job, by rw [hstore, hjob], hmissing⟩
        have hadded := hfound.addRunnable hready
        simp only
        cases hadd : Scheduler.addRunnable id found <;> rw [hadd] at hadded <;> exact hadded

end ReadyQueue

theorem preserves_readyQueue_release (taken : List JobId) :
    Preserves (fun s => ReadyQueue parse runner s.1 s.2) (release runner taken) := by
  induction taken with
  | nil => exact fun _ h => h
  | cons id rest ih =>
    rintro ⟨w, live⟩ h
    have hone := h.releaseOne id
    rw [release_cons]
    cases hx : releaseOne runner id (w, live) with
    | ok _ t =>
      rw [hx] at hone
      exact ih t hone
    | error e t =>
      rw [hx] at hone
      exact hone

/-- What is done to a bucket leaves the queue ready. -/
theorem preserves_readyQueue_onDependents {dependency : JobId} {x : LiveM Dependents α}
    (hx : ∀ t, Preserves (InBucket dependency t) x) :
    Preserves (ReadyQueue parse runner w) (onDependents x) := by
  intro live h
  obtain ⟨hplaced, honly⟩ := h.placed.onDependents hx
  exact h.elsewhere hplaced honly (by simp [Part.rank]) (by simp [Part.rank])

theorem preserves_readyQueue_addDependency (dependency dependent : JobId) :
    Preserves (ReadyQueue parse runner w) (addDependency dependency dependent) :=
  preserves_readyQueue_onDependents fun t =>
    (inBucket_withBucket (OrderedSet.steady_put dependent.bytes) t).discard

theorem preserves_readyQueue_removeDependents (dependency : JobId) :
    Preserves (ReadyQueue parse runner w) (removeDependents dependency) :=
  preserves_readyQueue_onDependents fun t =>
    inBucket_withBucket (OrderedSet.steady_takeAll JobId.ofBytes) t

/-! ## Pushing -/

namespace ReadyQueue

/-- An id of which no job is stored is not in the queue. -/
theorem not_queued (h : ReadyQueue parse runner w live) {id : JobId}
    (hnone : jobsSpace.view live.store.table id.bytes = none) : ¬ Queued live.store.table id := by
  intro hid
  obtain ⟨job, hjob, -⟩ := h.ready id hid
  rw [storedJob, hnone] at hjob
  cases hjob

variable [Job J]

/-- A job is stored where there was none, or nothing changes. -/
theorem putJob (h : ReadyQueue parse runner w live) {job : J}
    (hjob : parse (Job.bytes job) = .ok job)
    (hnone : jobsSpace.view live.store.table (Job.id job).bytes = none) :
    (∃ live', Scheduler.putJob job live = .ok () live' ∧ ReadyQueue parse runner w live' ∧
      storedJob parse live'.store.table (Job.id job) = .ok job) ∨
    ∃ e, Scheduler.putJob job live = .error e live := by
  have hplaced := preserves_putJob hjob live h.placed
  rw [putJob_run] at hplaced ⊢
  by_cases hw : live.store.writesLeft = some 0
  · rw [if_pos hw]
    exact .inr ⟨_, rfl⟩
  · rw [if_neg hw] at hplaced ⊢
    have hspace := h.placed.jobs.space_eq
    have hops := (stageIncrement_agrees h.placed.pending).1
    have hop := key_stagePut hspace job
    refine .inl ⟨_, rfl, h.with_job hplaced (h.not_queued hnone) hop hops
      (Store.table_after _ _), ?_⟩
    rw [storedJob, Store.table_after, JobStore.stagePut, hspace, view_jobs_put hops, if_pos rfl]
    exact hjob

theorem push (h : ReadyQueue parse runner w live) {job : J}
    (hjob : parse (Job.bytes job) = .ok job) :
    ReadyQueue parse runner w (Runs.final (Scheduler.push (runner.missing w) job live)) := by
  rw [Scheduler.push, Runs.bind_of_ok (h.placed.hasJob _)]
  cases hview : jobsSpace.view live.store.table (Job.id job).bytes with
  | some bytes => exact h
  | none =>
    simp only [Option.isSome_none, Bool.false_eq_true, if_false, Runs.bind_apply]
    cases hmissing : runner.missing w job with
    | error e => exact h
    | ok waits =>
      simp only [Runs.ofExcept_ok]
      rcases h.putJob hjob hview with ⟨stored, hput, hstored, hread⟩ | ⟨e, hput⟩
      · rw [hput]
        cases waits with
        | nil =>
          -- The job is stored and misses nothing by now.
          have hadded := hstored.addRunnable ⟨job, hread, hmissing⟩
          simp only [List.isEmpty_nil, if_true, Runs.bind_apply]
          cases hadd : Scheduler.addRunnable (Job.id job) stored <;> rw [hadd] at hadded <;>
            exact hadded
        | cons d rest =>
          have hnoted : Preserves (ReadyQueue parse runner w) _ :=
            .forM (fun d => preserves_readyQueue_addDependency d (Job.id job)) (d :: rest)
          exact (hnoted.bind fun _ => .pure true) stored hstored
      · rw [hput]
        exact h

end ReadyQueue

/-! ## Taking a job out -/

namespace ReadyQueue

/-- The first id leaves the queue, or nothing changes. -/
theorem pop (h : ReadyQueue parse runner w live) :
    (∃ key live', onRunnable IdSet.pop live = .ok key live' ∧ ReadyQueue parse runner w live' ∧
      ∀ id : JobId, key = id.bytes → ¬ Queued live'.store.table id ∧
        Ready parse runner w live'.store.table id) ∨
    ∃ e, onRunnable IdSet.pop live = .error e live := by
  rcases h.placed.pop with ⟨key, rest, b, t, hlisted, hdelete, hpop, hplaced, honly⟩ | herr
  · have hspace := OrderedSet.space_of_stored h.placed.runnable.order
    have hkey : indexed runnableSpace live.store.table key = true :=
      h.aligned.indexed (hlisted ▸ List.mem_cons_self)
    have haligned := OrderedSet.Aligned.delete (hspace.symm ▸ h.aligned) hdelete
    have hqueued := OrderedSet.indexed_delete hdelete
    rw [hspace] at haligned hqueued
    have hready : ∀ id, Queued live.store.table id → Ready parse runner w t.table id :=
      fun id hid => (honly.ready (by decide) id).mpr (h.ready id hid)
    refine .inl ⟨key, _, hpop, ⟨hplaced, haligned, fun id hid => ?_⟩, ?_⟩
    · exact hready id ((hqueued id.bytes).mp hid).1
    · rintro id rfl
      exact ⟨fun hid => ((hqueued id.bytes).mp hid).2 rfl, hready id hkey⟩
  · exact .inr herr

/-- A job whose id has left the queue is taken out of the store, or nothing changes. -/
theorem dropJob (h : ReadyQueue parse runner w live) {id : JobId}
    (hout : ¬ Queued live.store.table id) (a : α) :
    ReadyQueue parse runner w (Runs.final (Scheduler.dropJob id a live)) := by
  have hplaced := preserves_dropJob id a live h.placed
  rw [dropJob_run] at hplaced ⊢
  by_cases hw : live.store.writesLeft = some 0
  · rw [if_pos hw]
    exact h
  · rw [if_neg hw] at hplaced ⊢
    have hop := key_stageDelete h.placed.jobs.space_eq id
    exact h.with_job hplaced hout hop (stageDecrement_agrees h.placed.pending).1
      (Store.table_after _ _)

/-- A job that is taken out misses nothing. -/
theorem removeRunnable (h : ReadyQueue parse runner w live) :
    (∃ job live', Scheduler.removeRunnable live = .ok job live' ∧
      ReadyQueue parse runner w live' ∧ runner.missing w job = .ok []) ∨
    ∃ e live', Scheduler.removeRunnable live = .error e live' ∧
      ReadyQueue parse runner w live' := by
  rw [removeRunnable_eq, Runs.bind_apply]
  rcases h.pop with ⟨key, popped, hpop, hpopped, hleft⟩ | ⟨e, hpop⟩
  · rw [hpop]
    simp only [Runs.bind_apply]
    cases hid : JobId.ofBytes key with
    | error e => exact .inr ⟨e, popped, rfl, hpopped⟩
    | ok id =>
      obtain ⟨hout, job, hjob, hmissing⟩ := hleft id (eq_bytes_of_ofBytes hid)
      obtain ⟨found, hget, hstore, hfound⟩ := hpopped.getJob id
      rw [hjob] at hget
      have hdropped := hfound.dropJob (hstore ▸ hout) job
      simp only [Runs.ofExcept_ok, afterDequeue_ok hget]
      rw [dropJob_run] at hdropped ⊢
      by_cases hw : found.store.writesLeft = some 0
      · rw [if_pos hw]
        exact .inr ⟨_, _, rfl, hfound⟩
      · rw [if_neg hw] at hdropped ⊢
        exact .inl ⟨job, _, rfl, hdropped, hmissing⟩
  · rw [hpop]
    exact .inr ⟨e, live, rfl, h⟩

/-- A job that has been taken out missed nothing. -/
theorem missing_of_removed (h : ReadyQueue parse runner w live) {job : J}
    (hrun : Scheduler.removeRunnable live = .ok job live') : runner.missing w job = .ok [] := by
  rcases h.removeRunnable with ⟨job', t, hok, -, hmissing⟩ | ⟨e, t, herr, -⟩
  · cases hok.symm.trans hrun
    exact hmissing
  · cases herr.symm.trans hrun

end ReadyQueue

/-! ## Draining -/

section Draining

variable [Job J]

theorem preserves_readyQueue_executeNext (hgrows : runner.Grows) :
    Preserves (fun s => ReadyQueue parse runner s.1 s.2) (executeNext runner) := by
  rintro ⟨w, live⟩ h
  rw [executeNext_run]
  rcases h.removeRunnable with ⟨job, t, hok, ht, -⟩ | ⟨e, t, herr, ht⟩
  · rw [hok]
    have hgrown : ∀ other, runner.missing w other = .ok [] →
        runner.missing (Runs.final (runner.execute job w)) other = .ok [] :=
      fun other => hgrows job other w
    have hexecuted := ht.of_world hgrown
    simp only
    cases hexecute : runner.execute job w with
    | error e w' =>
      rw [hexecute] at hexecuted
      exact hexecuted
    | ok _ w' =>
      rw [hexecute] at hexecuted
      have htaken := preserves_readyQueue_removeDependents (Job.id job) t hexecuted
      simp only
      cases htake : removeDependents (Job.id job) t with
      | error e u =>
        rw [htake] at htaken
        exact htaken
      | ok taken u =>
        rw [htake] at htaken
        exact preserves_readyQueue_release taken _ htaken
  · rw [herr]
    exact ht

/-- A job that is handed to an executor misses nothing. -/
theorem ReadyQueue.missing_of_handed (h : ReadyQueue parse runner w live) (hgrows : runner.Grows)
    {job : J} {w' : W} (hhanded : Handed runner (w, live) job w') :
    runner.missing w' job = .ok [] := by
  obtain ⟨found, left, hrounds, hremove⟩ := hhanded
  exact (hrounds.keeps (preserves_readyQueue_executeNext hgrows) h).missing_of_removed hremove

end Draining

end Scheduler

/-! ## Recorders that share a ledger -/

theorem Recorder.grows : Recorder.runner.Grows := by
  intro executed job r hmissing
  have hnone : job.missing r.ledger = [] := Except.ok.inj hmissing
  have hmark : job.missing (r.ledger.mark (Job.id executed)) = [] :=
    LinkedJob.missing_eq_nil.mpr fun d hd =>
      Ledger.mem_mark.mpr (.inr (LinkedJob.missing_eq_nil.mp hnone d hd))
  simp only [Recorder.runner, Recorder.execute]
  split
  · exact hmissing
  · split
    · exact hmissing
    · exact congrArg Except.ok hmark

/-- A recorder may reject a job, and otherwise complains of nothing if the job misses nothing. -/
theorem Recorder.execute_error {r r' : Recorder} {job : LinkedJob} {e : Error}
    (hjob : job.missing r.ledger = []) (h : Recorder.execute job r = .error e r') :
    e = .refused (.rejected (Job.id job)) := by
  rw [Recorder.execute, LinkedJob.find?_of_missing_nil hjob] at h
  simp only at h
  split at h <;> cases h
  rfl

namespace Scheduler

/-- The states of a scheduler that has been opened on a store without entries, with the ledger that
all recorders share. Linked jobs have been pushed, which miss what is not in the ledger, and drains
have been carried out with recorders that may reject a job each. -/
inductive Worked : Ledger → Live (Scheduler LinkedJob) → Prop where
  | opened {store t : Store} {options : Options} {metrics : Option (CacheMetrics × CacheMetrics)}
      {scheduler : Scheduler LinkedJob} (ledger : Ledger) (hempty : store.table = .empty)
      (hload : load LinkedJob.parse options metrics store = .ok scheduler t) :
      Worked ledger ⟨scheduler, t⟩
  /-- The same entries in a store that refuses other writes, or whose log was compacted. -/
  | kept {ledger : Ledger} {live : Live (Scheduler LinkedJob)} {store : Store}
      (h : Worked ledger live) (ht : store.table = live.store.table) :
      Worked ledger ⟨live.memory, store⟩
  | reopened {ledger : Ledger} {live : Live (Scheduler LinkedJob)} {t : Store} {options : Options}
      {metrics : Option (CacheMetrics × CacheMetrics)} {scheduler : Scheduler LinkedJob}
      (h : Worked ledger live)
      (hload : load LinkedJob.parse options metrics live.store = .ok scheduler t) :
      Worked ledger ⟨scheduler, t⟩
  | disabled {ledger : Ledger} {live : Live (Scheduler LinkedJob)} (h : Worked ledger live) :
      Worked ledger (Runs.final (disableCaching live))
  | pushed {ledger : Ledger} {live : Live (Scheduler LinkedJob)} {job : LinkedJob}
      (h : Worked ledger live) (hbytes : job.dependencies.length < UInt8.size) :
      Worked ledger (Runs.final (push (fun job => .ok (job.missing ledger)) job live))
  | drained {r : Recorder} {live : Live (Scheduler LinkedJob)} (h : Worked r.ledger live)
      (limit : Option Nat) :
      Worked (Runs.final (drain Recorder.runner limit (r, live))).1.ledger
        (Runs.final (drain Recorder.runner limit (r, live))).2

theorem Worked.withWrites {ledger : Ledger} {live : Live (Scheduler LinkedJob)}
    (h : Worked ledger live) (left : Option Nat) : Worked ledger (live.withWrites left) :=
  h.kept rfl

/-- The queue of an empty store is ready. -/
theorem readyQueue_of_load {W J : Type} [Job J] {parse : Parser J} {runner : Runner W J} (w : W)
    {store t : Store} {options : Options} {metrics : Option (CacheMetrics × CacheMetrics)}
    {scheduler : Scheduler J} (hempty : store.table = .empty)
    (hload : load parse options metrics store = .ok scheduler t) :
    ReadyQueue parse runner w ⟨scheduler, t⟩ := by
  obtain ⟨hkeeps, -⟩ := keeps_of_load hashed_nil hempty hload
  obtain ⟨entries, tail, hlists, hmembers, -⟩ := hkeeps.filed.queue
  refine ⟨hkeeps.coherent.placed, hlists.aligned, fun id hid => ?_⟩
  rw [Queued, hlists.indexed_iff, hmembers] at hid
  cases hid

/-- Whatever has been done, every job in the queue is stored and misses nothing. -/
theorem Worked.readyQueue {ledger : Ledger} {live : Live (Scheduler LinkedJob)}
    (h : Worked ledger live) {r : Recorder} (hr : r.ledger = ledger) :
    ReadyQueue LinkedJob.parse Recorder.runner r live := by
  induction h generalizing r with
  | opened _ hempty hload => exact readyQueue_of_load r hempty hload
  | kept _ ht ih => exact (ih hr).of_table ht
  | reopened _ hload ih =>
    have hold := ih hr
    have hcoherent : Coherent [] LinkedJob.parse _ := coherent_of_load hload
    obtain ⟨scheduler, hagain⟩ : ∃ scheduler : Scheduler LinkedJob,
        load LinkedJob.parse _ _ _ = .ok scheduler _ := load_of_agrees hold.placed.pending
      hold.placed.runnable hold.placed.missing _ _
    cases hload.symm.trans hagain
    exact hold.of_store hcoherent.placed rfl
  | disabled _ ih =>
    have hold := ih hr
    exact hold.of_store (preserves_disableCaching _ hold.placed) rfl
  | pushed _ hbytes ih =>
    subst hr
    exact (ih rfl).push (LinkedJob.parse_encode _ hbytes)
  | drained _ limit ih =>
    have hdrained := preserves_drain
      (P := fun s => ReadyQueue LinkedJob.parse Recorder.runner s.1 s.2)
      (preserves_readyQueue_executeNext Recorder.grows) limit (_, _) (ih rfl)
    refine hdrained.of_world fun job hmissing => ?_
    show Except.ok (job.missing r.ledger) = .ok []
    rw [hr]
    exact hmissing

/-- Whatever has been done to a scheduler, with writes refused at any time, a job is handed to a
recorder only once all its dependencies are in the ledger, so no recorder ever complains that a
dependency is pending. -/
theorem handed_after_dependencies {r : Recorder} {live : Live (Scheduler LinkedJob)}
    (h : Worked r.ledger live) :
    (∀ job w, Handed Recorder.runner (r, live) job w → ∀ d ∈ job.dependencies, d ∈ w.ledger) ∧
      ∀ limit e t, drain Recorder.runner limit (r, live) = .error e t →
        ∀ job d, e ≠ .refused (.dependencyPending job d) := by
  have hqueue : ReadyQueue LinkedJob.parse Recorder.runner r live := h.readyQueue rfl
  have hhanded : ∀ job w, Handed Recorder.runner (r, live) job w → job.missing w.ledger = [] :=
    fun job w hw => Except.ok.inj (hqueue.missing_of_handed Recorder.grows hw)
  refine ⟨fun job w hw => LinkedJob.missing_eq_nil.mp (hhanded job w hw), ?_⟩
  rintro limit e t hrun job d rfl
  have hmissing : ∀ w job e, Recorder.runner.missing w job = .error e → e.isRefusal = false := by
    intro w job e herr
    cases herr
  obtain ⟨job', w, w', hw, hexecute⟩ :=
    drain_refused hqueue.placed (fun _ _ => parse_error) hmissing rfl hrun
  cases Recorder.execute_error (hhanded job' w hw) hexecute

/-- Both jobs have been pushed, a drain has failed after the execution of `forerunner`, and this has
been pushed again. -/
def setBack (live : Live (Scheduler LinkedJob)) : Recorder × Live (Scheduler LinkedJob) :=
  let failed := Runs.final (drain Recorder.runner none
    (⟨[], [], none⟩, (bothPushed live).withWrites (some 2)))
  (failed.1, Runs.final (push (fun job => .ok (job.missing failed.1.ledger)) forerunner
    (failed.2.withWrites none)))

/-- The next drain hands `forerunner` over, and then `follower`. -/
theorem handed_after_dependencies_setBack : ∃ r live w,
    Worked r.ledger live ∧ Handed Recorder.runner (r, live) follower w ∧
    Job.id forerunner ∈ w.ledger := by
  have hrun : (match load LinkedJob.parse ⟨true, 4, 4, ""⟩ none (.volatile .empty) with
    | .error _ _ => false
    | .ok scheduler t => match executeNext Recorder.runner (setBack ⟨scheduler, t⟩) with
      | .error _ _ => false
      | .ok _ u => match removeRunnable u.2 with
        | .error _ _ => false
        | .ok job _ => decide (job = follower)) = true := by decide +kernel
  cases hload : load LinkedJob.parse ⟨true, 4, 4, ""⟩ none (.volatile .empty) with
  | error e t =>
    rw [hload] at hrun
    cases hrun
  | ok scheduler t =>
    simp only [hload] at hrun
    have hpushed : Worked [] (bothPushed ⟨scheduler, t⟩) :=
      .withWrites (.pushed (.pushed (.opened [] rfl hload) (by decide)) (by decide)) _
    have hfailed := Worked.drained (r := ⟨[], [], none⟩) (hpushed.withWrites (some 2)) none
    have hworked : Worked (setBack ⟨scheduler, t⟩).1.ledger (setBack ⟨scheduler, t⟩).2 :=
      .pushed (hfailed.withWrites none) (by decide)
    cases hnext : executeNext Recorder.runner (setBack ⟨scheduler, t⟩) with
    | error e u =>
      rw [hnext] at hrun
      cases hrun
    | ok _ u =>
      simp only [hnext] at hrun
      cases hremove : removeRunnable u.2 with
      | error e v =>
        rw [hremove] at hrun
        cases hrun
      | ok job v =>
        simp only [hremove, decide_eq_true_eq] at hrun
        subst hrun
        have hhanded : Handed Recorder.runner (setBack ⟨scheduler, t⟩) follower u.1 :=
          ⟨u.2, v, .single hnext, hremove⟩
        exact ⟨_, _, u.1, hworked, hhanded,
          (handed_after_dependencies hworked).1 follower u.1 hhanded _ List.mem_cons_self⟩

end Scheduler

end WorkQueue
