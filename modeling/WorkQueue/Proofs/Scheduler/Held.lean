import WorkQueue.Proofs.Scheduler.Sessions

/-!
# Jobs of any kind

`Held` is what remains of a placed scheduler if jobs may be stored whose bytes are not read as those
jobs: a cached job is stored, whatever it is. Every verb keeps it, and does one of four things to the
stored jobs and to their number (`Change`, `Held.changes`).
-/

namespace WorkQueue.Scheduler

open Runs (Preserves)

variable {J α : Type}

/-- Cached jobs are stored. -/
structure JobsHeld (jobs : JobStore J) (t : Table) : Prop where
  space_eq : jobs.space = jobsSpace
  stored : jobs.caching = true → ∀ id job, jobs.cache.find? id = some job →
    (jobsSpace.view t id.bytes).isSome

/-- The parts of a scheduler work in their namespaces, and have in memory what the store has, but for
the contents of jobs. -/
structure Held (live : Live (Scheduler J)) : Prop where
  jobs : JobsHeld live.memory.jobs live.store.table
  dependents : BucketsPlaced live.memory.dependents
  runnable : SetAgrees runnableSpace live.memory.runnable live.store.table
  missing : SetAgrees missingSpace live.memory.missing live.store.table
  pending : CountAgrees live.memory.pending live.store.table

theorem JobsHeld.of_view {jobs : JobStore J} {t t' : Table} (h : JobsHeld jobs t)
    (hv : jobsSpace.view t' = jobsSpace.view t) : JobsHeld jobs t' :=
  ⟨h.space_eq, by rw [hv]; exact h.stored⟩

theorem Placed.held {parse : Parser J} {live : Live (Scheduler J)} (h : Placed parse live) :
    Held live := by
  refine ⟨⟨h.jobs.space_eq, fun hcaching id job hf => ?_⟩, h.dependents, h.runnable, h.missing,
    h.pending⟩
  obtain ⟨bytes, hbytes, -⟩ := h.jobs.cached hcaching id job hf
  rw [hbytes]
  rfl

namespace Held

variable {live : Live (Scheduler J)}

theorem inPlace (h : Held live) : InPlace live.memory :=
  ⟨h.jobs.space_eq, h.dependents.space_eq, h.runnable.space_eq, h.missing.space_eq,
    h.pending.space_eq⟩

theorem withWrites (h : Held live) (left : Option Nat) : Held (live.withWrites left) :=
  ⟨h.jobs, h.dependents, h.runnable, h.missing, h.pending⟩

end Held

/-! ## What leaves the stored jobs alone -/

/-- A scheduler that has the same jobs, and as many, as another had. -/
structure Still (live₀ live : Live (Scheduler J)) : Prop where
  held : Held live
  stored : jobsSpace.view live.store.table = jobsSpace.view live₀.store.table
  pending : live.memory.pending = live₀.memory.pending

variable {live₀ : Live (Scheduler J)}

theorem Held.still {live : Live (Scheduler J)} (h : Held live) : Still live live := ⟨h, rfl, rfl⟩

theorem still_onRunnable {x : LiveM IdSet α} (h : ∀ t, Preserves (InSet .runnable t) x) :
    Preserves (Still live₀) (onRunnable x : LiveM (Scheduler J) α) := by
  rintro live ⟨hlive, hstored, hpending⟩
  obtain ⟨hset, honly⟩ := h live.store.table ⟨live.memory.runnable, live.store⟩
    ⟨hlive.runnable, .refl _ _⟩
  have hjobs := honly.view .jobs (by decide)
  rw [onRunnable, final_onPart]
  exact ⟨⟨hlive.jobs.of_view hjobs, hlive.dependents, hset,
    hlive.missing.of_view (honly.view .missing (by decide)),
    hlive.pending.of_view (honly.view .pending (by decide))⟩, hjobs.trans hstored, hpending⟩

theorem still_onMissing {x : LiveM IdSet α} (h : ∀ t, Preserves (InSet .missing t) x) :
    Preserves (Still live₀) (onMissing x : LiveM (Scheduler J) α) := by
  rintro live ⟨hlive, hstored, hpending⟩
  obtain ⟨hset, honly⟩ := h live.store.table ⟨live.memory.missing, live.store⟩
    ⟨hlive.missing, .refl _ _⟩
  have hjobs := honly.view .jobs (by decide)
  rw [onMissing, final_onPart]
  exact ⟨⟨hlive.jobs.of_view hjobs, hlive.dependents,
    hlive.runnable.of_view (honly.view .runnable (by decide)), hset,
    hlive.pending.of_view (honly.view .pending (by decide))⟩, hjobs.trans hstored, hpending⟩

theorem still_onDependents {dependency : JobId} {x : LiveM Dependents α}
    (h : ∀ t, Preserves (InBucket dependency t) x) :
    Preserves (Still live₀) (onDependents x : LiveM (Scheduler J) α) := by
  rintro live ⟨hlive, hstored, hpending⟩
  obtain ⟨hd, honly⟩ := h live.store.table ⟨live.memory.dependents, live.store⟩
    ⟨hlive.dependents, .refl _ _⟩
  have hjobs := honly.view .jobs (by simp [Part.rank])
  rw [onDependents, final_onPart]
  exact ⟨⟨hlive.jobs.of_view hjobs, hd,
    hlive.runnable.of_view (honly.view .runnable (by simp [Part.rank])),
    hlive.missing.of_view (honly.view .missing (by simp [Part.rank])),
    hlive.pending.of_view (honly.view .pending (by simp [Part.rank]))⟩,
    hjobs.trans hstored, hpending⟩

/-- What comes of looking a job up: it is stored if it is found, and the store is left as it is. -/
def JobsHeld.Found (id : JobId) (s : Store) (x : EStateM.Result Error (Live (JobStore J)) J) : Prop :=
  ∃ jobs, JobsHeld jobs s.table ∧
    ((∃ job, x = .ok job ⟨jobs, s⟩ ∧ (jobsSpace.view s.table id.bytes).isSome) ∨
      ∃ e, x = .error e ⟨jobs, s⟩)

theorem JobsHeld.fetch {jobs : JobStore J} {s : Store} (h : JobsHeld jobs s.table) (id : JobId) :
    JobsHeld.Found id s (JobStore.fetch id ⟨jobs, s⟩) := by
  simp only [JobStore.fetch, LiveM.renew, Runs.bind_apply, h.space_eq, Namespace.get_run]
  cases hv : jobsSpace.view s.table id.bytes with
  | none => exact ⟨jobs, h, .inr ⟨_, rfl⟩⟩
  | some bytes =>
    simp only
    cases jobs.parse bytes with
    | error e => exact ⟨jobs, h, .inr ⟨e, rfl⟩⟩
    | ok job =>
      have hsome : (jobsSpace.view s.table id.bytes).isSome := by
        rw [hv]
        rfl
      refine ⟨_, ?_, .inl ⟨job, rfl, hsome⟩⟩
      split
      · rename_i hcaching
        refine ⟨rfl, fun _ id' job' hf => ?_⟩
        rcases Cache.find?_put hf with ⟨rfl, -⟩ | ⟨-, hf⟩
        · exact hsome
        · exact h.stored hcaching id' job' hf
      · exact h

theorem JobsHeld.get {jobs : JobStore J} {s : Store} (h : JobsHeld jobs s.table) (id : JobId) :
    JobsHeld.Found id s (JobStore.get id ⟨jobs, s⟩) := by
  simp only [JobStore.get, Runs.bind_apply, LiveM.memory]
  split
  · rename_i hcaching
    have hused : JobsHeld { jobs with cache := (jobs.cache.get id).2 } s.table :=
      ⟨h.space_eq, fun hcaching id' job hf =>
        h.stored hcaching id' job ((Cache.find?_get jobs.cache id id').symm.trans hf)⟩
    simp only [Runs.bind_apply, LiveM.update]
    cases hf : (jobs.cache.get id).1 with
    | none => exact hused.fetch id
    | some job =>
      rw [Cache.get_fst] at hf
      exact ⟨_, hused, .inl ⟨job, rfl, h.stored hcaching id job hf⟩⟩
  · exact h.fetch id

/-- A job that is found is stored. -/
theorem Still.getJob {live : Live (Scheduler J)} (h : Still live₀ live) (id : JobId) :
    ∃ live', Still live₀ live' ∧
      ((∃ job, getJob id live = .ok job live' ∧
        (jobsSpace.view live₀.store.table id.bytes).isSome) ∨
      ∃ e, getJob id live = .error e live') := by
  obtain ⟨hlive, hstored, hpending⟩ := h
  obtain ⟨jobs, hjobs, hfound⟩ := hlive.jobs.get id
  refine ⟨⟨{ live.memory with jobs }, live.store⟩, ⟨⟨hjobs, hlive.dependents, hlive.runnable,
    hlive.missing, hlive.pending⟩, hstored, hpending⟩, ?_⟩
  simp only [Scheduler.getJob, onJobs, LiveM.onPart]
  rcases hfound with ⟨job, hok, hsome⟩ | ⟨e, herr⟩
  · rw [hok]
    exact .inl ⟨job, rfl, hstored ▸ hsome⟩
  · rw [herr]
    exact .inr ⟨e, rfl⟩

theorem still_getJob (id : JobId) : Preserves (Still live₀) (getJob id) := by
  intro live h
  obtain ⟨live', hlive', ⟨job, hok, -⟩ | ⟨e, herr⟩⟩ := h.getJob id
  · rw [hok]
    exact hlive'
  · rw [herr]
    exact hlive'

theorem still_pop : Preserves (Still live₀) (onRunnable IdSet.pop) := still_onRunnable inSet_pop

/-- A dequeue fails before it has touched the stored jobs, or is about to take out one of them. -/
theorem Held.removeRunnable {live : Live (Scheduler J)} (h : Held live) :
    (∃ e live', removeRunnable live = .error e live' ∧ Still live live') ∨
    ∃ id job live', Still live live' ∧ (jobsSpace.view live.store.table id.bytes).isSome ∧
      removeRunnable live = dropJob id job live' := by
  rw [removeRunnable_eq, Runs.bind_apply]
  cases hpop : onRunnable IdSet.pop live with
  | error e mid => exact .inl ⟨e, mid, rfl, still_pop.of_error h.still hpop⟩
  | ok key mid =>
    have hmid := still_pop.of_ok h.still hpop
    simp only [Runs.bind_apply]
    cases JobId.ofBytes key with
    | error e => exact .inl ⟨e, mid, rfl, hmid⟩
    | ok id =>
      simp only [Runs.ofExcept_ok]
      obtain ⟨live', hlive', ⟨job, hok, hsome⟩ | ⟨e, herr⟩⟩ := hmid.getJob id
      · rw [afterDequeue_ok hok]
        exact .inr ⟨id, job, live', hlive', hsome, rfl⟩
      · rw [afterDequeue_error herr]
        exact .inl ⟨_, live', rfl, hlive'⟩

/-! ## What changes the stored jobs -/

theorem JobsHeld.put [Job J] {jobs : JobStore J} {t : Table} (h : JobsHeld jobs t) (job : J)
    {ops : Batch} (hops : pendingSpace.Holds ops) :
    JobsHeld (jobs.remember job) (Batch.apply (jobs.stagePut job :: ops) t) := by
  have hremember : (jobs.remember job).space = jobs.space ∧
      (jobs.remember job).caching = jobs.caching := by
    rw [JobStore.remember]
    split <;> exact ⟨rfl, rfl⟩
  refine ⟨hremember.1.trans h.space_eq, fun hcaching id j hf => ?_⟩
  rw [hremember.2] at hcaching
  rw [JobStore.remember, if_pos hcaching] at hf
  rw [JobStore.stagePut, h.space_eq, view_jobs_put hops]
  rcases Cache.find?_put hf with ⟨rfl, -⟩ | ⟨-, hf⟩
  · rw [if_pos rfl]
    rfl
  · split
    · rfl
    · exact h.stored hcaching id j hf

theorem JobsHeld.delete {jobs : JobStore J} {t : Table} (h : JobsHeld jobs t) (id : JobId)
    {ops : Batch} (hops : pendingSpace.Holds ops) :
    JobsHeld (jobs.forget id) (Batch.apply (jobs.stageDelete id :: ops) t) := by
  refine ⟨h.space_eq, fun hcaching id' job hf => ?_⟩
  rw [JobStore.forget, Cache.find?_remove] at hf
  split at hf
  · cases hf
  · rename_i hne
    have hb : id'.bytes ≠ id.bytes := fun he => hne (JobId.ext he)
    rw [JobStore.stageDelete, h.space_eq, view_jobs_delete hops, if_neg hb]
    exact h.stored hcaching id' job hf

/-- Changing one stored job and their number, in memory and in the store. -/
theorem Held.with_jobs {live : Live (Scheduler J)} (h : Held live) {op : Operation} {ops : Batch}
    {key : Bytes} (hop : op.key = jobsSpace.key key) (hops : pendingSpace.Holds ops)
    {jobs : JobStore J} {pending : Counter}
    (hjobs : JobsHeld jobs (Batch.apply (op :: ops) live.store.table))
    (hpending : CountAgrees pending (Batch.apply (op :: ops) live.store.table)) :
    Held ⟨{ live.memory with jobs, pending }, live.store.after (op :: ops)⟩ := by
  have hw : Part.Within [] [.jobs, .pending] (op :: ops) := within_jobs_pending hop hops
  refine ⟨?_, h.dependents, ?_, ?_, ?_⟩ <;> simp only [Store.table_after]
  · exact hjobs
  · exact h.runnable.of_view (Part.view_apply hashed_nil hw .runnable trivial (by simp) _)
  · exact h.missing.of_view (Part.view_apply hashed_nil hw .missing trivial (by simp) _)
  · exact hpending

/-- Storing a job is refused, or there is that job under its id, and the number is the next one. -/
theorem Held.putJob [Job J] {live : Live (Scheduler J)} (h : Held live) (job : J) :
    (∃ e, putJob job live = .error e live) ∨
    ∃ live', putJob job live = .ok () live' ∧ Held live' ∧
      (∀ key, jobsSpace.view live'.store.table key =
        if key = (Job.id job).bytes then some (Job.bytes job)
        else jobsSpace.view live.store.table key) ∧
      live'.memory.pending.count = live.memory.pending.stageIncrement.1 := by
  rw [putJob_run]
  by_cases hw : live.store.writesLeft = some 0
  · rw [if_pos hw]
    exact .inl ⟨_, rfl⟩
  · rw [if_neg hw]
    have hop := key_stagePut h.jobs.space_eq job
    have hops := (stageIncrement_agrees h.pending).1
    have hcount := h.pending.of_view (view_pending_apply hop live.store.table)
    refine .inr ⟨_, rfl, h.with_jobs hop hops (h.jobs.put job hops)
      (stageIncrement_agrees hcount).2, fun key => ?_, rfl⟩
    rw [Store.table_after, JobStore.stagePut, h.jobs.space_eq, view_jobs_put hops]

/-- Taking a job out is refused, or there is no job under its id, and the number is the one before. -/
theorem Held.dropJob {live : Live (Scheduler J)} (h : Held live) (id : JobId) (a : α) :
    (∃ e, dropJob id a live = .error e live) ∨
    ∃ live', dropJob id a live = .ok a live' ∧ Held live' ∧
      (∀ key, jobsSpace.view live'.store.table key =
        if key = id.bytes then none else jobsSpace.view live.store.table key) ∧
      live'.memory.pending.count = live.memory.pending.stageDecrement.1 := by
  rw [dropJob_run]
  by_cases hw : live.store.writesLeft = some 0
  · rw [if_pos hw]
    exact .inl ⟨_, rfl⟩
  · rw [if_neg hw]
    have hop := key_stageDelete h.jobs.space_eq id
    have hops := (stageDecrement_agrees h.pending).1
    have hcount := h.pending.of_view (view_pending_apply hop live.store.table)
    refine .inr ⟨_, rfl, h.with_jobs hop hops (h.jobs.delete id hops)
      (stageDecrement_agrees hcount).2, fun key => ?_, rfl⟩
    rw [Store.table_after, JobStore.stageDelete, h.jobs.space_eq, view_jobs_delete hops]

/-- Clearing is refused, or there are no jobs, and their number is zero. -/
theorem Held.clear {live : Live (Scheduler J)} (h : Held live) :
    (∃ e, clear live = .error e live) ∨
    ∃ live', clear live = .ok () live' ∧ Held live' ∧
      (∀ key, jobsSpace.view live'.store.table key = none) ∧ live'.memory.pending.count = 0 := by
  have hplace := h.inPlace
  rw [hplace.clear_run]
  by_cases hw : live.store.writesLeft = some 0
  · rw [if_pos hw]
    exact .inl ⟨_, rfl⟩
  · rw [if_neg hw]
    have hbare := bare_clearing live.store.table
    obtain ⟨hrunnable, hmissing, hpending⟩ := hplace.emptied_agrees hbare
    rw [← Store.table_after] at hbare hrunnable hmissing hpending
    refine .inr ⟨_, rfl, ⟨⟨hplace.jobs, fun _ id job hf => ?_⟩, ⟨hplace.dependents,
      fun _ k bucket hf => ?_⟩, hrunnable, hmissing, hpending⟩, hbare.jobs, rfl⟩
    · exact absurd (hf.symm.trans (Cache.find?_flush _ id)) (Option.some_ne_none job)
    · exact absurd (hf.symm.trans (Cache.find?_flush _ k)) (Option.some_ne_none bucket)

/-! ## What an exchange changes -/

namespace Exchange

/-- Whether a job was stored. -/
def puts (x : Exchange J) : Bool :=
  match x.verb.1, x.reply with
  | .putJob _, .ok _ => true
  | _, _ => false

/-- Whether a job was taken out of the queue and of the stored jobs. -/
def removes (x : Exchange J) : Bool :=
  match x.verb.1, x.reply with
  | .removeRunnable, .ok _ => true
  | _, _ => false

/-- Whether everything was taken out. -/
def clears (x : Exchange J) : Bool :=
  match x.verb.1, x.reply with
  | .clear, .ok _ => true
  | _, _ => false

/-- Whether a job was stored in place of one with the same id. -/
def replaces [Job J] (x : Exchange J) : Bool :=
  match x.verb.1, x.reply with
  | .putJob job, .ok _ => (jobsSpace.view x.before.table (Job.id job).bytes).isSome
  | _, _ => false

end Exchange

section Changes

variable [Job J]

/-- All that an exchange can do to the stored jobs and to their number. -/
inductive Change (live live' : Live (Scheduler J)) (x : Exchange J) : Prop where
  | put (job : J) (hputs : x.puts = true) (hremoves : x.removes = false) (hclears : x.clears = false)
      (hreplaces : x.replaces = (jobsSpace.view live.store.table (Job.id job).bytes).isSome)
      (hstored : ∀ key, jobsSpace.view live'.store.table key =
        if key = (Job.id job).bytes then some (Job.bytes job)
        else jobsSpace.view live.store.table key)
      (hcount : live'.memory.pending.count = live.memory.pending.stageIncrement.1)
  | removed (id : JobId) (hputs : x.puts = false) (hremoves : x.removes = true)
      (hclears : x.clears = false)
      (hknown : (jobsSpace.view live.store.table id.bytes).isSome)
      (hstored : ∀ key, jobsSpace.view live'.store.table key =
        if key = id.bytes then none else jobsSpace.view live.store.table key)
      (hcount : live'.memory.pending.count = live.memory.pending.stageDecrement.1)
  | cleared (hclears : x.clears = true)
      (hstored : ∀ key, jobsSpace.view live'.store.table key = none)
      (hcount : live'.memory.pending.count = 0)
  | still (hputs : x.puts = false) (hremoves : x.removes = false) (hclears : x.clears = false)
      (hstored : jobsSpace.view live'.store.table = jobsSpace.view live.store.table)
      (hcount : live'.memory.pending = live.memory.pending)

/-- Whether a verb can change the stored jobs and their number. -/
def Verb.Counts (verb : Verb J) : Prop :=
  match verb.1 with
  | .putJob _ | .removeRunnable | .clear => True
  | _ => False

theorem still_verb {live₀ : Live (Scheduler J)} {verb : Verb J} (h : ¬ verb.Counts) :
    Preserves (Still live₀) verb.run := by
  by_cases hreads : verb.Reads
  · exact Verb.preserves_of_reads hreads
  obtain ⟨command, hverb⟩ := verb
  refine Verb.preserves ?_
  cases command with
  | getJob id => exact preserves_onQueue ((still_getJob id).bind fun _ => .pure _)
  | addRunnable id =>
    have hpush : Preserves (Still live₀) (addRunnable id) :=
      still_onRunnable fun t => inSet_push .runnable trivial id t
    exact preserves_onQueue (hpush.bind fun _ => .pure _)
  | addDependency dependency dependent =>
    have hadd : Preserves (Still live₀) (addDependency dependency dependent) :=
      still_onDependents fun t =>
        (inBucket_withBucket (OrderedSet.steady_put dependent.bytes) t).discard
    exact preserves_onQueue (hadd.bind fun _ => .pure _)
  | removeDependents dependency =>
    have htake : Preserves (Still live₀) (removeDependents dependency) :=
      still_onDependents fun t => inBucket_withBucket (OrderedSet.steady_takeAll JobId.ofBytes) t
    exact preserves_onQueue (htake.bind fun _ => .pure _)
  | addMissing ids =>
    have hadd : Preserves (Still live₀) (addMissing ids) :=
      still_onMissing fun t => .forM (fun id => inSet_push .missing trivial id t) ids
    exact preserves_onQueue (hadd.bind fun _ => .pure _)
  | removeMissing ids =>
    have herase : Preserves (Still live₀) (removeMissing ids) :=
      still_onMissing fun t => .forM (fun id => inSet_erase .missing trivial id t) ids
    exact preserves_onQueue (herase.bind fun _ => .pure _)
  | disableCaching => exact hverb.elim
  | execute runner limit => exact hverb.elim
  | _ => first | exact absurd trivial h | exact absurd trivial hreads

/-- A verb is answered, and does one of four things. -/
def Verb.Changes (verb : Verb J) (live : Live (Scheduler J)) : Prop :=
  ∃ x live', verb.attempt live = .ok x live' ∧ Held live' ∧ Change live live' x

variable {live : Live (Scheduler J)}

theorem Held.changes_putJob (h : Held live) (job : J) :
    Verb.Changes ⟨.putJob job, trivial⟩ live := by
  have hrun : Verb.run ⟨.putJob job, trivial⟩ = (do Scheduler.putJob job; return .done) :=
    Verb.run_eq rfl
  rw [Verb.Changes, Verb.attempt, hrun, Runs.bind_apply]
  rcases h.putJob job with ⟨e, herr⟩ | ⟨live', hok, hlive', hstored, hcount⟩
  · rw [herr]
    exact ⟨_, live, rfl, h, .still rfl rfl rfl rfl rfl⟩
  · rw [hok]
    exact ⟨_, live', rfl, hlive', .put job rfl rfl rfl rfl hstored hcount⟩

theorem Held.changes_removeRunnable (h : Held live) :
    Verb.Changes ⟨.removeRunnable, trivial⟩ live := by
  have hrun : Verb.run (J := J) ⟨.removeRunnable, trivial⟩ =
      (do return .job (← Scheduler.removeRunnable)) := Verb.run_eq rfl
  rw [Verb.Changes, Verb.attempt, hrun, Runs.bind_apply]
  rcases h.removeRunnable with ⟨e, live', herr, hlive'⟩ | ⟨id, job, mid, hmid, hknown, hdrop⟩
  · rw [herr]
    exact ⟨_, live', rfl, hlive'.held, .still rfl rfl rfl hlive'.stored hlive'.pending⟩
  · rw [hdrop]
    rcases hmid.held.dropJob id job with ⟨e, herr⟩ | ⟨live', hok, hlive', hstored, hcount⟩
    · rw [herr]
      exact ⟨_, mid, rfl, hmid.held, .still rfl rfl rfl hmid.stored hmid.pending⟩
    · rw [hok]
      rw [hmid.stored] at hstored
      rw [hmid.pending] at hcount
      exact ⟨_, live', rfl, hlive', .removed id rfl rfl rfl hknown hstored hcount⟩

theorem Held.changes_clear (h : Held live) : Verb.Changes ⟨.clear, trivial⟩ live := by
  have hrun : Verb.run (J := J) ⟨.clear, trivial⟩ =
      (do Scheduler.clear; return .done) := Verb.run_eq rfl
  rw [Verb.Changes, Verb.attempt, hrun, Runs.bind_apply]
  rcases h.clear with ⟨e, herr⟩ | ⟨live', hok, hlive', hstored, hcount⟩
  · rw [herr]
    exact ⟨_, live, rfl, h, .still rfl rfl rfl rfl rfl⟩
  · rw [hok]
    exact ⟨_, live', rfl, hlive', .cleared rfl hstored hcount⟩

/-- Every other verb leaves the stored jobs and their number. -/
theorem Held.changes_of_not_counts (h : Held live) {verb : Verb J} (hverb : ¬ verb.Counts) :
    verb.Changes live := by
  have hstill := still_verb hverb live h.still
  have hnone : ∀ before reply after, (Exchange.mk verb before reply after).puts = false ∧
      (Exchange.mk verb before reply after).removes = false ∧
      (Exchange.mk verb before reply after).clears = false := by
    intro before reply after
    obtain ⟨command, hcommand⟩ := verb
    cases command <;> first | exact ⟨rfl, rfl, rfl⟩ | exact absurd trivial hverb
  rw [Verb.Changes, Verb.attempt]
  cases hrun : verb.run live with
  | ok reply live' =>
    rw [hrun] at hstill
    obtain ⟨hputs, hremoves, hclears⟩ := hnone live.store (.ok reply) live'.store
    exact ⟨_, live', rfl, hstill.held, .still hputs hremoves hclears hstill.stored hstill.pending⟩
  | error e live' =>
    rw [hrun] at hstill
    obtain ⟨hputs, hremoves, hclears⟩ := hnone live.store (.error e) live'.store
    exact ⟨_, live', rfl, hstill.held, .still hputs hremoves hclears hstill.stored hstill.pending⟩

theorem Held.changes (h : Held live) (verb : Verb J) : verb.Changes live := by
  by_cases hcounts : verb.Counts
  · obtain ⟨command, hverb⟩ := verb
    cases command with
    | putJob job => exact h.changes_putJob job
    | removeRunnable => exact h.changes_removeRunnable
    | clear => exact h.changes_clear
    | _ => exact hcounts.elim
  · exact h.changes_of_not_counts hcounts

end Changes

end WorkQueue.Scheduler
