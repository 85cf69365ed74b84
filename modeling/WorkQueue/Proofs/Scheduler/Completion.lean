import Mathlib.Algebra.GroupWithZero.Nat
import Mathlib.Data.Set.Finite.Basic
import Mathlib.Logic.Relation
import WorkQueue.Proofs.Scheduler.InOrder

/-!
# What a driver completes

A driver pushes linked jobs and drains the queue, opens the scheduler again and gives up caching, in
any order, on a store that grants all writes; at the end it drains the queue. `run_completes` says
that nothing of this fails, that every accepted push of a job leads to one execution of it, unless
the job is still stored at the end, and that a job still stored is held up by an id that is neither
stored nor in the ledger, directly or through other stored jobs.
-/

namespace WorkQueue

namespace Scheduler

/-- Opens the scheduler again on its store. -/
def reopen (options : Options) (metrics : Option (CacheMetrics × CacheMetrics)) :
    LiveM (Scheduler LinkedJob) Unit :=
  LiveM.renew fun _ => return ((), ← load LinkedJob.parse options metrics)

end Scheduler

/-- What a driver is told to do. -/
inductive Step where
  | push (job : LinkedJob)
  | drain (limit : Option Nat)
  | reopen (options : Options) (metrics : Option (CacheMetrics × CacheMetrics))
  | disableCaching

namespace Step

/-- Carries out a step, and tells what has happened to jobs. -/
def run : Step → DrainM Recorder LinkedJob (List Event)
  | push job => do
    let r ← DrainM.world
    let accepted ← DrainM.onQueue (Scheduler.push (Recorder.runner.missing r) job)
    return if accepted then [.accepted (Job.id job)] else []
  | drain limit => do
    let before ← DrainM.world
    discard (Scheduler.drain Recorder.runner limit)
    let after ← DrainM.world
    return (after.order.drop before.order.length).map .executed
  | reopen options metrics => do
    DrainM.onQueue (Scheduler.reopen options metrics)
    return []
  | disableCaching => do
    DrainM.onQueue Scheduler.disableCaching
    return []

/-- Carries out steps, one after the other. -/
def runAll : List Step → DrainM Recorder LinkedJob (List Event)
  | [] => return []
  | step :: rest => do
    let first ← step.run
    let others ← runAll rest
    return first ++ others

/-- The jobs that steps push. -/
def pushed (steps : List Step) : List LinkedJob :=
  steps.filterMap fun
    | push job => some job
    | _ => none

theorem mem_pushed {steps : List Step} {job : LinkedJob} :
    job ∈ pushed steps ↔ push job ∈ steps := by
  rw [pushed, List.mem_filterMap]
  constructor
  · rintro ⟨step, hstep, heq⟩
    cases step <;> cases heq
    exact hstep
  · exact fun h => ⟨_, h, rfl⟩

/-- How many numbers of positions a step may use up. -/
def room : Step → Nat
  | push job => 1 + job.dependencies.length
  | _ => 0

end Step

namespace Scheduler

/-- What a driver has brought about: a scheduler in order, and a history of its jobs that accounts
for the stored jobs and for the ledger. -/
structure Driven (pool : List LinkedJob) (n : Nat) (before : Ledger) (history : List Event)
    (b : Books LinkedJob) (s : Recorder × Live (Scheduler LinkedJob)) : Prop where
  inOrder : InOrder pool n s.1.ledger [] b s.2
  failOn : s.1.failOn = none
  alternating : Alternating history b.has
  ledger : ∀ id, id ∈ s.1.ledger ↔ id ∈ before ∨ .executed id ∈ history

namespace Driven

variable {pool : List LinkedJob} {n : Nat} {before : Ledger} {history : List Event}
  {b : Books LinkedJob} {s : Recorder × Live (Scheduler LinkedJob)}

theorem drain (hids : Hashed (poolIds pool)) (hn : n < UInt64.size)
    (h : Driven pool n before history b s) (limit : Option Nat) :
    ∃ events b' s', (Step.drain limit).run s = .ok events s' ∧
      Driven pool n before (history ++ events) b' s' ∧ (limit = none → b'.queue.members = []) := by
  obtain ⟨r, live⟩ := s
  obtain ⟨k, ran, ledger, b', live', hrun, hlive', hledger, hhistory, hempty⟩ :=
    InOrder.drain hids hn limit (roundLimit live) 0 r b live h.failOn h.inOrder
  refine ⟨ran.map .executed, b', ({ r with ledger, order := r.order ++ ran }, live'), ?_,
    ⟨hlive', h.failOn, hhistory history h.alternating, fun id => ?_⟩,
    fun hl => hempty hl (InOrder.length_lt_roundLimit h.inOrder.keeps)⟩
  · have hdrain : Scheduler.drain Recorder.runner limit (r, live) = _ := hrun
    simp only [Step.run, Runs.bind_apply, DrainM.world_apply, Runs.discard_apply, hdrain,
      Runs.pure_apply, List.drop_left]
  · rw [hledger id, h.ledger id, List.mem_append, List.mem_map]
    simp only [Event.executed.injEq, exists_eq_right, or_assoc]

theorem mono {n' : Nat} (h : Driven pool n before history b s) (hn : n ≤ n') :
    Driven pool n' before history b s :=
  ⟨⟨h.inOrder.keeps, h.inOrder.granted, h.inOrder.bounded.mono hn (Nat.le_refl _), h.inOrder.tidy⟩,
    h.failOn, h.alternating, h.ledger⟩

theorem push (hids : Hashed (poolIds pool)) (h : Driven pool n before history b s)
    {job : LinkedJob} (hpool : job ∈ pool) (hbytes : job.dependencies.length < UInt8.size)
    (hroom : n + (1 + job.dependencies.length) < UInt64.size) :
    ∃ events b' s', (Step.push job).run s = .ok events s' ∧
      Driven pool (n + (1 + job.dependencies.length)) before (history ++ events) b' s' ∧
      .accepted (Job.id job) ∈ history ++ events := by
  obtain ⟨r, live⟩ := s
  have hmissing : Recorder.runner.missing r job = .ok (job.missing r.ledger) := rfl
  rcases h.inOrder.push hids hpool hbytes (by omega) hmissing with
    ⟨hhas, hpush⟩ | ⟨hhas, b', live', hpush, hlive', hhas'⟩
  · refine ⟨[], b, (r, live), ?_, ?_, ?_⟩
    · simp only [Step.run, Runs.bind_apply, DrainM.world_apply, DrainM.onQueue_apply, hpush]
      rfl
    · rw [List.append_nil]
      exact h.mono (Nat.le_add_right _ _)
    · rw [List.append_nil]
      exact h.alternating.accepted_of_stored hhas
  · refine ⟨[.accepted (Job.id job)], b', (r, live'), ?_,
      ⟨?_, h.failOn, h.alternating.accept hhas hhas', fun id => ?_⟩, by simp⟩
    · simp only [Step.run, Runs.bind_apply, DrainM.world_apply, DrainM.onQueue_apply, hpush]
      rfl
    · rw [← Nat.add_assoc]
      exact hlive'
    · rw [h.ledger id, List.mem_append]
      simp

theorem reopen (h : Driven pool n before history b s) (options : Options)
    (metrics : Option (CacheMetrics × CacheMetrics)) :
    ∃ s', (Step.reopen options metrics).run s = .ok [] s' ∧ Driven pool n before history b s' := by
  obtain ⟨r, live⟩ := s
  obtain ⟨scheduler, hload, hkeeps⟩ := h.inOrder.keeps.reopen options metrics
  refine ⟨(r, ⟨scheduler, live.store⟩), ?_, ⟨⟨hkeeps, h.inOrder.granted, h.inOrder.bounded,
    h.inOrder.tidy⟩, h.failOn, h.alternating, h.ledger⟩⟩
  simp only [Step.run, Scheduler.reopen, Runs.bind_apply, DrainM.onQueue_apply, LiveM.renew, hload,
    Runs.pure_apply]

theorem disableCaching (h : Driven pool n before history b s) :
    ∃ s', Step.disableCaching.run s = .ok [] s' ∧ Driven pool n before history b s' := by
  obtain ⟨r, live⟩ := s
  obtain ⟨live', hok, hkeeps, hstore⟩ := h.inOrder.keeps.disableCaching
  refine ⟨(r, live'), ?_, ⟨⟨hkeeps, hstore ▸ h.inOrder.granted, h.inOrder.bounded, h.inOrder.tidy⟩,
    h.failOn, h.alternating, h.ledger⟩⟩
  simp only [Step.run, Runs.bind_apply, DrainM.onQueue_apply, hok, Runs.pure_apply]

/-- Every step is carried out, and a job that it pushes has been accepted, now or before. -/
theorem step (hids : Hashed (poolIds pool)) (h : Driven pool n before history b s) (step : Step)
    (hpool : ∀ job, step = .push job → job ∈ pool ∧ job.dependencies.length < UInt8.size)
    (hroom : n + step.room < UInt64.size) :
    ∃ events b' s', step.run s = .ok events s' ∧
      Driven pool (n + step.room) before (history ++ events) b' s' ∧
      ∀ job, step = .push job → .accepted (Job.id job) ∈ history ++ events := by
  cases step with
  | push job =>
    obtain ⟨hjob, hbytes⟩ := hpool job rfl
    obtain ⟨events, b', s', hrun, hs', haccepted⟩ := h.push hids hjob hbytes hroom
    refine ⟨events, b', s', hrun, hs', ?_⟩
    rintro _ ⟨⟩
    exact haccepted
  | drain limit =>
    obtain ⟨events, b', s', hrun, hs', -⟩ := h.drain hids hroom limit
    exact ⟨events, b', s', hrun, hs', nofun⟩
  | reopen options metrics =>
    obtain ⟨s', hrun, hs'⟩ := h.reopen options metrics
    exact ⟨[], b, s', hrun, by rwa [List.append_nil], nofun⟩
  | disableCaching =>
    obtain ⟨s', hrun, hs'⟩ := h.disableCaching
    exact ⟨[], b, s', hrun, by rwa [List.append_nil], nofun⟩

/-- Steps are carried out, and after a last drain the queue is empty. -/
theorem run (hids : Hashed (poolIds pool)) :
    ∀ (steps : List Step) (n : Nat) (history : List Event) (b : Books LinkedJob)
      (s : Recorder × Live (Scheduler LinkedJob)), Driven pool n before history b s →
      (∀ job, Step.push job ∈ steps → job ∈ pool ∧ job.dependencies.length < UInt8.size) →
      n + (steps.map Step.room).sum < UInt64.size →
      ∃ events b' s', Step.runAll (steps ++ [.drain none]) s = .ok events s' ∧
        Driven pool (n + (steps.map Step.room).sum) before (history ++ events) b' s' ∧
        b'.queue.members = [] ∧
        ∀ job, Step.push job ∈ steps → .accepted (Job.id job) ∈ history ++ events
  | [], n, history, b, s, h, _, hroom => by
    obtain ⟨events, b', s', hrun, hs', hempty⟩ := h.drain hids hroom none
    refine ⟨events, b', s', ?_, hs', hempty rfl, nofun⟩
    simp only [List.nil_append, Step.runAll, Runs.bind_apply, hrun, Runs.pure_apply, List.append_nil]
  | step :: rest, n, history, b, s, h, hpool, hroom => by
    rw [List.map_cons, List.sum_cons, ← Nat.add_assoc] at hroom ⊢
    obtain ⟨first, b₁, s₁, hfirst, hs₁, haccepted⟩ := h.step hids step
      (fun job he => hpool job (he ▸ List.mem_cons_self)) (by omega)
    obtain ⟨others, b', s', hothers, hs', hempty, haccepted'⟩ := run hids rest _ _ b₁ s₁ hs₁
      (fun job hjob => hpool job (List.mem_cons_of_mem _ hjob)) hroom
    rw [List.append_assoc] at hs' haccepted'
    refine ⟨first ++ others, b', s', ?_, hs', hempty, fun job hjob => ?_⟩
    · simp only [List.cons_append, Step.runAll, Runs.bind_apply, hfirst, hothers, Runs.pure_apply]
    · rcases List.mem_cons.mp hjob with he | hjob
      · have hmem := haccepted job he.symm
        rw [← List.append_assoc]
        exact List.mem_append_left _ hmem
      · exact haccepted' job hjob

end Driven

/-! ## What holds jobs up -/

/-- A job of the pool depends on another. -/
def DependsOn (pool : List LinkedJob) (id other : JobId) : Prop :=
  ∃ job ∈ pool, Job.id job = id ∧ other ∈ job.dependencies

/-- Where no job depends on itself, one can go on from jobs to their dependencies only so far. -/
theorem wellFounded_dependsOn {pool : List LinkedJob}
    (hacyclic : ∀ id, ¬ Relation.TransGen (DependsOn pool) id id) :
    WellFounded fun a b : { id // id ∈ pool.map Job.id } =>
      Relation.TransGen (DependsOn pool) b.1 a.1 := by
  have htrans : IsTrans { id // id ∈ pool.map Job.id } fun a b =>
      Relation.TransGen (DependsOn pool) b.1 a.1 := ⟨fun _ _ _ hab hbc => hbc.trans hab⟩
  have hirrefl : Std.Irrefl fun a b : { id // id ∈ pool.map Job.id } =>
      Relation.TransGen (DependsOn pool) b.1 a.1 := ⟨fun a => hacyclic a.1⟩
  have hfinite : Finite { id // id ∈ pool.map Job.id } := (List.finite_toSet _).to_subtype
  exact Finite.wellFounded_of_trans_of_irrefl _

/-- Where nothing is queued, every stored job is held up by an id that is neither stored nor in the
ledger, directly or through other stored jobs. -/
theorem Tidy.held_up {pool : List LinkedJob} {ledger : Ledger} {b : Books LinkedJob}
    (h : Tidy pool ledger [] b) (hq : b.queue.members = [])
    (hacyclic : ∀ id, ¬ Relation.TransGen (DependsOn pool) id id) {id : JobId}
    (hid : b.has id = true) :
    ∃ other, Relation.TransGen (DependsOn b.jobs) id other ∧ b.has other = false ∧
      other ∉ ledger := by
  have hstored : ∀ id, b.has id = true → id ∈ pool.map Job.id := by
    intro id hid
    obtain ⟨job, hjob, rfl⟩ := Books.isSome_job?.mp hid
    exact List.mem_map_of_mem (h.pooled job hjob)
  suffices hall : ∀ x : { id // id ∈ pool.map Job.id }, b.has x.1 = true →
      ∃ other, Relation.TransGen (DependsOn b.jobs) x.1 other ∧ b.has other = false ∧
        other ∉ ledger from hall ⟨id, hstored id hid⟩ hid
  intro x
  induction x using (wellFounded_dependsOn hacyclic).induction with
  | _ x ih =>
    intro hx
    obtain ⟨job, hjob, hjobid⟩ := Books.isSome_job?.mp hx
    have hblocked := h.blocked job hjob (by simp [hq]) List.not_mem_nil
    obtain ⟨d, hd⟩ := List.exists_mem_of_ne_nil _ hblocked
    obtain ⟨hdep, hout⟩ := LinkedJob.mem_missing.mp hd
    cases hhas : b.has d with
    | false => exact ⟨d, .single ⟨job, hjob, hjobid, hdep⟩, hhas, hout⟩
    | true =>
      have hpool : DependsOn pool x.1 d := ⟨job, h.pooled job hjob, hjobid, hdep⟩
      obtain ⟨other, hpath, hother⟩ := ih ⟨d, hstored d hhas⟩ (.single hpool) hhas
      exact ⟨other, .head ⟨job, hjob, hjobid, hdep⟩ hpath, hother⟩

open Runs (Gives)

/-- A stored job depends on another. -/
def StoredDependsOn (live : Live (Scheduler LinkedJob)) (id other : JobId) : Prop :=
  ∃ job, Gives (getJob id) live (· = job) ∧ other ∈ job.dependencies

/-- What has been achieved when a driver has come to the end: of the jobs that it has pushed, with
the history that led to the end and the ledger there was before. -/
structure Completed (jobs : List LinkedJob) (before : Ledger) (history : List Event)
    (s : Recorder × Live (Scheduler LinkedJob)) : Prop where
  /-- Between two accepted pushes of a job it has been executed once. -/
  once : ∀ id first between last,
    history = first ++ .accepted id :: (between ++ .accepted id :: last) →
    .accepted id ∉ between → between.count (.executed id) = 1
  /-- After the last accepted push of a job it has been executed once at most. -/
  at_most_once : ∀ id first last, history = first ++ .accepted id :: last →
    .accepted id ∉ last → last.count (.executed id) ≤ 1
  ledger : ∀ id, id ∈ s.1.ledger ↔ id ∈ before ∨ .executed id ∈ history
  queue : Gives runnableIds s.2 (· = [])
  /-- The stored jobs are those that have not been executed since their last accepted push. -/
  stored : ∀ id, Gives (hasJob id) s.2 fun known => known = true ↔
    ∃ first last, history = first ++ .accepted id :: last ∧ .executed id ∉ last
  pushed : ∀ id, Gives (hasJob id) s.2 (· = true) →
    Gives (getJob id) s.2 fun job => job ∈ jobs ∧ Job.id job = id
  /-- A stored job is held up by an id that is neither stored nor in the ledger. -/
  held_up : ∀ id, Gives (hasJob id) s.2 (· = true) →
    ∃ other, Relation.TransGen (StoredDependsOn s.2) id other ∧
      Gives (hasJob other) s.2 (· = false) ∧ other ∉ s.1.ledger
  registered : ∀ id job, Gives (getJob id) s.2 (· = job) → ∀ d ∈ job.missing s.1.ledger,
    Gives (onDependents (Dependents.of d)) s.2 (id ∈ ·)
  /-- The number of pending jobs is that of the stored ones. -/
  pending : ∃ ids : List JobId, ids.Nodup ∧ (∀ id, id ∈ ids ↔ Gives (hasJob id) s.2 (· = true)) ∧
    Gives pendingCount s.2 (·.toNat = ids.length)
  /-- Nothing is left where all dependencies are in the ledger or pushed as well. -/
  nothing_left : (∀ job ∈ jobs, ∀ d ∈ job.dependencies, d ∈ before ∨ ∃ other ∈ jobs, Job.id other = d) →
    Gives pendingCount s.2 (· = 0) ∧
      ∀ job ∈ jobs, Gives (hasJob (Job.id job)) s.2 (· = false) ∧ Job.id job ∈ s.1.ledger

/-- Nothing is left where all dependencies are in the ledger or pushed as well, since a job that is
left would be held up by one that has been executed. -/
theorem Driven.jobs_eq_nil {jobs : List LinkedJob} {n : Nat} {before : Ledger}
    {history : List Event} {b : Books LinkedJob} {s : Recorder × Live (Scheduler LinkedJob)}
    (h : Driven jobs n before history b s) (hq : b.queue.members = [])
    (hacyclic : ∀ id, ¬ Relation.TransGen (DependsOn jobs) id id)
    (haccepted : ∀ job ∈ jobs, .accepted (Job.id job) ∈ history)
    (hclosed : ∀ job ∈ jobs, ∀ d ∈ job.dependencies,
      d ∈ before ∨ ∃ other ∈ jobs, Job.id other = d) : b.jobs = [] := by
  have htidy := h.inOrder.tidy
  refine List.eq_nil_iff_forall_not_mem.mpr fun job hjob => ?_
  have hself : b.has (Job.id job) = true := Books.isSome_job?.mpr ⟨job, hjob, rfl⟩
  obtain ⟨other, hpath, hout, hledger⟩ := htidy.held_up hq hacyclic hself
  obtain ⟨_, -, last, hlast, -, hd⟩ := Relation.TransGen.tail'_iff.mp hpath
  rw [h.ledger, not_or] at hledger
  rcases hclosed last (htidy.pooled last hlast) other hd with hbefore | ⟨o, ho, rfl⟩
  · exact hledger.1 hbefore
  · exact hledger.2 (h.alternating.executed_of_accepted (haccepted o ho) hout)

/-- A driver that has come to the end with an empty queue has completed what can be completed. -/
theorem Driven.completed {jobs : List LinkedJob} {n : Nat} {before : Ledger} {history : List Event}
    {b : Books LinkedJob} {s : Recorder × Live (Scheduler LinkedJob)}
    (hids : Hashed (poolIds jobs)) (h : Driven jobs n before history b s)
    (hq : b.queue.members = [])
    (hacyclic : ∀ id, ¬ Relation.TransGen (DependsOn jobs) id id)
    (haccepted : ∀ job ∈ jobs, .accepted (Job.id job) ∈ history) :
    Completed jobs before history s := by
  have hk := h.inOrder.keeps
  have htidy := h.inOrder.tidy
  have hhas : ∀ id (p : Bool → Prop), Gives (hasJob id) s.2 p ↔ p (b.has id) := fun id p =>
    Runs.gives_iff (hk.hasJob id) p
  have hget : ∀ job ∈ b.jobs, Gives (getJob (Job.id job)) s.2 (· = job) := by
    intro job hjob
    obtain ⟨live', hok, -⟩ := hk.getJob hids (Books.job?_of_mem htidy.distinct hjob)
    exact ⟨job, live', hok, rfl⟩
  have hstored : ∀ {id}, b.has id = true → ∃ job ∈ b.jobs, Job.id job = id := fun hid =>
    Books.isSome_job?.mp hid
  have hedge : ∀ id other, DependsOn b.jobs id other → StoredDependsOn s.2 id other := by
    rintro id other ⟨job, hjob, rfl, hd⟩
    exact ⟨job, hget job hjob, hd⟩
  refine ⟨fun id _ _ _ => h.alternating.once, fun id _ _ => h.alternating.at_most_once, h.ledger, ?_,
    fun id => (hhas id _).mpr h.alternating.stored_iff, fun id hid => ?_, fun id hid => ?_,
    fun id job hjob d hd => ?_, ?_, fun hclosed => ?_⟩
  · obtain ⟨live', hok⟩ := hk.runnableIds
    exact ⟨_, live', hok, hq⟩
  · obtain ⟨job, hjob, rfl⟩ := hstored ((hhas id _).mp hid)
    obtain ⟨_, live', hok, rfl⟩ := hget job hjob
    exact ⟨_, live', hok, htidy.pooled _ hjob, rfl⟩
  · obtain ⟨other, hpath, hout, hledger⟩ := htidy.held_up hq hacyclic ((hhas id _).mp hid)
    exact ⟨other, Relation.TransGen.mono hedge _ _ hpath, (hhas other _).mpr hout, hledger⟩
  · obtain ⟨found, live', hok, rfl⟩ := hjob
    cases hfound : b.job? id with
    | none =>
      obtain ⟨_, herr, -⟩ := hk.getJob_none hids hfound
      cases hok.symm.trans herr
    | some other =>
      obtain ⟨_, hok', -⟩ := hk.getJob hids hfound
      cases hok.symm.trans hok'
      obtain ⟨hmem, rfl⟩ := Books.mem_of_job? hfound
      have hin := missing_subset_poolIds (htidy.pooled _ hmem) s.1.ledger hd
      obtain ⟨_, hof⟩ := hk.dependentsOf hids hin
      exact ⟨_, _, hof, htidy.noted _ hmem d hd⟩
  · refine ⟨b.jobs.map Job.id, htidy.distinct, fun id => ?_, ?_⟩
    · rw [hhas, Books.has, Books.isSome_job?, List.mem_map]
    · rw [Runs.gives_iff hk.pendingCount, List.length_map, ← htidy.counted]
      exact hk.filed.toNat_pending
  · have hnone := h.jobs_eq_nil hq hacyclic haccepted hclosed
    refine ⟨?_, fun job hjob => ?_⟩
    · rw [Runs.gives_iff hk.pendingCount, htidy.counted, hnone]
      rfl
    · have hout : b.has (Job.id job) = false := by
        rw [Books.has, Books.job?, hnone]
        rfl
      refine ⟨(hhas _ _).mpr hout, (h.ledger _).mpr (.inr ?_)⟩
      exact h.alternating.executed_of_accepted (haccepted job hjob) hout

/-- A driver that begins with a store without entries, which grants all writes, carries out all its
steps and completes what can be completed. Its jobs, none of which depends on itself in the end, are
such that their bytes can be read back, their hashes differ, and there are numbers for all of them. -/
theorem run_completes {store : Store} (hempty : store.table = .empty)
    (hgranted : store.writesLeft = none) (options : Options)
    (metrics : Option (CacheMetrics × CacheMetrics)) {r : Recorder} (hfail : r.failOn = none)
    {steps : List Step} (hids : Hashed (poolIds (Step.pushed steps)))
    (hacyclic : ∀ id, ¬ Relation.TransGen (DependsOn (Step.pushed steps)) id id)
    (hbytes : ∀ job ∈ Step.pushed steps, job.dependencies.length < UInt8.size)
    (hroom : (steps.map Step.room).sum < UInt64.size) :
    ∃ scheduler t history s, load LinkedJob.parse options metrics store = .ok scheduler t ∧
      Step.runAll (steps ++ [.drain none]) (r, ⟨scheduler, t⟩) = .ok history s ∧
      Completed (Step.pushed steps) r.ledger history s := by
  obtain ⟨scheduler, t, hload⟩ := load_of_empty LinkedJob.parse hempty hgranted options metrics
  obtain ⟨hkeeps, hw⟩ := keeps_of_load hids hempty hload
  have hstart : Driven (Step.pushed steps) 0 r.ledger [] .empty (r, ⟨scheduler, t⟩) :=
    ⟨⟨hkeeps, hw hgranted, .empty, .empty⟩, hfail, .empty, by simp⟩
  obtain ⟨history, b, s, hrun, hs, hq, haccepted⟩ := Driven.run hids steps 0 [] .empty _ hstart
    (fun job hjob => ⟨Step.mem_pushed.mpr hjob, hbytes job (Step.mem_pushed.mpr hjob)⟩) (by omega)
  exact ⟨scheduler, t, history, s, hload, hrun,
    hs.completed hids hq hacyclic fun job hjob => haccepted job (Step.mem_pushed.mp hjob)⟩

/-- `follower` is pushed first and `forerunner` twice. -/
def followerSteps : List Step :=
  [.push follower, .push forerunner, .drain (some 1), .reopen ⟨true, 4, 4, ""⟩ none,
    .push forerunner, .disableCaching]

theorem dependsOn_followerSteps {id other : JobId}
    (h : DependsOn (Step.pushed followerSteps) id other) :
    id = Job.id follower ∧ other = Job.id forerunner := by
  obtain ⟨job, hjob, rfl, hd⟩ := h
  rcases List.mem_cons.mp hjob with rfl | hjob
  · exact ⟨rfl, List.mem_singleton.mp hd⟩
  · have hfore : job = forerunner := by simpa using hjob
    rw [hfore] at hd
    cases hd

theorem acyclic_followerSteps (id : JobId) :
    ¬ Relation.TransGen (DependsOn (Step.pushed followerSteps)) id id := by
  intro hpath
  have hne : Job.id follower ≠ Job.id forerunner := by decide +kernel
  obtain ⟨_, hfirst, -⟩ := Relation.TransGen.head'_iff.mp hpath
  obtain ⟨_, -, hlast⟩ := Relation.TransGen.tail'_iff.mp hpath
  exact hne ((dependsOn_followerSteps hfirst).1.symm.trans (dependsOn_followerSteps hlast).2)

/-- The driver executes both jobs and leaves nothing. -/
theorem run_completes_follower : ∃ live history s,
    Step.runAll (followerSteps ++ [.drain none]) (⟨[], [], none⟩, live) = .ok history s ∧
    Gives pendingCount s.2 (· = 0) ∧ Job.id follower ∈ s.1.ledger := by
  have hempty : (⟨.empty, .empty, none, none⟩ : Store).table = .empty := rfl
  have hfail : (⟨[], [], none⟩ : Recorder).failOn = none := rfl
  have hids : Hashed (poolIds (Step.pushed followerSteps)) := by decide +kernel
  obtain ⟨scheduler, t, history, s, -, hrun, hcompleted⟩ :=
    run_completes hempty rfl ⟨true, 4, 4, ""⟩ none hfail hids acyclic_followerSteps (by decide)
      (by decide)
  obtain ⟨hzero, hall⟩ := hcompleted.nothing_left fun job hjob d hd => by
    obtain ⟨-, rfl⟩ := dependsOn_followerSteps ⟨job, hjob, rfl, hd⟩
    exact .inr ⟨forerunner, Step.mem_pushed.mpr (by simp [followerSteps]), rfl⟩
  have hmem : follower ∈ Step.pushed followerSteps :=
    Step.mem_pushed.mpr (by simp [followerSteps])
  exact ⟨_, history, s, hrun, hzero, (hall follower hmem).2⟩

end Scheduler

end WorkQueue
