import WorkQueue.Proofs.Scheduler.Blank
import WorkQueue.Proofs.Scheduler.Edits

/-!
# What a session leaves standing

Whatever a scheduler is put through, it stays set up as it was opened last, but for caches that were
given up since (`Move.setting`), and in the namespace of the number of pending jobs there is nothing
but that number. With that it is `Standing`, which every session keeps; and no session fails to open
the scheduler again (`Standing.playAll`).
-/

namespace WorkQueue.Scheduler

open Runs (Preserves)

variable {J α : Type} {parse : Parser J} {options : Options}

/-- What a scheduler has in memory that is opened on a store without entries, but for metrics. -/
def blank (parse : Parser J) (options : Options) : Scheduler J where
  jobs := ⟨jobsSpace, parse, .new options.jobsCapacity none, options.caching⟩
  dependents := ⟨dependentsSpace, .new options.dependentsCapacity none, options.caching⟩
  runnable := ⟨runnableSpace, ⟨runnableSpace, 0⟩⟩
  missing := ⟨missingSpace, ⟨missingSpace, 0⟩⟩
  pending := ⟨pendingSpace, 0⟩

/-- There is no other entry beside the number of pending jobs. -/
def CountAlone (t : Table) : Prop := ∀ key, key ≠ Counter.key → pendingSpace.view t key = none

theorem CountAlone.of_view {t t' : Table} (h : CountAlone t)
    (hv : pendingSpace.view t' = pendingSpace.view t) : CountAlone t' := by
  rw [CountAlone, hv]
  exact h

theorem CountAlone.apply {t : Table} (h : CountAlone t) {ops : Batch} (hops : Counts ops) :
    CountAlone (Batch.apply ops t) := by
  intro key hkey
  rw [Namespace.view, Batch.get?_apply_of_not_mem fun op hop he => ?_]
  · exact h key hkey
  · obtain ⟨count, rfl⟩ := hops op hop
    exact hkey (Namespace.key_inj.mp he).symm

theorem CountAlone.after_clearing {t : Table} (h : CountAlone t) :
    CountAlone (Batch.apply (clearing t) t) := by
  intro key hkey
  rw [Namespace.view, get?_clearing, if_neg fun he => hkey (Namespace.key_inj.mp he)]
  split
  · rfl
  · exact h key hkey

/-- A scheduler that has in memory what its store has, as it was set up. -/
structure Standing (parse : Parser J) (options : Options) (live : Live (Scheduler J)) : Prop where
  held : Held live
  jobs : live.memory.jobs.blank = (blank parse options).jobs
  dependents : live.memory.dependents.blank = (blank parse options).dependents
  alone : CountAlone live.store.table

/-! ## Verbs -/

theorem standing_onRunnable {x : LiveM IdSet α} (h : ∀ t, Preserves (InSet .runnable t) x) :
    Preserves (Standing parse options) (onRunnable x) := by
  intro live hlive
  have hheld := (still_onRunnable h live hlive.held.still).held
  obtain ⟨-, honly⟩ := h live.store.table ⟨live.memory.runnable, live.store⟩
    ⟨hlive.held.runnable, .refl _ _⟩
  rw [onRunnable, final_onPart] at hheld ⊢
  exact ⟨hheld, hlive.jobs, hlive.dependents, hlive.alone.of_view (honly.view .pending (by decide))⟩

theorem standing_onMissing {x : LiveM IdSet α} (h : ∀ t, Preserves (InSet .missing t) x) :
    Preserves (Standing parse options) (onMissing x) := by
  intro live hlive
  have hheld := (still_onMissing h live hlive.held.still).held
  obtain ⟨-, honly⟩ := h live.store.table ⟨live.memory.missing, live.store⟩
    ⟨hlive.held.missing, .refl _ _⟩
  rw [onMissing, final_onPart] at hheld ⊢
  exact ⟨hheld, hlive.jobs, hlive.dependents, hlive.alone.of_view (honly.view .pending (by decide))⟩

theorem standing_onDependents {dependency : JobId} {x : LiveM Dependents α}
    (h : ∀ t, Preserves (InBucket dependency t) x)
    (hblank : ∀ b, Preserves (fun part : Live Dependents => part.memory.blank = b) x) :
    Preserves (Standing parse options) (onDependents x) := by
  intro live hlive
  have hheld := (still_onDependents h live hlive.held.still).held
  obtain ⟨-, honly⟩ := h live.store.table ⟨live.memory.dependents, live.store⟩
    ⟨hlive.held.dependents, .refl _ _⟩
  have hdependents := hblank _ ⟨live.memory.dependents, live.store⟩ hlive.dependents
  rw [onDependents, final_onPart] at hheld ⊢
  exact ⟨hheld, hlive.jobs, hdependents,
    hlive.alone.of_view (honly.view .pending (by simp [Part.rank]))⟩

theorem standing_getJob (id : JobId) : Preserves (Standing parse options) (getJob id) := by
  intro live hlive
  have hheld := (still_getJob id live hlive.held.still).held
  have hjobs := JobStore.blank_get id ⟨live.memory.jobs, live.store⟩ hlive.jobs
  have hstore : (Runs.final (JobStore.get id ⟨live.memory.jobs, live.store⟩)).store =
      live.store := by
    obtain ⟨jobs, -, ⟨job, hok, -⟩ | ⟨e, herr⟩⟩ := hlive.held.jobs.get id
    · rw [hok]
      rfl
    · rw [herr]
      rfl
  rw [getJob, onJobs, final_onPart] at hheld ⊢
  rw [hstore] at hheld ⊢
  exact ⟨hheld, hjobs, hlive.dependents, hlive.alone⟩

/-- A stored job and the number of jobs are written, and memory follows. -/
theorem Standing.with_jobs {live : Live (Scheduler J)} (h : Standing parse options live)
    {jobs : JobStore J} {pending : Counter} {op : Operation} {ops : Batch} {key : Bytes}
    (hop : op.key = jobsSpace.key key) (hops : Counts ops)
    (hheld : Held ⟨{ live.memory with jobs, pending }, live.store.after (op :: ops)⟩)
    (hjobs : jobs.blank = live.memory.jobs.blank) :
    Standing parse options
      ⟨{ live.memory with jobs, pending }, live.store.after (op :: ops)⟩ := by
  refine ⟨hheld, hjobs.trans h.jobs, h.dependents, ?_⟩
  rw [Store.table_after, Batch.apply_cons]
  exact (h.alone.of_view (view_pending_apply hop _)).apply hops

theorem standing_dropJob (id : JobId) (a : α) :
    Preserves (Standing parse options) (dropJob id a) := by
  intro live hlive
  have hheld := hlive.held.dropJob id a
  rw [dropJob_run] at hheld ⊢
  by_cases hw : live.store.writesLeft = some 0
  · rw [if_pos hw]
    exact hlive
  · rw [if_neg hw] at hheld ⊢
    obtain ⟨e, herr⟩ | ⟨live', hok, hheld', -⟩ := hheld
    · cases herr
    · cases hok
      exact hlive.with_jobs (key_stageDelete hlive.held.jobs.space_eq id)
        (counts_stageDecrement hlive.held.pending.space_eq) hheld' rfl

theorem standing_removeRunnable :
    Preserves (Standing parse options) (removeRunnable (J := J)) := by
  refine (standing_onRunnable inSet_pop).bind fun key => ?_
  refine (Preserves.ofExcept _).bind fun id => ?_
  refine (preserves_afterDequeue (standing_getJob id) id).bind fun job => ?_
  exact standing_dropJob id job

theorem standing_clear : Preserves (Standing parse options) (clear (J := J)) := by
  intro live hlive
  have hheld := hlive.held.clear
  rw [hlive.held.inPlace.clear_run] at hheld ⊢
  by_cases hw : live.store.writesLeft = some 0
  · rw [if_pos hw]
    exact hlive
  · rw [if_neg hw] at hheld ⊢
    obtain ⟨e, herr⟩ | ⟨live', hok, hheld', -⟩ := hheld
    · cases herr
    · cases hok
      refine ⟨hheld', hlive.jobs, hlive.dependents, ?_⟩
      rw [Runs.final_ok, Store.table_after]
      exact hlive.alone.after_clearing

section Sessions

variable [Job J]

theorem standing_putJob (job : J) : Preserves (Standing parse options) (putJob job) := by
  intro live hlive
  have hheld := hlive.held.putJob job
  rw [putJob_run] at hheld ⊢
  by_cases hw : live.store.writesLeft = some 0
  · rw [if_pos hw]
    exact hlive
  · rw [if_neg hw] at hheld ⊢
    obtain ⟨e, herr⟩ | ⟨live', hok, hheld', -⟩ := hheld
    · cases herr
    · cases hok
      exact hlive.with_jobs (key_stagePut hlive.held.jobs.space_eq job)
        (counts_stageIncrement hlive.held.pending.space_eq) hheld'
        (live.memory.jobs.blank_remember job)

theorem standing_verb (verb : Verb J) : Preserves (Standing parse options) verb.run := by
  by_cases hreads : verb.Reads
  · exact Verb.preserves_of_reads hreads
  obtain ⟨command, hverb⟩ := verb
  refine Verb.preserves ?_
  cases command with
  | putJob job => exact preserves_onQueue ((standing_putJob job).bind fun _ => .pure _)
  | getJob id => exact preserves_onQueue ((standing_getJob id).bind fun _ => .pure _)
  | addRunnable id =>
    have hadd : Preserves (Standing parse options) (addRunnable (J := J) id) :=
      standing_onRunnable fun t => inSet_push .runnable trivial id t
    exact preserves_onQueue (hadd.bind fun _ => .pure _)
  | removeRunnable => exact preserves_onQueue (standing_removeRunnable.bind fun _ => .pure _)
  | addDependency dependency dependent =>
    have hsteady := OrderedSet.steady_put dependent.bytes
    have hadd : Preserves (Standing parse options) (addDependency (J := J) dependency dependent) :=
      standing_onDependents (fun t => (inBucket_withBucket hsteady t).discard)
        fun _ => (Dependents.blank_withBucket dependency _).discard
    exact preserves_onQueue (hadd.bind fun _ => .pure _)
  | removeDependents dependency =>
    have hsteady := OrderedSet.steady_takeAll JobId.ofBytes
    have htake : Preserves (Standing parse options) (removeDependents (J := J) dependency) :=
      standing_onDependents (inBucket_withBucket hsteady)
        fun _ => Dependents.blank_withBucket dependency _
    exact preserves_onQueue (htake.bind fun _ => .pure _)
  | addMissing ids =>
    have hadd : Preserves (Standing parse options) (addMissing (J := J) ids) :=
      standing_onMissing fun t => .forM (fun id => inSet_push .missing trivial id t) ids
    exact preserves_onQueue (hadd.bind fun _ => .pure _)
  | removeMissing ids =>
    have herase : Preserves (Standing parse options) (removeMissing (J := J) ids) :=
      standing_onMissing fun t => .forM (fun id => inSet_erase .missing trivial id t) ids
    exact preserves_onQueue (herase.bind fun _ => .pure _)
  | clear => exact preserves_onQueue (standing_clear.bind fun _ => .pure _)
  | disableCaching => exact hverb.elim
  | execute runner limit => exact hverb.elim
  | _ => exact absurd trivial hreads

end Sessions

/-! ## Moves -/

theorem countAlone_load_counter {jobs : JobStore J} {store t : Store} {counter : Counter}
    (h : CountAlone store.table) (hload : Counter.load pendingSpace jobs store = .ok counter t) :
    CountAlone t.table := by
  cases hv : pendingSpace.view store.table Counter.key with
  | some value =>
    simp only [Counter.load, Runs.bind_apply, Namespace.get?_run, hv] at hload
    cases hread : Counter.readCount value with
    | error e =>
      rw [hread] at hload
      cases hload
    | ok count =>
      rw [hread] at hload
      cases hload
      exact h
  | none =>
    rw [load_count_none jobs hv] at hload
    split at hload <;> cases hload
    rw [Store.table_after]
    exact h.apply fun op hop => ⟨_, List.mem_singleton.mp hop⟩

/-- A scheduler stands as it is opened. -/
theorem standing_of_load {metrics : Option (CacheMetrics × CacheMetrics)} {store t : Store}
    {scheduler : Scheduler J} (h : CountAlone store.table)
    (hload : load parse options metrics store = .ok scheduler t) :
    Standing parse options ⟨scheduler, t⟩ := by
  have hcoherent : Coherent [] parse ⟨scheduler, t⟩ := coherent_of_load hload
  obtain ⟨pending, s₁, hpending, hrest⟩ := Runs.bind_eq_ok.mp hload
  obtain ⟨runnable, s₂, hrunnable, hrest'⟩ := Runs.bind_eq_ok.mp hrest
  obtain ⟨missing, s₃, hmissing, hlast⟩ := Runs.bind_eq_ok.mp hrest'
  obtain ⟨rfl, -⟩ := load_set hrunnable
  obtain ⟨rfl, -⟩ := load_set hmissing
  have halone := countAlone_load_counter h hpending
  obtain ⟨caching, jobsCapacity, dependentsCapacity, metricsName⟩ := options
  cases caching <;> cases hlast <;> exact ⟨hcoherent.placed.held, rfl, rfl, halone⟩

/-- The options that a scheduler has after a move. Caches that were given up are not in use. -/
def Move.setting (options : Options) : Move J → Options
  | reopen options _ => options
  | disableCaching => { options with caching := false }
  | _ => options

namespace Standing

variable {live : Live (Scheduler J)}

theorem disableCaching (h : Standing parse options live) :
    Standing parse { options with caching := false }
      (Runs.final (Scheduler.disableCaching live)) where
  held := ⟨⟨h.held.jobs.space_eq, nofun⟩, ⟨h.held.dependents.space_eq, nofun⟩, h.held.runnable,
    h.held.missing, h.held.pending⟩
  jobs := congrArg (fun jobs : JobStore J => { jobs with caching := false }) h.jobs
  dependents := congrArg (fun d : Dependents => { d with caching := false }) h.dependents
  alone := h.alone

variable [Job J]

/-- No move fails, and a scheduler stands after it. -/
theorem play (h : Standing parse options live) (move : Move J) :
    ∃ trace live', move.play parse live = .ok trace live' ∧
      Standing parse (Move.setting options move) live' := by
  cases move with
  | ask verb =>
    have hfinal := standing_verb verb live h
    rw [Move.play, Runs.bind_apply, Verb.attempt]
    cases hrun : verb.run live <;> rw [hrun] at hfinal <;> exact ⟨_, _, rfl, hfinal⟩
  | grant left =>
    exact ⟨_, _, rfl, h.held.withWrites left, h.jobs, h.dependents, h.alone⟩
  | disableCaching => exact ⟨_, _, rfl, h.disableCaching⟩
  | reopen options metrics =>
    obtain ⟨scheduler, hload⟩ : ∃ scheduler : Scheduler J,
        load parse options metrics live.store = .ok scheduler live.store :=
      load_of_agrees h.held.pending h.held.runnable h.held.missing options metrics
    refine ⟨[], ⟨scheduler, live.store⟩, ?_, standing_of_load h.alone hload⟩
    rw [Move.play, Runs.bind_of_ok (restart_run hload)]
    rfl

/-- No session fails, and a scheduler stands after it. -/
theorem playAll (h : Standing parse options live) (moves : List (Move J)) :
    ∃ trace live', Move.playAll parse moves live = .ok trace live' ∧
      Standing parse (moves.foldl Move.setting options) live' := by
  induction moves generalizing live options with
  | nil => exact ⟨[], live, rfl, h⟩
  | cons move rest ih =>
    obtain ⟨first, mid, hfirst, hmid⟩ := h.play move
    obtain ⟨others, live', hothers, hlive'⟩ := ih hmid
    refine ⟨first ++ others, live', ?_, hlive'⟩
    rw [Move.playAll, Runs.bind_of_ok hfirst, Runs.bind_of_ok hothers]
    rfl

end Standing

end WorkQueue.Scheduler
