import WorkQueue.Proofs.Scheduler.Held

/-!
# Which buckets are remembered is not seen

`Recalls` are the schedulers that have in memory what the store has, whatever jobs are stored. Every
move of a session keeps it, and does not see which buckets are remembered: with others it gives the
same reply and writes the same (`Blind`, `blind_verb`, `blind_playAll`).
-/

namespace WorkQueue.Scheduler

open Runs (final mapState Preserves)

variable {J α β : Type} {ids : List JobId}

/-- A scheduler has in memory what the store has, but for the contents of jobs. -/
structure Recalls (ids : List JobId) (live : Live (Scheduler J)) : Prop where
  held : Held live
  buckets : BucketsAgree ids live.memory.dependents live.store.table

/-- The scheduler with other remembered buckets. -/
def withDependents (d : Dependents) (live : Live (Scheduler J)) : Live (Scheduler J) :=
  { live with memory := { live.memory with dependents := d } }

/-- Buckets agree with a table that differs within a part of another kind. -/
theorem BucketsAgree.of_onlyIn {d : Dependents} {t t' : Table} (h : BucketsAgree ids d t)
    {part : Part} (hne : part.rank ≠ 4) (honly : OnlyIn part t t') : BucketsAgree ids d t' :=
  h.of_view fun id _ => honly.view (.bucket id) hne

theorem Coherent.recalls {parse : Parser J} {live : Live (Scheduler J)}
    (h : Coherent ids parse live) : Recalls ids live := ⟨h.placed.held, h.dependents⟩

namespace Recalls

variable {live : Live (Scheduler J)}

theorem withWrites (h : Recalls ids live) (left : Option Nat) :
    Recalls ids (live.withWrites left) := ⟨h.held.withWrites left, h.buckets⟩

end Recalls

/-! ## Blind actions -/

/-- An action that keeps what is remembered right, and with other remembered buckets gives and writes
the same. -/
def Blind (ids : List JobId) (x : LiveM (Scheduler J) α) : Prop :=
  ∀ live d, Recalls ids live → BucketsAgree ids d live.store.table →
    Recalls ids (final (x live)) ∧
    ∃ d', BucketsAgree ids d' (final (x live)).store.table ∧
      x (withDependents d live) = mapState (withDependents d') (x live)

namespace Blind

theorem pure (a : α) : Blind ids (pure a : LiveM (Scheduler J) α) :=
  fun _ d h hd => ⟨h, d, hd, rfl⟩

theorem ofExcept (r : Except Error α) :
    Blind ids (MonadExcept.ofExcept r : LiveM (Scheduler J) α) := by
  intro live d h hd
  cases r <;> exact ⟨h, d, hd, rfl⟩

theorem bind {x : LiveM (Scheduler J) α} {f : α → LiveM (Scheduler J) β} (hx : Blind ids x)
    (hf : ∀ a, Blind ids (f a)) : Blind ids (x >>= f) := by
  intro live d h hd
  obtain ⟨hmid, d', hd', hrun⟩ := hx live d h hd
  rw [Runs.bind_apply, Runs.bind_apply, hrun]
  cases hlive : x live with
  | ok a mid =>
    rw [hlive] at hmid hd'
    exact hf a mid d' hmid hd'
  | error e mid =>
    rw [hlive] at hmid hd'
    exact ⟨hmid, d', hd', rfl⟩

theorem afterDequeue {x : LiveM (Scheduler J) α} (hx : Blind ids x) (id : JobId) :
    Blind ids (afterDequeue id x) := by
  intro live d h hd
  obtain ⟨hmid, d', hd', hrun⟩ := hx live d h hd
  cases hlive : x live with
  | ok a mid =>
    rw [hlive] at hmid hd' hrun
    rw [afterDequeue_ok hlive, afterDequeue_ok hrun]
    exact ⟨hmid, d', hd', rfl⟩
  | error e mid =>
    rw [hlive] at hmid hd' hrun
    rw [afterDequeue_error hlive, afterDequeue_error hrun]
    exact ⟨hmid, d', hd', rfl⟩

/-- An action that leaves all as it is and does not look at the buckets. -/
theorem of_final {x : LiveM (Scheduler J) α} (hfinal : ∀ live, final (x live) = live)
    (hsame : ∀ live d, x (withDependents d live) = mapState (withDependents d) (x live)) :
    Blind ids x := by
  intro live d h hd
  rw [hfinal]
  exact ⟨h, d, hd, hsame live d⟩

end Blind

/-! ## Verbs -/

theorem blind_hasJob (id : JobId) : Blind ids (hasJob (J := J) id) := by
  have hrun : ∀ live : Live (Scheduler J),
      hasJob id live = LiveM.onStore (live.memory.jobs.has id) live := fun _ => rfl
  refine .of_final (final_hasJob id) fun live d => ?_
  rw [hrun, hrun]
  simp only [LiveM.onStore, withDependents]
  cases live.memory.jobs.has id live.store <;> rfl

/-- The ids of either set are listed. -/
theorem blind_ids {set : Scheduler J → IdSet}
    (h : ∀ (s : Scheduler J) d, set { s with dependents := d } = set s) :
    Blind ids (do LiveM.onStore (set (← LiveM.memory)).ids) := by
  have hrun : ∀ live : Live (Scheduler J),
      (do LiveM.onStore (set (← LiveM.memory)).ids : LiveM (Scheduler J) (List JobId)) live =
        LiveM.onStore (set live.memory).ids live := fun _ => rfl
  refine .of_final (fun live => ?_) fun live d => ?_
  · rw [hrun, final_onStore, final_ids]
  · rw [hrun, hrun, LiveM.onStore, LiveM.onStore, withDependents, h]
    cases (set live.memory).ids live.store <;> rfl

theorem blind_getJob (id : JobId) : Blind ids (getJob (J := J) id) := by
  intro live d h hd
  obtain ⟨jobs, hjobs, hfound⟩ := h.held.jobs.get id
  have hafter : Recalls ids ⟨{ live.memory with jobs }, live.store⟩ :=
    ⟨⟨hjobs, h.held.dependents, h.held.runnable, h.held.missing, h.held.pending⟩, h.buckets⟩
  simp only [getJob, onJobs, LiveM.onPart, withDependents]
  rcases hfound with ⟨job, hok, -⟩ | ⟨e, herr⟩
  · rw [hok]
    exact ⟨hafter, d, hd, rfl⟩
  · rw [herr]
    exact ⟨hafter, d, hd, rfl⟩

theorem blind_onRunnable {x : LiveM IdSet α} (h : ∀ t, Preserves (InSet .runnable t) x) :
    Blind ids (onRunnable x : LiveM (Scheduler J) α) := by
  intro live d hlive hd
  obtain ⟨-, honly⟩ := h live.store.table ⟨live.memory.runnable, live.store⟩
    ⟨hlive.held.runnable, .refl _ _⟩
  have hheld := (still_onRunnable h live hlive.held.still).held
  refine ⟨⟨hheld, ?_⟩, d, ?_, ?_⟩
  · rw [onRunnable, final_onPart]
    exact hlive.buckets.of_onlyIn (by decide) honly
  · rw [onRunnable, final_onPart]
    exact hd.of_onlyIn (by decide) honly
  · simp only [onRunnable, LiveM.onPart, withDependents]
    cases x ⟨live.memory.runnable, live.store⟩ <;> rfl

theorem blind_onMissing {x : LiveM IdSet α} (h : ∀ t, Preserves (InSet .missing t) x) :
    Blind ids (onMissing x : LiveM (Scheduler J) α) := by
  intro live d hlive hd
  obtain ⟨-, honly⟩ := h live.store.table ⟨live.memory.missing, live.store⟩
    ⟨hlive.held.missing, .refl _ _⟩
  have hheld := (still_onMissing h live hlive.held.still).held
  refine ⟨⟨hheld, ?_⟩, d, ?_, ?_⟩
  · rw [onMissing, final_onPart]
    exact hlive.buckets.of_onlyIn (by decide) honly
  · rw [onMissing, final_onPart]
    exact hd.of_onlyIn (by decide) honly
  · simp only [onMissing, LiveM.onPart, withDependents]
    cases x ⟨live.memory.missing, live.store⟩ <;> rfl

/-- What is done to a bucket is what would be done to it in the store. -/
theorem blind_onDependents {dependency : JobId} {x : LiveM Dependents α} {y : StoreM α}
    (hlocal : Local ids (.bucket dependency) (BucketsAgree ids) x y)
    (hbucket : ∀ t, Preserves (InBucket dependency t) x) :
    Blind ids (onDependents x : LiveM (Scheduler J) α) := by
  intro live d hlive hd
  have hheld := (still_onDependents hbucket live hlive.held.still).held
  obtain ⟨hr, hagree, -⟩ := hlocal ⟨live.memory.dependents, live.store⟩ hlive.buckets
  obtain ⟨hr', hagree', -⟩ := hlocal ⟨d, live.store⟩ hd
  rw [onDependents, final_onPart] at hheld ⊢
  refine ⟨⟨hheld, hagree⟩, (final (x ⟨d, live.store⟩)).memory, ?_, ?_⟩
  · have hstore := congrArg final (hr.trans hr'.symm)
    rw [Runs.final_mapState, Runs.final_mapState] at hstore
    rw [hstore]
    exact hagree'
  · rw [← hr] at hr'
    simp only [LiveM.onPart, withDependents]
    cases hx : x ⟨live.memory.dependents, live.store⟩ <;> cases hx' : x ⟨d, live.store⟩ <;>
      rw [hx, hx'] at hr'
    · obtain ⟨rfl, hstore⟩ := EStateM.Result.ok.inj hr'
      simp only [Runs.mapState, Runs.final_ok, hstore]
      rfl
    · cases hr'
    · cases hr'
    · obtain ⟨rfl, hstore⟩ := EStateM.Result.error.inj hr'
      simp only [Runs.mapState, Runs.final_error, hstore]
      rfl

/-- A stored job and the number of jobs are written beside the buckets. -/
theorem BucketsAgree.with_jobs (hids : Hashed ids) {d : Dependents} {s : Store}
    (h : BucketsAgree ids d s.table) {op : Operation} {ops : Batch} {key : Bytes}
    (hop : op.key = jobsSpace.key key) (hops : pendingSpace.Holds ops) :
    BucketsAgree ids d (s.after (op :: ops)).table := by
  rw [Store.table_after]
  exact h.of_view fun id hid =>
    Part.view_apply hids (within_jobs_pending hop hops) (.bucket id) hid (by simp) _

theorem blind_dropJob (hids : Hashed ids) (id : JobId) (a : α) :
    Blind ids (dropJob id a : LiveM (Scheduler J) α) := by
  intro live d h hd
  have hheld := h.held.dropJob id a
  rw [dropJob_run] at hheld ⊢
  rw [dropJob_run]
  by_cases hw : live.store.writesLeft = some 0
  · rw [if_pos hw]
    exact ⟨h, d, hd, if_pos hw⟩
  · rw [if_neg hw] at hheld ⊢
    have hop := key_stageDelete h.held.jobs.space_eq id
    have hops := (stageDecrement_agrees h.held.pending).1
    obtain ⟨e, herr⟩ | ⟨live', hok, hheld', -⟩ := hheld
    · cases herr
    · cases hok
      exact ⟨⟨hheld', h.buckets.with_jobs hids hop hops⟩, d, hd.with_jobs hids hop hops, if_neg hw⟩

theorem blind_removeRunnable (hids : Hashed ids) :
    Blind ids (removeRunnable : LiveM (Scheduler J) J) := by
  rw [removeRunnable_eq]
  refine (blind_onRunnable inSet_pop).bind fun key => (Blind.ofExcept _).bind fun id => ?_
  exact ((blind_getJob id).afterDequeue id).bind fun job => blind_dropJob hids id job

/-- Where nothing is remembered, all is as the store has it. -/
theorem BucketsAgree.flush {d : Dependents} (hd : d.space = dependentsSpace) (t : Table) :
    BucketsAgree ids d.flush t :=
  ⟨hd, fun _ k bucket hf =>
    absurd (hf.symm.trans (Cache.find?_flush _ k)) (Option.some_ne_none bucket)⟩

theorem blind_clear : Blind ids (clear : LiveM (Scheduler J) Unit) := by
  intro live d h hd
  have hplace := h.held.inPlace
  have hplace' : InPlace (withDependents d live).memory :=
    ⟨hplace.jobs, hd.space_eq, hplace.runnable, hplace.missing, hplace.pending⟩
  have hheld := h.held.clear
  rw [hplace.clear_run] at hheld ⊢
  rw [hplace'.clear_run]
  by_cases hw : live.store.writesLeft = some 0
  · rw [if_pos hw]
    exact ⟨h, d, hd, if_pos hw⟩
  · rw [if_neg hw] at hheld ⊢
    obtain ⟨e, herr⟩ | ⟨live', hok, hheld', -⟩ := hheld
    · cases herr
    · cases hok
      exact ⟨⟨hheld', .flush hplace.dependents _⟩, d.flush, .flush hd.space_eq _, if_neg hw⟩

theorem blind_disableCaching : Blind ids (disableCaching : LiveM (Scheduler J) Unit) :=
  fun _ d h hd => ⟨⟨⟨⟨h.held.jobs.space_eq, nofun⟩, ⟨h.held.dependents.space_eq, nofun⟩,
    h.held.runnable, h.held.missing, h.held.pending⟩, h.buckets.space_eq, nofun⟩,
    d.disableCaching, ⟨hd.space_eq, nofun⟩, rfl⟩

/-! ## Sessions -/

section Sessions

variable [Job J]

theorem blind_putJob (hids : Hashed ids) (job : J) : Blind ids (putJob job) := by
  intro live d h hd
  have hheld := h.held.putJob job
  rw [putJob_run] at hheld ⊢
  rw [putJob_run]
  by_cases hw : live.store.writesLeft = some 0
  · rw [if_pos hw]
    exact ⟨h, d, hd, if_pos hw⟩
  · rw [if_neg hw] at hheld ⊢
    have hop := key_stagePut h.held.jobs.space_eq job
    have hops := (stageIncrement_agrees h.held.pending).1
    obtain ⟨e, herr⟩ | ⟨live', hok, hheld', -⟩ := hheld
    · cases herr
    · cases hok
      exact ⟨⟨hheld', h.buckets.with_jobs hids hop hops⟩, d, hd.with_jobs hids hop hops, if_neg hw⟩

/-- A verb that gives what a blind action gives, dressed as a reply. -/
theorem Blind.verb {x : LiveM (Scheduler J) α} (h : Blind ids x) (f : α → Reply J)
    {verb : Verb J} (hverb : verb.1.perform = DrainM.onQueue do return f (← x)) :
    Blind ids verb.run := by
  rw [Verb.run_eq hverb]
  exact h.bind fun _ => .pure _

theorem blind_verb (hids : Hashed ids) {verb : Verb J} (hb : verb.1.buckets ⊆ ids) :
    Blind ids verb.run := by
  obtain ⟨command, hverb⟩ := verb
  cases command with
  | putJob job => exact (blind_putJob hids job).verb (fun _ => .done) rfl
  | hasJob id => exact (blind_hasJob id).verb .flag rfl
  | getJob id => exact (blind_getJob id).verb .job rfl
  | addRunnable id =>
    have hadd : Blind ids (addRunnable (J := J) id) :=
      blind_onRunnable fun t => inSet_push .runnable trivial id t
    exact hadd.verb (fun _ => .done) rfl
  | hasRunnable =>
    have hread : Blind ids (hasRunnable (J := J)) := .of_final (fun _ => rfl) fun _ _ => rfl
    exact hread.verb .flag rfl
  | runnableIds => exact (blind_ids fun _ _ => rfl).verb .ids rfl
  | removeRunnable => exact (blind_removeRunnable hids).verb .job rfl
  | addDependency dependency dependent =>
    have hid : dependency ∈ ids := hb (List.mem_singleton_self _)
    have hsteady := OrderedSet.steady_put dependent.bytes
    have hadd : Blind ids (addDependency (J := J) dependency dependent) :=
      blind_onDependents (local_withBucket hids hid hsteady).discard
        fun t => (inBucket_withBucket hsteady t).discard
    exact hadd.verb (fun _ => .done) rfl
  | removeDependents dependency =>
    have hid : dependency ∈ ids := hb (List.mem_singleton_self _)
    have hsteady := OrderedSet.steady_takeAll JobId.ofBytes
    have htake : Blind ids (removeDependents (J := J) dependency) :=
      blind_onDependents (local_withBucket hids hid hsteady) (inBucket_withBucket hsteady)
    exact htake.verb .ids rfl
  | addMissing missing =>
    have hadd : Blind ids (addMissing (J := J) missing) :=
      blind_onMissing fun t => .forM (fun id => inSet_push .missing trivial id t) missing
    exact hadd.verb (fun _ => .done) rfl
  | removeMissing missing =>
    have herase : Blind ids (removeMissing (J := J) missing) :=
      blind_onMissing fun t => .forM (fun id => inSet_erase .missing trivial id t) missing
    exact herase.verb (fun _ => .done) rfl
  | missingIds => exact (blind_ids fun _ _ => rfl).verb .ids rfl
  | missingCount =>
    have hread : Blind ids (missingCount (J := J)) := .of_final (fun _ => rfl) fun _ _ => rfl
    exact hread.verb .count rfl
  | pendingCount =>
    have hread : Blind ids (pendingCount (J := J)) := .of_final (fun _ => rfl) fun _ _ => rfl
    exact hread.verb (fun count => .count count.toNat) rfl
  | clear => exact blind_clear.verb (fun _ => .done) rfl
  | disableCaching => exact hverb.elim
  | execute runner limit => exact hverb.elim

theorem Blind.attempt {verb : Verb J} (h : Blind ids verb.run) : Blind ids verb.attempt := by
  intro live d hlive hd
  obtain ⟨hmid, d', hd', hrun⟩ := h live d hlive hd
  rw [Verb.attempt, Verb.attempt, hrun]
  cases hlive' : verb.run live <;> rw [hlive'] at hmid hd' <;> exact ⟨hmid, d', hd', rfl⟩

variable {parse : Parser J}

omit [Job J] in
/-- A scheduler that is opened on the store remembers no buckets. -/
theorem blind_restart (options : Options) (metrics : Option (CacheMetrics × CacheMetrics)) :
    Blind ids (restart parse options metrics) := by
  intro live d h hd
  obtain ⟨scheduler, hload⟩ : ∃ scheduler : Scheduler J,
      load parse options metrics live.store = .ok scheduler live.store :=
    load_of_agrees h.held.pending h.held.runnable h.held.missing options metrics
  have hcoherent : Coherent ids parse ⟨scheduler, live.store⟩ := coherent_of_load hload
  have hload' : load parse options metrics (withDependents d live).store =
      .ok scheduler live.store := hload
  rw [restart_run hload, restart_run hload']
  exact ⟨hcoherent.recalls, scheduler.dependents, hcoherent.dependents, rfl⟩

theorem blind_play (hids : Hashed ids) {move : Move J} (hb : move.buckets ⊆ ids) :
    Blind ids (move.play parse) := by
  cases move with
  | ask verb => exact (blind_verb hids hb).attempt.bind fun _ => .pure _
  | grant left => exact fun live d h hd => ⟨h.withWrites left, d, hd, rfl⟩
  | disableCaching => exact blind_disableCaching.bind fun _ => .pure _
  | reopen options metrics => exact (blind_restart options metrics).bind fun _ => .pure _

theorem blind_playAll (hids : Hashed ids) {moves : List (Move J)}
    (hb : moves.flatMap Move.buckets ⊆ ids) : Blind ids (Move.playAll parse moves) := by
  induction moves with
  | nil => exact .pure _
  | cons move rest ih =>
    rw [List.flatMap_cons, List.append_subset] at hb
    exact (blind_play hids hb.1).bind fun trace => (ih hb.2).bind fun others => .pure _

end Sessions

end WorkQueue.Scheduler
