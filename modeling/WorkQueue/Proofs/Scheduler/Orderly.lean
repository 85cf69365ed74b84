import WorkQueue.Proofs.Scheduler.Sessions

/-!
# Queues of ids and stores of jobs

`Orderly` is a placed scheduler whose queue consists of ids, and whose stored jobs read back as the
jobs they are stored for. Every verb keeps it (`preserves_orderly_verb`), and so does a session
(`Orderly.playAll`), whatever writes are refused. Neither hashes nor sequence numbers matter, as the
entries of the queue need only be `OrderedSet.Aligned`.
-/

namespace WorkQueue.Scheduler

open OrderedSet (Aligned indexed)

open Runs (Preserves)

variable {J α : Type} [Job J] {parse : Parser J} {live live' : Live (Scheduler J)}

/-- Every key in the queue is an id, and the bytes under each id are those of a job with this id. -/
structure Orderly (parse : Parser J) (live : Live (Scheduler J)) : Prop where
  placed : Placed parse live
  aligned : Aligned runnableSpace live.store.table
  queued : ∀ key, indexed runnableSpace live.store.table key = true → ∃ id : JobId, key = id.bytes
  stored : ∀ (id : JobId) bytes, jobsSpace.view live.store.table id.bytes = some bytes →
    ∃ job, parse bytes = .ok job ∧ Job.id job = id

namespace Orderly

/-! ## Changes -/

theorem of_view (h : Orderly parse live) (hplaced : Placed parse live')
    (hqueue : runnableSpace.view live'.store.table = runnableSpace.view live.store.table)
    (hjobs : jobsSpace.view live'.store.table = jobsSpace.view live.store.table) :
    Orderly parse live' := by
  refine ⟨hplaced, h.aligned.of_view hqueue, fun key hkey => h.queued key ?_, ?_⟩
  · rwa [indexed, hqueue] at hkey
  · rw [hjobs]
    exact h.stored

/-- Other memory beside the same entries. -/
theorem of_table (h : Orderly parse live) (hplaced : Placed parse live')
    (ht : live'.store.table = live.store.table) : Orderly parse live' :=
  h.of_view hplaced (by rw [ht]) (by rw [ht])

/-- A change in a part that is neither the stored jobs nor the queue. -/
theorem elsewhere (h : Orderly parse live) (hplaced : Placed parse live') {part : Part}
    (honly : OnlyIn part live.store.table live'.store.table)
    (hjobs : part.rank ≠ Part.jobs.rank) (hqueue : part.rank ≠ Part.runnable.rank) :
    Orderly parse live' :=
  h.of_view hplaced (honly.view .runnable hqueue) (honly.view .jobs hjobs)

/-- A change in the queue. -/
theorem with_queue (h : Orderly parse live) (hplaced : Placed parse live')
    (honly : OnlyIn .runnable live.store.table live'.store.table)
    (haligned : Aligned runnableSpace live'.store.table)
    (hqueued : ∀ key, indexed runnableSpace live'.store.table key = true →
      ∃ id : JobId, key = id.bytes) : Orderly parse live' := by
  refine ⟨hplaced, haligned, hqueued, ?_⟩
  have hjobs : jobsSpace.view live'.store.table = jobsSpace.view live.store.table :=
    honly.view .jobs (by decide)
  rw [hjobs]
  exact h.stored

/-- A change in the stored jobs and their number. -/
theorem with_jobs (h : Orderly parse live) (hplaced : Placed parse live') {op : Operation}
    {ops : Batch} {key : Bytes} (hop : op.key = jobsSpace.key key) (hops : pendingSpace.Holds ops)
    (ht : live'.store.table = Batch.apply (op :: ops) live.store.table)
    (hstored : ∀ (id : JobId) bytes, jobsSpace.view live'.store.table id.bytes = some bytes →
      ∃ job, parse bytes = .ok job ∧ Job.id job = id) : Orderly parse live' := by
  have hw : Part.Within [] [.jobs, .pending] (op :: ops) := within_jobs_pending hop hops
  have hqueue : runnableSpace.view live'.store.table = runnableSpace.view live.store.table := by
    rw [ht]
    exact Part.view_apply hashed_nil hw .runnable trivial (by simp) _
  refine ⟨hplaced, h.aligned.of_view hqueue, fun key hkey => h.queued key ?_, hstored⟩
  rwa [indexed, hqueue] at hkey

end Orderly

/-! ## Steps -/

/-- Looking a job up may change what is cached, and nothing else. -/
theorem Orderly.getJob (h : Orderly parse live) (id : JobId) :
    ∃ jobs, getJob id live = (MonadExcept.ofExcept (storedJob parse live.store.table id) :
        LiveM (Scheduler J) J) ⟨{ live.memory with jobs }, live.store⟩ ∧
      Orderly parse ⟨{ live.memory with jobs }, live.store⟩ := by
  obtain ⟨found, hget, hstore, hplaced⟩ := h.placed.getJob id
  have hfinal : Runs.final (Scheduler.getJob id live) = found := by
    rw [hget]
    cases storedJob parse live.store.table id <;> rfl
  rw [Scheduler.getJob, onJobs, final_onPart] at hfinal
  subst hfinal
  simp only at hstore
  rw [hstore] at hget hplaced
  exact ⟨_, hget, h.of_table hplaced rfl⟩

theorem preserves_orderly_getJob (id : JobId) : Preserves (Orderly parse) (getJob id) := by
  intro live h
  obtain ⟨jobs, hget, hfound⟩ := h.getJob id
  rw [hget]
  cases storedJob parse live.store.table id <;> exact hfound

theorem preserves_orderly_addRunnable (id : JobId) :
    Preserves (Orderly parse) (addRunnable id) := by
  intro live h
  have hplaced := preserves_addRunnable id live h.placed
  have hspace := OrderedSet.space_of_stored h.placed.runnable.order
  rw [addRunnable_run] at hplaced ⊢
  cases hput : live.memory.runnable.order.put id.bytes live.store with
  | error e t =>
    obtain rfl := (OrderedSet.steady_put id.bytes).error hput
    exact h
  | ok r t =>
    rw [hput] at hplaced
    obtain ⟨-, batch, hb, ht⟩ := (OrderedSet.steady_put id.bytes).inside hput
    have haligned := OrderedSet.Aligned.put (hspace.symm ▸ h.aligned) hput
    have hindexed := OrderedSet.indexed_put hput
    rw [hspace] at hb haligned hindexed
    refine h.with_queue hplaced ⟨batch, hb, ht⟩ haligned fun key hkey => ?_
    rcases (hindexed key).mp hkey with hkey | rfl
    · exact h.queued key hkey
    · exact ⟨id, rfl⟩

theorem preserves_orderly_pop :
    Preserves (Orderly parse) (onRunnable IdSet.pop : LiveM (Scheduler J) Bytes) := by
  intro live h
  rcases h.placed.pop with ⟨key, rest, b, t, -, hdelete, hpop, hplaced, honly⟩ | ⟨e, hpop⟩
  · have hspace := OrderedSet.space_of_stored h.placed.runnable.order
    have haligned := OrderedSet.Aligned.delete (hspace.symm ▸ h.aligned) hdelete
    have hindexed := OrderedSet.indexed_delete hdelete
    rw [hspace] at haligned hindexed
    rw [hpop]
    exact h.with_queue hplaced honly haligned fun key hkey =>
      h.queued key ((hindexed key).mp hkey).1
  · rw [hpop]
    exact h

theorem preserves_orderly_dropJob (id : JobId) (a : α) :
    Preserves (Orderly parse) (dropJob id a) := by
  intro live h
  have hplaced := preserves_dropJob id a live h.placed
  rw [dropJob_run] at hplaced ⊢
  by_cases hw : live.store.writesLeft = some 0
  · rw [if_pos hw]
    exact h
  · rw [if_neg hw] at hplaced ⊢
    have hspace := h.placed.jobs.space_eq
    have hops := (stageDecrement_agrees h.placed.pending).1
    refine h.with_jobs hplaced (key_stageDelete hspace id) hops (Store.table_after _ _) ?_
    intro other bytes hview
    rw [Runs.final_ok, Store.table_after, JobStore.stageDelete, hspace, view_jobs_delete hops]
      at hview
    split at hview
    · cases hview
    · exact h.stored other bytes hview

theorem preserves_orderly_removeRunnable :
    Preserves (Orderly parse) (removeRunnable : LiveM (Scheduler J) J) := by
  refine preserves_orderly_pop.bind fun key => (Preserves.ofExcept _).bind fun id => ?_
  refine (preserves_afterDequeue (preserves_orderly_getJob id) id).bind fun job => ?_
  exact preserves_orderly_dropJob id job

theorem preserves_orderly_putJob {job : J} (hjob : parse (Job.bytes job) = .ok job) :
    Preserves (Orderly parse) (putJob job) := by
  intro live h
  have hplaced := preserves_putJob hjob live h.placed
  rw [putJob_run] at hplaced ⊢
  by_cases hw : live.store.writesLeft = some 0
  · rw [if_pos hw]
    exact h
  · rw [if_neg hw] at hplaced ⊢
    have hspace := h.placed.jobs.space_eq
    have hops := (stageIncrement_agrees h.placed.pending).1
    refine h.with_jobs hplaced (key_stagePut hspace job) hops (Store.table_after _ _) ?_
    intro id bytes hview
    rw [Runs.final_ok, Store.table_after, JobStore.stagePut, hspace, view_jobs_put hops] at hview
    split at hview
    · rename_i hid
      cases hview
      exact ⟨job, hjob, (JobId.ext hid).symm⟩
    · exact h.stored id bytes hview

theorem preserves_orderly_onMissing {x : LiveM IdSet α}
    (hx : ∀ t, Preserves (InSet .missing t) x) : Preserves (Orderly parse) (onMissing x) := by
  intro live h
  have hplaced := preserves_onMissing hx live h.placed
  obtain ⟨-, honly⟩ := hx live.store.table ⟨live.memory.missing, live.store⟩
    ⟨h.placed.missing, .refl _ _⟩
  have honly' : OnlyIn .missing live.store.table
      (Runs.final (Scheduler.onMissing x live)).store.table := by
    rw [Scheduler.onMissing, final_onPart]
    exact honly
  exact h.elsewhere hplaced honly' (by decide) (by decide)

theorem preserves_orderly_onDependents {dependency : JobId} {x : LiveM Dependents α}
    (hx : ∀ t, Preserves (InBucket dependency t) x) :
    Preserves (Orderly parse) (onDependents x) := by
  intro live h
  obtain ⟨hplaced, honly⟩ := h.placed.onDependents hx
  exact h.elsewhere hplaced honly (by simp [Part.rank]) (by simp [Part.rank])

theorem preserves_orderly_clear :
    Preserves (Orderly parse) (clear : LiveM (Scheduler J) Unit) := by
  intro live h
  have hplaced := preserves_clear live h.placed
  rw [h.placed.inPlace.clear_run] at hplaced ⊢
  by_cases hw : live.store.writesLeft = some 0
  · rw [if_pos hw]
    exact h
  · rw [if_neg hw] at hplaced ⊢
    have hbare := bare_clearing live.store.table
    rw [← Store.table_after] at hbare
    have hnone : ∀ key, indexed runnableSpace
        (live.store.after (clearing live.store.table)).table key = false := by
      intro key
      rw [indexed, hbare.runnable]
      rfl
    refine ⟨hplaced, (OrderedSet.lists_empty hbare.runnable).aligned, fun key hkey => ?_, ?_⟩
    · exact absurd ((hnone key).symm.trans hkey) Bool.false_ne_true
    · intro id bytes hview
      exact absurd ((hbare.jobs id.bytes).symm.trans hview) (Option.some_ne_none bytes).symm

/-! ## Sessions -/

/-- Every verb keeps the queue one of ids, and the stored jobs those they are stored for. -/
theorem preserves_orderly_verb {verb : Verb J} (hf : verb.1.Faithful parse) :
    Preserves (Orderly parse) verb.run := by
  by_cases hreads : verb.Reads
  · exact Verb.preserves_of_reads hreads
  obtain ⟨command, hverb⟩ := verb
  refine Verb.preserves ?_
  cases command with
  | putJob job => exact preserves_onQueue ((preserves_orderly_putJob hf).bind fun _ => .pure _)
  | getJob id => exact preserves_onQueue ((preserves_orderly_getJob id).bind fun _ => .pure _)
  | addRunnable id =>
    exact preserves_onQueue ((preserves_orderly_addRunnable id).bind fun _ => .pure _)
  | removeRunnable =>
    exact preserves_onQueue (preserves_orderly_removeRunnable.bind fun _ => .pure _)
  | addDependency dependency dependent =>
    have hadd : Preserves (Orderly parse) (addDependency dependency dependent) :=
      preserves_orderly_onDependents fun t =>
        (inBucket_withBucket (OrderedSet.steady_put dependent.bytes) t).discard
    exact preserves_onQueue (hadd.bind fun _ => .pure _)
  | removeDependents dependency =>
    have htake : Preserves (Orderly parse) (removeDependents dependency) :=
      preserves_orderly_onDependents fun t =>
        inBucket_withBucket (OrderedSet.steady_takeAll JobId.ofBytes) t
    exact preserves_onQueue (htake.bind fun _ => .pure _)
  | addMissing ids =>
    have hadd : Preserves (Orderly parse) (addMissing ids) :=
      preserves_orderly_onMissing fun t => .forM (fun id => inSet_push .missing trivial id t) ids
    exact preserves_onQueue (hadd.bind fun _ => .pure _)
  | removeMissing ids =>
    have herase : Preserves (Orderly parse) (removeMissing ids) :=
      preserves_orderly_onMissing fun t => .forM (fun id => inSet_erase .missing trivial id t) ids
    exact preserves_onQueue (herase.bind fun _ => .pure _)
  | clear => exact preserves_onQueue (preserves_orderly_clear.bind fun _ => .pure _)
  | disableCaching => exact hverb.elim
  | execute runner limit => exact hverb.elim
  | _ => exact absurd trivial hreads

theorem Orderly.play (h : Orderly parse live) {move : Move J} (hf : move.Faithful parse)
    {xs : List (Exchange J)} (hplay : move.play parse live = .ok xs live') :
    Orderly parse live' := by
  cases move with
  | ask verb =>
    obtain ⟨x, mid, hattempt, hrest⟩ := Runs.bind_eq_ok.mp hplay
    cases hrest
    have hfinal := preserves_orderly_verb hf live h
    rw [← Verb.final_attempt, hattempt] at hfinal
    exact hfinal
  | grant left =>
    cases hplay
    exact h.of_table (h.placed.of_table rfl) rfl
  | disableCaching =>
    cases hplay
    exact h.of_table (preserves_disableCaching live h.placed) rfl
  | reopen options metrics =>
    obtain ⟨scheduler, hload⟩ : ∃ scheduler : Scheduler J,
        load parse options metrics live.store = .ok scheduler live.store :=
      load_of_agrees h.placed.pending h.placed.runnable h.placed.missing options metrics
    obtain ⟨_, mid, hrestart, hrest⟩ := Runs.bind_eq_ok.mp hplay
    cases hrest
    cases (restart_run hload).symm.trans hrestart
    have hcoherent : Coherent [] parse ⟨scheduler, live.store⟩ := coherent_of_load hload
    exact h.of_table hcoherent.placed rfl

theorem Orderly.playAll {moves : List (Move J)} (h : Orderly parse live)
    (hf : ∀ move ∈ moves, move.Faithful parse) {trace : List (Exchange J)}
    (hplay : Move.playAll parse moves live = .ok trace live') : Orderly parse live' := by
  induction moves generalizing live trace with
  | nil =>
    cases hplay
    exact h
  | cons move rest ih =>
    obtain ⟨hfirst, hrest⟩ := List.forall_mem_cons.mp hf
    obtain ⟨xs, mid, hmove, hplay⟩ := Runs.bind_eq_ok.mp hplay
    obtain ⟨ys, last, hothers, hend⟩ := Runs.bind_eq_ok.mp hplay
    cases hend
    exact ih (h.play hfirst hmove) hrest hothers

end WorkQueue.Scheduler
