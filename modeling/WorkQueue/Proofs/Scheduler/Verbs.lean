import WorkQueue.Proofs.Scheduler.Coherent
import WorkQueue.Proofs.Scheduler.Remembered

/-!
# What a scheduler remembers is not seen

Each verb of a scheduler, with its caches in use or not, gives the reply of the plain verb, leaves
the store as that does, and keeps what is in memory coherent: the lemmas `mirrors_*`. Opening a
scheduler gives coherent memory (`coherent_of_load`), and opening one again on the store of another
that is coherent changes nothing there (`load_of_coherent`).

Nothing is supposed of what the store holds.
-/

namespace WorkQueue.Scheduler

variable {J α : Type} {ids : List JobId} {parse : Parser J}

/-! ## Stored jobs -/

theorem get?_pending {counter : Counter} {s : Store} (h : CountAgrees counter s.table) :
    Plain.counter s = .ok counter s := by
  obtain ⟨space, count⟩ := counter
  obtain ⟨rfl, hcount⟩ := h
  rw [Plain.counter, Runs.bind_apply, Namespace.get_run, hcount]
  simp only [Counter.readCount, BigEndian.decodeWord?_encodeWord]
  rfl

/-- A job is found in the cache only if it is stored. -/
theorem JobsAgree.has {jobs : JobStore J} {s : Store} (h : JobsAgree parse jobs s.table)
    (id : JobId) : jobs.has id s = Plain.hasJob id s := by
  rw [JobStore.has, Plain.hasJob, Namespace.has_run]
  split
  · rename_i hcached
    obtain ⟨hcaching, hcontains⟩ := Bool.and_eq_true_iff.mp hcached
    obtain ⟨job, hjob⟩ := Cache.contains_iff.mp hcontains
    obtain ⟨bytes, hbytes, -⟩ := h.cached hcaching id job hjob
    rw [hbytes]
    rfl
  · rw [h.space_eq, Namespace.has_run]

theorem mirrors_hasJob (id : JobId) : Mirrors ids parse (hasJob id) (Plain.hasJob id) := by
  intro live hc
  simp only [hasJob, Runs.bind_apply, LiveM.memory, LiveM.onStore, hc.jobs.has]
  exact ⟨rfl, hc⟩

theorem local_fetch (id : JobId) :
    Local ids .jobs (JobsAgree parse) (JobStore.fetch id) (Plain.getJob parse id) := by
  intro live hc
  simp only [JobStore.fetch, LiveM.renew, Runs.bind_apply, Plain.getJob, hc.space_eq,
    hc.parse_eq, Namespace.get_run]
  cases hv : jobsSpace.view live.store.table id.bytes with
  | none => exact ⟨rfl, hc, [], Part.within_nil _, rfl⟩
  | some bytes =>
    simp only
    cases hp : parse bytes with
    | error e => exact ⟨rfl, hc, [], Part.within_nil _, rfl⟩
    | ok job =>
      simp only [Runs.ofExcept_ok, Runs.pure_apply]
      split
      · rename_i hcaching
        refine ⟨rfl, ⟨rfl, rfl, fun _ id' job' hf => ?_⟩, [], Part.within_nil _, rfl⟩
        rcases Cache.find?_put hf with ⟨rfl, rfl⟩ | ⟨-, hf⟩
        · exact ⟨bytes, hv, hp⟩
        · exact hc.cached hcaching id' job' hf
      · exact ⟨rfl, hc, [], Part.within_nil _, rfl⟩

theorem local_getJob (id : JobId) :
    Local ids .jobs (JobsAgree parse) (JobStore.get id) (Plain.getJob parse id) := by
  intro live hc
  simp only [JobStore.get, Runs.bind_apply, LiveM.memory]
  split
  · -- A cached job is the one that would be read.
    rename_i hcaching
    have hc' : JobsAgree parse { live.memory with cache := (live.memory.cache.get id).2 }
        live.store.table :=
      ⟨hc.space_eq, hc.parse_eq, fun hcaching id' job hf =>
        hc.cached hcaching id' job ((Cache.find?_get live.memory.cache id id').symm.trans hf)⟩
    simp only [Runs.bind_apply, LiveM.update]
    cases hf : (live.memory.cache.get id).1 with
    | none => exact local_fetch id ⟨_, live.store⟩ hc'
    | some job =>
      rw [Cache.get_fst] at hf
      obtain ⟨bytes, hbytes, hparse⟩ := hc.cached hcaching id job hf
      refine ⟨?_, hc', [], Part.within_nil _, rfl⟩
      simp only [Plain.getJob, Runs.bind_apply, Namespace.get_run, hbytes, hparse]
      rfl
  · exact local_fetch id live hc

theorem mirrors_getJob (hids : Hashed ids) (id : JobId) :
    Mirrors ids parse (getJob id) (Plain.getJob parse id) :=
  mirrors_onJobs hids (local_getJob id)

/-! ## The number of pending jobs -/

theorem stageIncrement_agrees {counter : Counter} {t : Table} (h : CountAgrees counter t) :
    pendingSpace.Holds counter.stageIncrement.2 ∧
      CountAgrees { counter with count := counter.stageIncrement.1 }
        (Batch.apply counter.stageIncrement.2 t) := by
  obtain ⟨space, count⟩ := counter
  obtain ⟨rfl, hcount⟩ := h
  refine ⟨fun op hop => ?_, rfl, ?_⟩
  · rw [List.mem_singleton.mp hop]
    exact ⟨_, rfl⟩
  · simp only [Counter.stageIncrement, Counter.stage, Namespace.stagePut, Batch.apply_cons,
      Batch.apply_nil, Operation.apply, Namespace.view_put, if_true]

theorem holds_stageDecrement (counter : Counter) :
    counter.space.Holds counter.stageDecrement.2 := by
  rw [Counter.stageDecrement]
  split
  · exact OrderedSet.holds_nil _
  · intro op hop
    rw [List.mem_singleton.mp hop]
    exact ⟨Counter.key, rfl⟩

theorem stageDecrement_agrees {counter : Counter} {t : Table} (h : CountAgrees counter t) :
    pendingSpace.Holds counter.stageDecrement.2 ∧
      CountAgrees { counter with count := counter.stageDecrement.1 }
        (Batch.apply counter.stageDecrement.2 t) := by
  obtain ⟨space, count⟩ := counter
  obtain ⟨rfl, hcount⟩ := h
  refine ⟨holds_stageDecrement ⟨pendingSpace, count⟩, rfl, ?_⟩
  simp only [Counter.stageDecrement]
  split
  · rename_i h0
    rw [Batch.apply_nil, hcount, h0]
  · simp only [Counter.stage, Namespace.stagePut, Batch.apply_cons, Batch.apply_nil,
      Operation.apply, Namespace.view_put, if_true]

/-- Changing one stored job and their number leaves all other parts. -/
theorem within_jobs_pending {op : Operation} {ops : Batch} {key : Bytes}
    (hop : op.key = jobsSpace.key key) (hops : pendingSpace.Holds ops) :
    Part.Within ids [.jobs, .pending] (op :: ops) := by
  intro op' h
  rcases List.mem_cons.mp h with rfl | h
  · exact ⟨.jobs, by simp, trivial, key, hop⟩
  · exact ⟨.pending, by simp, trivial, hops op' h⟩

theorem apart_jobs_pending : jobsSpace.Apart pendingSpace :=
  Part.apart_of_rank_ne (a := .jobs) (b := .pending) (by decide)

theorem view_pending_apply {op : Operation} {key : Bytes} (hop : op.key = jobsSpace.key key)
    (t : Table) : pendingSpace.view (op.apply t) = pendingSpace.view t := by
  have hops : jobsSpace.Holds [op] := by
    intro op' h
    rw [List.mem_singleton.mp h]
    exact ⟨key, hop⟩
  exact Namespace.view_apply apart_jobs_pending hops t

theorem view_jobs_put {ops : Batch} (hops : pendingSpace.Holds ops) (t : Table)
    (id value key : Bytes) :
    jobsSpace.view (Batch.apply (jobsSpace.stagePut id value :: ops) t) key =
      if key = id then some value else jobsSpace.view t key := by
  rw [Batch.apply_cons, Namespace.view_apply apart_jobs_pending.symm hops, Namespace.stagePut,
    Operation.apply, Namespace.view_put]

theorem view_jobs_delete {ops : Batch} (hops : pendingSpace.Holds ops) (t : Table)
    (id key : Bytes) :
    jobsSpace.view (Batch.apply (jobsSpace.stageDelete id :: ops) t) key =
      if key = id then none else jobsSpace.view t key := by
  rw [Batch.apply_cons, Namespace.view_apply apart_jobs_pending.symm hops, Namespace.stageDelete,
    Operation.apply, Namespace.view_erase]

/-- Putting a job into the store and into the cache. -/
theorem JobsAgree.put [Job J] {jobs : JobStore J} {t : Table} (h : JobsAgree parse jobs t) {job : J}
    (hjob : parse (Job.bytes job) = .ok job) {ops : Batch} (hops : pendingSpace.Holds ops) :
    JobsAgree parse (jobs.remember job) (Batch.apply (jobs.stagePut job :: ops) t) := by
  have hremember : (jobs.remember job).space = jobs.space ∧
      (jobs.remember job).parse = jobs.parse := by
    rw [JobStore.remember]
    split <;> exact ⟨rfl, rfl⟩
  refine ⟨hremember.1.trans h.space_eq, hremember.2.trans h.parse_eq, fun hcaching id j hf => ?_⟩
  have hc : jobs.caching = true := by
    rw [JobStore.remember] at hcaching
    split at hcaching <;> exact hcaching
  rw [JobStore.remember, if_pos hc] at hf
  rw [JobStore.stagePut, h.space_eq, view_jobs_put hops]
  rcases Cache.find?_put hf with ⟨rfl, rfl⟩ | ⟨hne, hf⟩
  · exact ⟨_, if_pos rfl, hjob⟩
  · have hb : id.bytes ≠ (Job.id job).bytes := fun he => hne (JobId.ext he)
    rw [if_neg hb]
    exact h.cached hc id j hf

/-- Taking a job out of the store and out of the cache. -/
theorem JobsAgree.delete {jobs : JobStore J} {t : Table} (h : JobsAgree parse jobs t) (id : JobId)
    {ops : Batch} (hops : pendingSpace.Holds ops) :
    JobsAgree parse (jobs.forget id) (Batch.apply (jobs.stageDelete id :: ops) t) := by
  refine ⟨h.space_eq, h.parse_eq, fun hcaching id' job hf => ?_⟩
  rw [JobStore.forget, Cache.find?_remove] at hf
  split at hf
  · cases hf
  · rename_i hne
    have hb : id'.bytes ≠ id.bytes := fun he => hne (JobId.ext he)
    rw [JobStore.stageDelete, h.space_eq, view_jobs_delete hops, if_neg hb]
    exact h.cached hcaching id' job hf

theorem key_stagePut [Job J] {jobs : JobStore J} (h : jobs.space = jobsSpace) (job : J) :
    (jobs.stagePut job).key = jobsSpace.key (Job.id job).bytes := by
  rw [JobStore.stagePut, h]
  rfl

theorem key_stageDelete {jobs : JobStore J} (h : jobs.space = jobsSpace) (id : JobId) :
    (jobs.stageDelete id).key = jobsSpace.key id.bytes := by
  rw [JobStore.stageDelete, h]
  rfl

theorem putJob_run [Job J] (job : J) (live : Live (Scheduler J)) :
    putJob job live =
      if live.store.writesLeft = some 0 then .error (.file .writeRefused) live
      else .ok ()
        ⟨{ live.memory with
          jobs := live.memory.jobs.remember job
          pending := { live.memory.pending with count := live.memory.pending.stageIncrement.1 } },
        live.store.after (live.memory.jobs.stagePut job ::
          live.memory.pending.stageIncrement.2)⟩ := by
  simp only [putJob, Runs.bind_apply, LiveM.memory, LiveM.onStore, LiveM.update, Store.write_eq]
  by_cases hwrite : live.store.writesLeft = some 0
  · rw [if_pos hwrite, if_pos hwrite]
  · rw [if_neg hwrite, if_neg hwrite]

theorem mirrors_putJob [Job J] (hids : Hashed ids) {job : J}
    (hjob : parse (Job.bytes job) = .ok job) :
    Mirrors ids parse (putJob job) (Plain.putJob job) := by
  intro live hc
  have hop := key_stagePut hc.jobs.space_eq job
  have hops := (stageIncrement_agrees hc.pending).1
  obtain ⟨-, hdep, hrun, hmiss, -⟩ := hc.frame hids (within_jobs_pending hop hops)
  have hplain : Plain.putJob job live.store =
      Store.write (live.memory.jobs.stagePut job :: live.memory.pending.stageIncrement.2)
        live.store := by
    rw [Plain.putJob, Runs.bind_of_ok (get?_pending hc.pending), JobStore.stagePut,
      hc.jobs.space_eq]
  rw [hplain, Store.write_eq, putJob_run]
  by_cases hwrite : live.store.writesLeft = some 0
  · rw [if_pos hwrite, if_pos hwrite]
    exact ⟨rfl, hc⟩
  · rw [if_neg hwrite, if_neg hwrite]
    refine ⟨rfl, ?_, ?_, ?_, ?_, ?_⟩ <;> simp only [Runs.final_ok, Store.table_after]
    · exact hc.jobs.put hjob hops
    · exact hdep (by simp)
    · exact hrun (by simp)
    · exact hmiss (by simp)
    · exact (stageIncrement_agrees (hc.pending.of_view (view_pending_apply hop _))).2

/-- The end of `removeRunnable`: a job that has left the queue is taken out of the stored jobs. -/
def dropJob (id : JobId) (a : α) : LiveM (Scheduler J) α := do
  let s ← LiveM.memory
  afterDequeue id
    (LiveM.onStore (Store.write (s.jobs.stageDelete id :: s.pending.stageDecrement.2)))
  LiveM.update fun s' => { s' with
    jobs := s'.jobs.forget id
    pending := { s'.pending with count := s.pending.stageDecrement.1 } }
  return a

/-- A dequeue is a pop, a look-up and the end of it. -/
theorem removeRunnable_eq : removeRunnable (J := J) = (do
    let key ← onRunnable IdSet.pop
    let id ← MonadExcept.ofExcept (JobId.ofBytes key)
    let job ← afterDequeue id (getJob id)
    dropJob id job) := rfl

theorem dropJob_run (id : JobId) (a : α) (live : Live (Scheduler J)) :
    dropJob id a live =
      if live.store.writesLeft = some 0 then .error (.dequeue id (.file .writeRefused)) live
      else .ok a
        ⟨{ live.memory with
          jobs := live.memory.jobs.forget id
          pending := { live.memory.pending with count := live.memory.pending.stageDecrement.1 } },
        live.store.after (live.memory.jobs.stageDelete id ::
          live.memory.pending.stageDecrement.2)⟩ := by
  rw [dropJob, Runs.bind_of_ok (show LiveM.memory live = .ok live.memory live from rfl)]
  by_cases hwrite : live.store.writesLeft = some 0
  · rw [if_pos hwrite]
    refine Runs.bind_of_error (afterDequeue_error (e := .file .writeRefused) ?_)
    rw [LiveM.onStore, Store.write_refused hwrite]
  · rw [if_neg hwrite]
    have hx : LiveM.onStore (Store.write (live.memory.jobs.stageDelete id ::
        live.memory.pending.stageDecrement.2)) live =
        .ok () ⟨live.memory, live.store.after (live.memory.jobs.stageDelete id ::
          live.memory.pending.stageDecrement.2)⟩ := by
      rw [LiveM.onStore, Store.write_ok hwrite]
    rw [Runs.bind_of_ok (afterDequeue_ok hx)]
    rfl

theorem mirrors_dropJob (hids : Hashed ids) (id : JobId) (a : α) :
    Mirrors ids parse (dropJob id a)
      (do Plain.afterDequeue id (Plain.dropJob id); return a) := by
  intro live hc
  have hop := key_stageDelete hc.jobs.space_eq id
  have hops := (stageDecrement_agrees hc.pending).1
  obtain ⟨-, hdep, hrun, hmiss, -⟩ := hc.frame hids (within_jobs_pending hop hops)
  have hplain : Plain.dropJob id live.store =
      Store.write (live.memory.jobs.stageDelete id :: live.memory.pending.stageDecrement.2)
        live.store := by
    rw [Plain.dropJob, Runs.bind_of_ok (get?_pending hc.pending), JobStore.stageDelete,
      hc.jobs.space_eq]
  rw [dropJob_run]
  by_cases hwrite : live.store.writesLeft = some 0
  · have hw := hplain.trans (Store.write_refused hwrite _)
    rw [if_pos hwrite, Runs.bind_of_error (Plain.afterDequeue_error hw)]
    exact ⟨rfl, hc⟩
  · have hw := hplain.trans (Store.write_ok hwrite _)
    rw [if_neg hwrite, Runs.bind_of_ok (Plain.afterDequeue_ok hw)]
    refine ⟨rfl, ?_, ?_, ?_, ?_, ?_⟩ <;> simp only [Runs.final_ok, Store.table_after]
    · exact hc.jobs.delete id hops
    · exact hdep (by simp)
    · exact hrun (by simp)
    · exact hmiss (by simp)
    · exact (stageDecrement_agrees (hc.pending.of_view (view_pending_apply hop _))).2

/-! ## Sets -/

theorem onSet_run {space : Namespace} {set : OrderedSet} {s : Store}
    (h : OrderedSet.stored space s.table = .ok set) (action : OrderedSet → StoreM (α × OrderedSet)) :
    Plain.onSet space action s = (do return (← action set).1) s := by
  have hload : OrderedSet.load space s = .ok set s := by
    rw [OrderedSet.load_run, h]
    rfl
  rw [Plain.onSet, Runs.bind_of_ok hload]

theorem local_push (part : Part) (hpart : part.Of ids) (id : JobId) :
    Local ids part (SetAgrees part.space) (IdSet.push id)
      (Plain.onSet part.space (·.put id.bytes)) := by
  intro live hc
  have hspace := OrderedSet.space_of_stored hc.order
  simp only [IdSet.push, LiveM.renew, Runs.bind_apply, onSet_run hc.order]
  cases hput : live.memory.order.put id.bytes live.store with
  | error e s =>
    obtain rfl := (OrderedSet.steady_put id.bytes).error hput
    exact ⟨rfl, hc, [], Part.within_nil _, rfl⟩
  | ok r s =>
    obtain ⟨added, set⟩ := r
    obtain ⟨hset, batch, hb, ht⟩ :=
      (OrderedSet.steady_put id.bytes).ok (hspace.symm ▸ hc.order) hput
    rw [hspace] at hset hb
    exact ⟨rfl, ⟨hc.space_eq, hset⟩, batch, Part.within_of_holds part hpart hb, ht⟩

theorem local_erase (part : Part) (hpart : part.Of ids) (id : JobId) :
    Local ids part (SetAgrees part.space) (IdSet.erase id)
      (Plain.onSet part.space fun set => do return (← set.delete id.bytes, set)) := by
  intro live hc
  have hspace := OrderedSet.space_of_stored hc.order
  simp only [IdSet.erase, LiveM.memory, LiveM.onStore, Runs.bind_apply, onSet_run hc.order]
  cases hdelete : live.memory.order.delete id.bytes live.store with
  | error e s =>
    obtain rfl := OrderedSet.delete_error hdelete
    exact ⟨rfl, hc, [], Part.within_nil _, rfl⟩
  | ok b s =>
    have hset := OrderedSet.stored_delete (hspace.symm ▸ hc.order) hdelete
    obtain ⟨batch, hb, ht⟩ := OrderedSet.delete_inside hdelete
    rw [hspace] at hset hb
    exact ⟨rfl, ⟨hc.space_eq, hset⟩, batch, Part.within_of_holds part hpart hb, ht⟩

theorem Local.discard {σ : Type} {part : Part} {Agree : σ → Table → Prop} {x : LiveM σ α}
    {y : StoreM α} (h : Local ids part Agree x y) :
    Local ids part Agree (discard x) (Functor.discard y) := by
  intro live hc
  obtain ⟨hr, ha, hw⟩ := h live hc
  have hx : Functor.discard x live = (x >>= fun _ => pure ()) live := rfl
  have hy : Functor.discard y live.store = (y >>= fun _ => pure ()) live.store := rfl
  show Runs.mapState Live.store (Functor.discard x live) = _ ∧ _
  rw [hx, hy, Runs.bind_apply, Runs.bind_apply, ← hr]
  cases hl : x live <;> rw [hl] at ha hw <;> exact ⟨rfl, ha, hw⟩

theorem Local.forM {β σ : Type} {part : Part} {Agree : σ → Table → Prop} {x : β → LiveM σ PUnit}
    {y : β → StoreM PUnit} (h : ∀ b, Local ids part Agree (x b) (y b)) (l : List β) :
    Local ids part Agree (l.forM x) (l.forM y) := by
  induction l with
  | nil => exact fun live hc => ⟨rfl, hc, [], Part.within_nil _, rfl⟩
  | cons b rest ih =>
    intro live hc
    obtain ⟨hr, ha, batch, hb, ht⟩ := h b live hc
    rw [Runs.forM_cons_apply, Runs.forM_cons_apply, ← hr]
    cases hl : x b live with
    | error e mid =>
      rw [hl] at ha ht
      exact ⟨rfl, ha, batch, hb, ht⟩
    | ok _ mid =>
      rw [hl] at ha ht
      obtain ⟨hr', ha', batch', hb', ht'⟩ := ih mid ha
      refine ⟨hr', ha', batch ++ batch', fun op hop => ?_, ?_⟩
      · exact (List.mem_append.mp hop).elim (hb op) (hb' op)
      · rw [Batch.apply_append, ← ht]
        exact ht'

theorem mirrors_addRunnable (hids : Hashed ids) (id : JobId) :
    Mirrors ids parse (addRunnable id) (Plain.addRunnable id) :=
  mirrors_onRunnable hids (local_push .runnable trivial id).discard

theorem mirrors_addMissing (hids : Hashed ids) (missing : List JobId) :
    Mirrors ids parse (addMissing missing) (Plain.addMissing missing) :=
  mirrors_onMissing hids (.forM (fun id => (local_push .missing trivial id).discard) missing)

theorem mirrors_removeMissing (hids : Hashed ids) (missing : List JobId) :
    Mirrors ids parse (removeMissing missing) (Plain.removeMissing missing) :=
  mirrors_onMissing hids (.forM (fun id => (local_erase .missing trivial id).discard) missing)

/-- Taking the oldest member out takes a key out. -/
theorem takeHead_ok {set set' : OrderedSet} {s t : Store} {head : Bytes}
    (h : Plain.takeHead set s = .ok (head, set') t) : ∃ b, set.delete head s = .ok b t := by
  rw [Plain.takeHead_run] at h
  cases hl : (OrderedSet.listed set.space s.table).map (·.2) with
  | nil => simp [hl] at h
  | cons first rest =>
    cases hdel : set.delete first s with
    | error e t' => simp [hl, hdel] at h
    | ok b t' =>
      simp only [hl, hdel] at h
      cases h
      exact ⟨b, hdel⟩

theorem steady_takeHead : OrderedSet.Steady Plain.takeHead where
  inside := by
    intro set set' s t a h
    obtain rfl := Plain.takeHead_snd h
    obtain ⟨b, hdel⟩ := takeHead_ok h
    exact ⟨rfl, OrderedSet.delete_inside hdel⟩
  stored := by
    intro set set' s t a hs h
    obtain rfl := Plain.takeHead_snd h
    obtain ⟨b, hdel⟩ := takeHead_ok h
    exact OrderedSet.stored_delete hs hdel
  error := by
    intro set s t e h
    rw [Plain.takeHead_run] at h
    cases hl : (OrderedSet.listed set.space s.table).map (·.2) with
    | nil =>
      simp only [hl] at h
      cases h
      rfl
    | cons head rest =>
      cases hdel : set.delete head s with
      | error e t' =>
        simp only [hl, hdel] at h
        cases h
        exact OrderedSet.delete_error hdel
      | ok b t' => simp [hl, hdel] at h

theorem pop_run (live : Live IdSet) :
    IdSet.pop live = match Plain.takeHead live.memory.order live.store with
      | .ok (head, _) t => .ok head ⟨live.memory, t⟩
      | .error e t => .error e ⟨live.memory, t⟩ := by
  simp only [IdSet.pop, Runs.bind_apply, LiveM.memory, LiveM.onStore, Plain.takeHead]
  cases live.memory.order.head live.store with
  | error e t => rfl
  | ok head t =>
    simp only
    cases Functor.discard (live.memory.order.delete head) t <;> rfl

theorem local_pop :
    Local ids .runnable (SetAgrees runnableSpace) IdSet.pop Plain.pop := by
  intro live hc
  have hspace := OrderedSet.space_of_stored hc.order
  rw [pop_run, Plain.pop, onSet_run hc.order, Runs.bind_apply]
  cases htake : Plain.takeHead live.memory.order live.store with
  | error e t =>
    obtain rfl := steady_takeHead.error htake
    exact ⟨rfl, hc, [], Part.within_nil _, rfl⟩
  | ok r t =>
    obtain ⟨head, set⟩ := r
    obtain ⟨hset, batch, hb, ht⟩ := steady_takeHead.ok (hspace.symm ▸ hc.order) htake
    have hsame := Plain.takeHead_snd htake
    rw [hspace] at hset hb
    exact ⟨rfl, ⟨hc.space_eq, hsame ▸ hset⟩, batch,
      Part.within_of_holds .runnable trivial hb, ht⟩

theorem mirrors_removeRunnable (hids : Hashed ids) :
    Mirrors ids parse removeRunnable (Plain.removeRunnable parse) := by
  refine Mirrors.bind (mirrors_onRunnable hids local_pop) fun key => ?_
  refine Mirrors.bind (.ofExcept _) fun id => ?_
  refine Mirrors.bind ((mirrors_getJob hids id).afterDequeue id) fun job => ?_
  exact mirrors_dropJob hids id job

theorem mirrors_hasRunnable : Mirrors ids parse hasRunnable Plain.hasRunnable := by
  intro live hc
  rw [Plain.hasRunnable, onSet_run hc.runnable.order]
  exact ⟨rfl, hc⟩

/-- The ids of either set are listed. -/
theorem mirrors_ids {set : Scheduler J → IdSet} {space : Namespace}
    (h : ∀ live, Coherent ids parse live → SetAgrees space (set live.memory) live.store.table) :
    Mirrors ids parse (do LiveM.onStore (set (← LiveM.memory)).ids)
      (Plain.onSet space Plain.listIds) := by
  intro live hc
  rw [onSet_run (h live hc).order]
  simp only [IdSet.ids, Plain.listIds, Runs.bind_apply, LiveM.memory, LiveM.onStore,
    OrderedSet.members_run, Runs.mapM_ofExcept]
  cases ((OrderedSet.listed (set live.memory).order.space live.store.table).map (·.2)).mapM
      JobId.ofBytes <;> exact ⟨rfl, hc⟩

theorem mirrors_runnableIds : Mirrors ids parse runnableIds Plain.runnableIds :=
  mirrors_ids fun _ hc => hc.runnable

theorem mirrors_missingIds : Mirrors ids parse missingIds Plain.missingIds :=
  mirrors_ids fun _ hc => hc.missing

theorem mirrors_missingCount : Mirrors ids parse missingCount Plain.missingCount := by
  intro live hc
  rw [Plain.missingCount, onSet_run hc.missing.order]
  exact ⟨rfl, hc⟩

/-! ## Buckets -/

/-- What is remembered after an action on a bucket agrees with the store if the bucket does. -/
theorem BucketsAgree.remembers (hids : Hashed ids) {d d' : Dependents} {t : Table}
    (h : BucketsAgree ids d t) {dependency : JobId} (hid : dependency ∈ ids) {batch : Batch}
    (hb : (bucketSpace dependency).Holds batch) {bucket : Option OrderedSet}
    (hd : d.Remembers d' dependency bucket)
    (hnew : ∀ b, bucket = some b →
      OrderedSet.stored (bucketSpace dependency) (batch.apply t) = .ok b) :
    BucketsAgree ids d' (batch.apply t) := by
  refine ⟨hd.space_eq.trans h.space_eq, fun hcaching k b hk => ?_⟩
  rw [hd.caching_eq] at hcaching
  rcases hd.found hcaching k b hk with ⟨rfl, he⟩ | ⟨hne, hk⟩
  · exact ⟨hid, hnew b he.symm⟩
  · obtain ⟨hkid, hstored⟩ := h.bucket hcaching k b hk
    have hview := Part.view_apply hids (Part.within_of_holds (.bucket dependency) hid hb)
      (.bucket k) hkid (by simpa using hne) t
    exact ⟨hkid, (OrderedSet.stored_of_view hview).trans hstored⟩

theorem local_withBucket (hids : Hashed ids) {dependency : JobId} (hid : dependency ∈ ids)
    {action : OrderedSet → StoreM (α × OrderedSet)} (hs : OrderedSet.Steady action) :
    Local ids (.bucket dependency) (BucketsAgree ids) (Dependents.withBucket dependency action)
      (Plain.onSet (bucketSpace dependency) action) := by
  intro live hc
  have hown := bucketSpace_of_eq hc.space_eq dependency
  have hused := Dependents.usedBucket_eq_stored (hown ▸ fun hcaching b hb =>
    (hc.bucket hcaching dependency b hb).2)
  have hacts := Dependents.withBucket_acts live.memory dependency action live.store
  rw [hown] at hused
  rw [Dependents.Acts, hused] at hacts
  cases hstored : OrderedSet.stored (bucketSpace dependency) live.store.table with
  | error e =>
    rw [hstored] at hacts
    obtain ⟨d', hx, hd⟩ := hacts
    rw [hx, Plain.onSet, Runs.bind_apply, OrderedSet.load_run, hstored]
    refine ⟨rfl, hc.remembers hids hid (OrderedSet.holds_nil _) hd fun b hb => ?_, [],
      Part.within_nil _, rfl⟩
    cases hb
  | ok bucket =>
    have hspace := OrderedSet.space_of_stored hstored
    simp only [hstored] at hacts
    rw [onSet_run hstored, Runs.bind_apply]
    cases haction : action bucket live.store with
    | error e t =>
      rw [haction] at hacts
      obtain rfl := hs.error haction
      obtain ⟨d', hx, hd⟩ := hacts
      rw [hx]
      refine ⟨rfl, hc.remembers hids hid (OrderedSet.holds_nil _) hd fun b hb => ?_, [],
        Part.within_nil _, rfl⟩
      cases hb
      exact hstored
    | ok r t =>
      rw [haction] at hacts
      obtain ⟨d', hx, hd⟩ := hacts
      obtain ⟨hset, batch, hb, ht⟩ := hs.ok (hspace.symm ▸ hstored) haction
      rw [hspace] at hset hb
      rw [hx]
      refine ⟨rfl, ?_, batch, Part.within_of_holds (.bucket dependency) hid hb, ht⟩
      show BucketsAgree ids d' t.table
      rw [ht] at hset ⊢
      refine hc.remembers hids hid hb hd fun b hb => ?_
      cases hb
      exact hset

theorem mirrors_addDependency (hids : Hashed ids) {dependency : JobId} (hid : dependency ∈ ids)
    (dependent : JobId) :
    Mirrors ids parse (addDependency dependency dependent)
      (Plain.addDependency dependency dependent) :=
  mirrors_onDependents hids (local_withBucket hids hid (OrderedSet.steady_put _)).discard

theorem mirrors_removeDependents (hids : Hashed ids) {dependency : JobId}
    (hid : dependency ∈ ids) :
    Mirrors ids parse (removeDependents dependency) (Plain.removeDependents dependency) :=
  mirrors_onDependents hids (local_withBucket hids hid (OrderedSet.steady_takeAll _))

theorem listIds_run (set : OrderedSet) (s : Store) :
    Plain.listIds set s =
      match ((OrderedSet.listed set.space s.table).map (·.2)).mapM JobId.ofBytes with
      | .ok ids => .ok (ids, set) s
      | .error e => .error e s := by
  simp only [Plain.listIds, Runs.bind_apply, OrderedSet.members_run, Runs.mapM_ofExcept]
  cases ((OrderedSet.listed set.space s.table).map (·.2)).mapM JobId.ofBytes <;> rfl

theorem steady_listIds : OrderedSet.Steady Plain.listIds where
  inside := by
    intro set set' s t ids h
    rw [listIds_run] at h
    split at h <;> cases h
    exact ⟨rfl, [], OrderedSet.holds_nil _, rfl⟩
  stored := by
    intro set set' s t ids hs h
    rw [listIds_run] at h
    split at h <;> cases h
    exact hs
  error := by
    intro set s t e h
    rw [listIds_run] at h
    split at h <;> cases h
    rfl

theorem mirrors_dependentsOf (hids : Hashed ids) {dependency : JobId} (hid : dependency ∈ ids) :
    Mirrors ids parse (onDependents (Dependents.of dependency)) (Plain.dependentsOf dependency) :=
  mirrors_onDependents hids (local_withBucket hids hid steady_listIds)

/-! ## Caching -/

/-- Doing without the caches leaves the store as it is. -/
theorem mirrors_disableCaching : Mirrors ids parse disableCaching (pure ()) := fun _ hc =>
  ⟨rfl, ⟨hc.jobs.space_eq, hc.jobs.parse_eq, nofun⟩, ⟨hc.dependents.space_eq, nofun⟩, hc.runnable,
    hc.missing, hc.pending⟩

theorem mirrors_pendingCount : Mirrors ids parse pendingCount Plain.pendingCount := by
  intro live hc
  rw [Plain.pendingCount, Runs.bind_of_ok (get?_pending hc.pending)]
  exact ⟨rfl, hc⟩

/-! ## Opening -/

theorem load_set {space : Namespace} {s t : Store} {set : IdSet} (h : IdSet.load space s = .ok set t) :
    t = s ∧ SetAgrees space set s.table := by
  obtain ⟨order, s', hload, h⟩ := Runs.bind_eq_ok.mp h
  cases h
  rw [OrderedSet.load_run] at hload
  cases hs : OrderedSet.stored space s.table with
  | error e =>
    rw [hs] at hload
    cases hload
  | ok order' =>
    rw [hs] at hload
    cases hload
    exact ⟨rfl, rfl, hs⟩

theorem readCount_eq_ok {value : Bytes} {count : UInt64} (h : Counter.readCount value = .ok count) :
    value = BigEndian.encodeWord count := by
  rw [Counter.readCount, BigEndian.decodeWord?] at h
  split at h
  · rename_i hw
    split at hw
    · rename_i hlen
      cases h
      cases hw
      have hlt : BigEndian.decode value < BigEndian.capacity 8 := hlen ▸ BigEndian.decode_lt value
      have hn : (UInt64.ofNat (BigEndian.decode value)).toNat = BigEndian.decode value :=
        UInt64.toNat_ofNat_of_lt hlt
      rw [BigEndian.encodeWord, hn, ← hlen, BigEndian.encode_decode]
    · cases hw
  · cases h

theorem load_count {jobs : JobStore J} {s t : Store} {counter : Counter}
    (h : Counter.load pendingSpace jobs s = .ok counter t) : CountAgrees counter t.table := by
  obtain ⟨found, s', hget, h⟩ := Runs.bind_eq_ok.mp h
  cases hget
  cases hv : pendingSpace.view s.table Counter.key with
  | some value =>
    change s.table.get? (pendingSpace.key Counter.key) = some value at hv
    simp only [hv] at h
    obtain ⟨count, s', hread, h⟩ := Runs.bind_eq_ok.mp h
    cases hr : Counter.readCount value with
    | error e =>
      rw [hr] at hread
      cases hread
    | ok count' =>
      rw [hr] at hread
      cases hread
      cases h
      exact ⟨rfl, by rw [Namespace.view, hv, readCount_eq_ok hr]⟩
  | none =>
    change s.table.get? (pendingSpace.key Counter.key) = none at hv
    simp only [hv] at h
    obtain ⟨count, s', hcount, h⟩ := Runs.bind_eq_ok.mp h
    obtain ⟨_, s'', hput, h⟩ := Runs.bind_eq_ok.mp h
    cases h
    rw [Namespace.put, Store.put, Store.write_eq] at hput
    split at hput
    · cases hput
    · cases hput
      refine ⟨rfl, ?_⟩
      rw [Store.table_after, Batch.apply_cons, Batch.apply_nil, Operation.apply,
        Namespace.view_put, if_pos rfl]

/-- Whatever a store holds, the scheduler that is opened on it has coherent memory. -/
theorem coherent_of_load {options : Options} {metrics : Option (CacheMetrics × CacheMetrics)}
    {s t : Store} {scheduler : Scheduler J} (h : load parse options metrics s = .ok scheduler t) :
    Coherent ids parse ⟨scheduler, t⟩ := by
  obtain ⟨pending, s₁, hpending, hrest⟩ := Runs.bind_eq_ok.mp h
  obtain ⟨runnable, s₂, hrunnable, hrest'⟩ := Runs.bind_eq_ok.mp hrest
  obtain ⟨missing, s₃, hmissing, hlast⟩ := Runs.bind_eq_ok.mp hrest'
  obtain ⟨rfl, hr⟩ := load_set hrunnable
  obtain ⟨rfl, hm⟩ := load_set hmissing
  have hc := load_count hpending
  split at hlast <;> cases hlast
  · exact ⟨⟨rfl, rfl, fun _ _ _ hf => nomatch hf⟩, ⟨rfl, fun _ _ _ hf => nomatch hf⟩, hr, hm, hc⟩
  · exact ⟨⟨rfl, rfl, nofun⟩, ⟨rfl, nofun⟩, hr, hm, hc⟩

/-- A set that the store holds can be read. -/
theorem SetAgrees.load {space : Namespace} {set : IdSet} {s : Store}
    (h : SetAgrees space set s.table) : IdSet.load space s = .ok set s := by
  obtain ⟨space', order⟩ := set
  obtain rfl : space' = space := h.space_eq
  rw [IdSet.load, Runs.bind_apply, OrderedSet.load_run, h.order]
  rfl

/-- A scheduler can be opened again on the store of another, which stays as it is. -/
theorem load_of_agrees {counter : Counter} {runnable missing : IdSet} {s : Store}
    (hc : CountAgrees counter s.table) (hr : SetAgrees runnableSpace runnable s.table)
    (hm : SetAgrees missingSpace missing s.table) (options : Options)
    (metrics : Option (CacheMetrics × CacheMetrics)) :
    ∃ scheduler : Scheduler J, load parse options metrics s = .ok scheduler s := by
  have hcount : ∀ jobs : JobStore J, Counter.load pendingSpace jobs s = .ok counter s := by
    intro jobs
    obtain ⟨space, count⟩ := counter
    obtain rfl : space = pendingSpace := hc.space_eq
    have hv : s.table.get? (pendingSpace.key Counter.key) = _ := hc.count
    simp only [Counter.load, Runs.bind_apply, Namespace.get?, Store.get?, hv, Counter.readCount,
      BigEndian.decodeWord?_encodeWord]
    rfl
  rw [load, Runs.bind_of_ok (hcount _), Runs.bind_of_ok hr.load, Runs.bind_of_ok hm.load]
  split <;> exact ⟨_, rfl⟩

/-- Opening a scheduler again on the store of a coherent one. -/
theorem load_of_coherent {live : Live (Scheduler J)} (hc : Coherent ids parse live)
    (options : Options) (metrics : Option (CacheMetrics × CacheMetrics)) :
    ∃ scheduler : Scheduler J, load parse options metrics live.store = .ok scheduler live.store ∧
      Coherent ids parse ⟨scheduler, live.store⟩ := by
  obtain ⟨scheduler, h⟩ : ∃ scheduler, load parse options metrics live.store = .ok scheduler _ :=
    load_of_agrees hc.pending hc.runnable hc.missing options metrics
  exact ⟨scheduler, h, coherent_of_load h⟩

end WorkQueue.Scheduler
