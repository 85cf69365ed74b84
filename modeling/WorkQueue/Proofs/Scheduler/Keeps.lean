import WorkQueue.Proofs.Scheduler.Filed

/-!
# A scheduler keeps its books

`Keeps` says that a scheduler, in memory and in its store, keeps given books. The verbs, run on such
a scheduler, give what the books say and leave a scheduler that keeps the books changed as the name
of the verb says; or they are refused to write, and the books stay as they were.
-/

namespace WorkQueue

/-- A store that refuses all writes after so many, or none. -/
def Live.withWrites {σ : Type} (live : Live σ) (left : Option Nat) : Live σ :=
  { live with store := { live.store with writesLeft := left } }

@[simp] theorem Live.writesLeft_withWrites {σ : Type} (live : Live σ) (left : Option Nat) :
    (live.withWrites left).store.writesLeft = left := rfl

namespace Scheduler

variable {J : Type} [Job J]

/-- A scheduler keeps books. -/
structure Keeps (ids : List JobId) (parse : Parser J) (b : Books J) (live : Live (Scheduler J)) :
    Prop where
  coherent : Coherent ids parse live
  filed : Filed ids parse b live.store.table

namespace Keeps

variable {ids : List JobId} {parse : Parser J} {b : Books J} {live : Live (Scheduler J)}

/-- Of a store only the table counts, not its log nor whether it refuses writes. -/
theorem of_table (h : Keeps ids parse b live) {store : Store}
    (ht : store.table = live.store.table) : Keeps ids parse b ⟨live.memory, store⟩ := by
  obtain ⟨⟨hjobs, hdependents, hrunnable, hmissing, hpending⟩, hfiled⟩ := h
  rw [← ht] at hjobs hdependents hrunnable hmissing hpending hfiled
  exact ⟨⟨hjobs, hdependents, hrunnable, hmissing, hpending⟩, hfiled⟩

theorem withWrites (h : Keeps ids parse b live) (left : Option Nat) :
    Keeps ids parse b (live.withWrites left) := h.of_table rfl

/-! ## Reading -/

theorem hasJob (h : Keeps ids parse b live) (id : JobId) :
    Scheduler.hasJob id live = .ok (b.job? id).isSome live := by
  simp only [Scheduler.hasJob, Runs.bind_apply, LiveM.memory, LiveM.onStore, h.coherent.jobs.has,
    h.filed.hasJob]

theorem getJob (hids : Hashed ids) (h : Keeps ids parse b live) {id : JobId} {job : J}
    (hjob : b.job? id = some job) :
    ∃ live', Scheduler.getJob id live = .ok job live' ∧ Keeps ids parse b live' ∧
      live'.store = live.store := by
  obtain ⟨live', hok, hstore, hc⟩ := (mirrors_getJob hids id).of_ok h.coherent (h.filed.getJob hjob)
  exact ⟨live', hok, ⟨hc, hstore ▸ h.filed⟩, hstore⟩

theorem getJob_none (hids : Hashed ids) (h : Keeps ids parse b live) {id : JobId}
    (hjob : b.job? id = none) :
    ∃ live', Scheduler.getJob id live = .error .notFound live' ∧ Keeps ids parse b live' := by
  obtain ⟨live', hok, hstore, hc⟩ :=
    (mirrors_getJob hids id).of_error h.coherent (h.filed.getJob_none hjob)
  exact ⟨live', hok, ⟨hc, hstore ▸ h.filed⟩⟩

theorem hasRunnable (h : Keeps ids parse b live) :
    Scheduler.hasRunnable live = .ok (!b.queue.members.isEmpty) live := by
  obtain ⟨live', hok, hstore, -⟩ := mirrors_hasRunnable.of_ok h.coherent h.filed.hasRunnable
  rw [hok]
  have hlive : (Runs.final (Scheduler.hasRunnable live)).memory = live.memory := rfl
  rw [hok] at hlive
  obtain ⟨memory, store⟩ := live'
  cases hlive
  cases hstore
  rfl

theorem runnableIds (h : Keeps ids parse b live) :
    ∃ live', Scheduler.runnableIds live = .ok b.queue.members live' := by
  obtain ⟨live', hok, -⟩ := mirrors_runnableIds.of_ok h.coherent h.filed.runnableIds
  exact ⟨live', hok⟩

theorem dependentsOf (hids : Hashed ids) (h : Keeps ids parse b live) {dependency : JobId}
    (hid : dependency ∈ ids) :
    ∃ live', onDependents (Dependents.of dependency) live =
      .ok (b.waiting dependency).members live' := by
  obtain ⟨live', hok, -⟩ :=
    (mirrors_dependentsOf hids hid).of_ok h.coherent (h.filed.dependentsOf hid)
  exact ⟨live', hok⟩

theorem pendingCount (h : Keeps ids parse b live) :
    Scheduler.pendingCount live = .ok (.ofNat b.pending) live := by
  have hcount : live.memory.pending.count = .ofNat b.pending :=
    BigEndian.encodeWord_injective
      (Option.some.inj (h.coherent.pending.count.symm.trans h.filed.pending))
  rw [← hcount]
  rfl

/-! ## Writing -/

theorem putJob (hids : Hashed ids) (h : Keeps ids parse b live) {job : J}
    (hjob : parse (Job.bytes job) = .ok job) (hroom : b.pending + 1 < UInt64.size) :
    (∃ live', Scheduler.putJob job live = .ok () live' ∧ Keeps ids parse (b.put job) live' ∧
      (live.store.writesLeft = none → live'.store.writesLeft = none)) ∨
    (live.store.writesLeft = some 0 ∧
      Scheduler.putJob job live = .error (.file .writeRefused) live) := by
  rcases h.filed.putJob hids hjob hroom with ⟨t, hok, hf, hn⟩ | ⟨hw, -⟩
  · obtain ⟨live', hok', rfl, hc⟩ := (mirrors_putJob hids hjob).of_ok h.coherent hok
    exact .inl ⟨live', hok', ⟨hc, hf⟩, hn⟩
  · exact .inr ⟨hw, by rw [putJob_run, if_pos hw]⟩

theorem addRunnable (hids : Hashed ids) (h : Keeps ids parse b live) (id : JobId)
    (hroom : id ∉ b.queue.members → b.queue.puts + 1 < UInt64.size) :
    (∃ live', Scheduler.addRunnable id live = .ok () live' ∧
      Keeps ids parse (b.enqueue id) live' ∧
      (live.store.writesLeft = none → live'.store.writesLeft = none)) ∨
    (live.store.writesLeft = some 0 ∧ id ∉ b.queue.members ∧
      ∃ live', Scheduler.addRunnable id live = .error (.file .writeRefused) live' ∧
        Keeps ids parse b live') := by
  rcases h.filed.addRunnable hids id hroom with ⟨t, hok, hf, hn⟩ | ⟨hw, hnew, herr⟩
  · obtain ⟨live', hok', rfl, hc⟩ := (mirrors_addRunnable hids id).of_ok h.coherent hok
    exact .inl ⟨live', hok', ⟨hc, hf⟩, hn⟩
  · obtain ⟨live', herr', hstore, hc⟩ := (mirrors_addRunnable hids id).of_error h.coherent herr
    exact .inr ⟨hw, hnew, live', herr', hc, hstore ▸ h.filed⟩

theorem addDependency (hids : Hashed ids) (h : Keeps ids parse b live) {dependency : JobId}
    (hid : dependency ∈ ids) (dependent : JobId)
    (hroom : dependent ∉ (b.waiting dependency).members →
      (b.waiting dependency).puts + 1 < UInt64.size) :
    (∃ live', Scheduler.addDependency dependency dependent live = .ok () live' ∧
      Keeps ids parse (b.wait dependency dependent) live' ∧
      (live.store.writesLeft = none → live'.store.writesLeft = none)) ∨
    (live.store.writesLeft = some 0 ∧ dependent ∉ (b.waiting dependency).members ∧
      ∃ live', Scheduler.addDependency dependency dependent live =
        .error (.file .writeRefused) live' ∧ Keeps ids parse b live') := by
  have hm : Mirrors ids parse _ _ := mirrors_addDependency hids hid dependent
  rcases h.filed.addDependency hids hid dependent hroom with ⟨t, hok, hf, hn⟩ | ⟨hw, hnew, herr⟩
  · obtain ⟨live', hok', rfl, hc⟩ := hm.of_ok h.coherent hok
    exact .inl ⟨live', hok', ⟨hc, hf⟩, hn⟩
  · obtain ⟨live', herr', hstore, hc⟩ := hm.of_error h.coherent herr
    exact .inr ⟨hw, hnew, live', herr', hc, hstore ▸ h.filed⟩

theorem removeDependents (hids : Hashed ids) (h : Keeps ids parse b live) {dependency : JobId}
    (hid : dependency ∈ ids) :
    (∃ live', Scheduler.removeDependents dependency live =
        .ok (b.waiting dependency).members live' ∧
      Keeps ids parse (b.release dependency) live' ∧
      (live.store.writesLeft = none → live'.store.writesLeft = none)) ∨
    (live.store.writesLeft = some 0 ∧
      ∃ live', Scheduler.removeDependents dependency live = .error (.file .writeRefused) live' ∧
        Keeps ids parse b live') := by
  have hm : Mirrors ids parse _ _ := mirrors_removeDependents hids hid
  rcases h.filed.removeDependents hids hid with ⟨t, hok, hf, hn⟩ | ⟨hw, -, herr⟩
  · obtain ⟨live', hok', rfl, hc⟩ := hm.of_ok h.coherent hok
    exact .inl ⟨live', hok', ⟨hc, hf⟩, hn⟩
  · obtain ⟨live', herr', hstore, hc⟩ := hm.of_error h.coherent herr
    exact .inr ⟨hw, live', herr', hc, hstore ▸ h.filed⟩

/-- The first job leaves the queue and the stored jobs. Where this fails, the queue may have lost
its first id already; with all writes granted, it fails only when no such job is stored. -/
theorem removeRunnable (hids : Hashed ids) (h : Keeps ids parse b live) :
    (∃ id rest job live', b.queue.members = id :: rest ∧ b.job? id = some job ∧
      Scheduler.removeRunnable live = .ok job live' ∧
      Keeps ids parse (b.dequeue.drop id) live' ∧
      (live.store.writesLeft = none → live'.store.writesLeft = none)) ∨
    ((live.store.writesLeft = none →
        ∀ id rest, b.queue.members = id :: rest → b.job? id = none) ∧
      ∃ e live' b', Scheduler.removeRunnable live = .error e live' ∧ (b' = b ∨ b' = b.dequeue) ∧
        Keeps ids parse b' live') := by
  rcases h.filed.removeRunnable hids with
    ⟨id, rest, job, t, hq, hjob, hok, hf, hn⟩ | ⟨hnone, e, t, b', herr, hb, hf⟩
  · obtain ⟨live', hok', rfl, hc⟩ := (mirrors_removeRunnable hids).of_ok h.coherent hok
    exact .inl ⟨id, rest, job, live', hq, hjob, hok', ⟨hc, hf⟩, hn⟩
  · obtain ⟨live', herr', rfl, hc⟩ := (mirrors_removeRunnable hids).of_error h.coherent herr
    exact .inr ⟨hnone, e, live', b', herr', hb, hc, hf⟩

theorem disableCaching (h : Keeps ids parse b live) :
    ∃ live', Scheduler.disableCaching live = .ok () live' ∧ Keeps ids parse b live' ∧
      live'.store = live.store := by
  obtain ⟨live', hok, hstore, hc⟩ :=
    mirrors_disableCaching.of_ok h.coherent (Runs.pure_apply () live.store)
  exact ⟨live', hok, ⟨hc, hstore ▸ h.filed⟩, hstore⟩

/-! ## Opening -/

/-- The scheduler opened again on the store of one that keeps books keeps them too. -/
theorem reopen (h : Keeps ids parse b live) (options : Options)
    (metrics : Option (CacheMetrics × CacheMetrics)) :
    ∃ scheduler, load parse options metrics live.store = .ok scheduler live.store ∧
      Keeps ids parse b ⟨scheduler, live.store⟩ := by
  obtain ⟨scheduler, hload, hc⟩ := load_of_coherent h.coherent options metrics
  exact ⟨scheduler, hload, hc, h.filed⟩

end Keeps

/-- What opening a scheduler writes into a store without entries. -/
def firstBatch : Batch := [pendingSpace.stagePut Counter.key (BigEndian.encodeWord 0)]

omit [Job J] in
/-- Where no number is stored, the stored jobs are counted, and their number is stored. -/
theorem load_count_none (jobs : JobStore J) {store : Store}
    (hnone : pendingSpace.view store.table Counter.key = none) :
    Counter.load pendingSpace jobs store =
      if store.writesLeft = some 0 then .error (.file .writeRefused) store
      else .ok ⟨pendingSpace, .ofNat (jobs.space.size store.table)⟩ (store.after
        [pendingSpace.stagePut Counter.key
          (BigEndian.encodeWord (.ofNat (jobs.space.size store.table)))]) := by
  have hget : store.table.get? (pendingSpace.key Counter.key) = none := hnone
  have hcount : jobs.count store = .ok (jobs.space.size store.table) store := rfl
  simp only [Counter.load, Runs.bind_apply, Namespace.get?, Store.get?, hget, hcount]
  exact Store.bind_write _ _ store

omit [Job J] in
theorem load_count_empty (jobs : JobStore J) {store : Store} (hempty : store.table = .empty) :
    Counter.load pendingSpace jobs store =
      if store.writesLeft = some 0 then .error (.file .writeRefused) store
      else .ok ⟨pendingSpace, 0⟩ (store.after firstBatch) := by
  have hnone : ∀ (space : Namespace) (key : Bytes), space.view store.table key = none := by
    rw [hempty]
    exact fun _ _ => rfl
  rw [load_count_none jobs (hnone _ _), Namespace.size_eq_zero (hnone _)]
  rfl

/-- The first batch leaves all parts but one without entries. -/
theorem view_firstBatch {ids : List JobId} (hids : Hashed ids) {part : Part} (hpart : part.Of ids)
    (hne : part ≠ .pending) (key : Bytes) :
    part.space.view (Batch.apply firstBatch .empty) key = none := by
  have hw : Part.Within ids [.pending] firstBatch :=
    Part.within_of_holds .pending trivial fun op hop => by
      rw [List.mem_singleton.mp hop]
      exact ⟨_, rfl⟩
  rw [Part.view_apply hids hw part hpart (by simpa using hne)]
  rfl

theorem filed_firstBatch {ids : List JobId} (hids : Hashed ids) (parse : Parser J) :
    Filed ids parse .empty (Batch.apply firstBatch .empty) := by
  have hnone : ∀ part : Part, part.Of ids → part ≠ .pending → ∀ key,
      part.space.view (Batch.apply firstBatch .empty) key = none := fun _ => view_firstBatch hids
  refine ⟨fun id => hnone .jobs trivial nofun _, fun key value hv => ?_, nofun, .nil,
    .empty (hnone .runnable trivial nofun), fun id hid => .empty (hnone (.bucket id) hid nofun), ?_,
    show 0 < UInt64.size by decide⟩
  · have hn := hnone .jobs trivial nofun key
    exact absurd (hv.symm.trans hn) nofun
  · rw [firstBatch, Namespace.stagePut, Batch.apply_cons, Batch.apply_nil, Operation.apply,
      Namespace.view_put, if_pos rfl]
    rfl

omit [Job J] in
/-- A scheduler can be opened on a store that holds both sets and no number of pending jobs, and
counts the stored jobs. -/
theorem load_of_uncounted (parse : Parser J) {runnable missing : IdSet} {store : Store}
    (hnone : pendingSpace.view store.table Counter.key = none) (hw : store.writesLeft ≠ some 0)
    (hr : SetAgrees runnableSpace runnable store.table)
    (hm : SetAgrees missingSpace missing store.table) (options : Options)
    (metrics : Option (CacheMetrics × CacheMetrics)) :
    ∃ scheduler t, load parse options metrics store = .ok scheduler t ∧
      scheduler.pending.count = .ofNat (jobsSpace.size store.table) := by
  have hcount := load_count_none
    (.new jobsSpace parse (.new options.jobsCapacity (metrics.map (·.1)))) hnone
  rw [if_neg hw] at hcount
  -- The number is stored in a namespace apart from both sets.
  have hview : ∀ part : Part, part.rank ≠ Part.pending.rank → ∀ value : Bytes,
      part.space.view (store.after [pendingSpace.stagePut Counter.key value]).table =
        part.space.view store.table := by
    intro part hne value
    have hholds : pendingSpace.Holds [pendingSpace.stagePut Counter.key value] := by
      intro op hop
      rw [List.mem_singleton.mp hop]
      exact ⟨_, rfl⟩
    rw [Store.table_after]
    exact Namespace.view_apply (Part.apart_of_rank_ne hne.symm) hholds _
  have hr' := fun value => hr.of_view (hview .runnable (by decide) value)
  have hm' := fun value => hm.of_view (hview .missing (by decide) value)
  rw [load, Runs.bind_of_ok hcount, Runs.bind_of_ok (hr' _).load, Runs.bind_of_ok (hm' _).load]
  split <;> exact ⟨_, _, rfl, rfl⟩

omit [Job J] in
/-- A scheduler can be opened on a store without entries that grants a write. -/
theorem load_of_granted (parse : Parser J) {store : Store} (hempty : store.table = .empty)
    (hgranted : store.writesLeft ≠ some 0) (options : Options)
    (metrics : Option (CacheMetrics × CacheMetrics)) :
    ∃ scheduler t, load parse options metrics store = .ok scheduler t := by
  have hset : ∀ space : Namespace, SetAgrees space ⟨space, ⟨space, 0⟩⟩ store.table := by
    intro space
    rw [hempty]
    exact ⟨rfl, rfl⟩
  obtain ⟨scheduler, t, hload, -⟩ := load_of_uncounted parse (by rw [hempty]; rfl) hgranted
    (hset _) (hset _) options metrics
  exact ⟨scheduler, t, hload⟩

omit [Job J] in
/-- A scheduler can be opened on a store without entries that refuses no write. -/
theorem load_of_empty (parse : Parser J) {store : Store} (hempty : store.table = .empty)
    (hgranted : store.writesLeft = none) (options : Options)
    (metrics : Option (CacheMetrics × CacheMetrics)) :
    ∃ scheduler t, load parse options metrics store = .ok scheduler t :=
  load_of_granted parse hempty (by simp [hgranted]) options metrics

omit [Job J] in
/-- Opening a scheduler on a store without entries writes the first batch. -/
theorem store_of_load {parse : Parser J} {store t : Store} (hempty : store.table = .empty)
    {options : Options} {metrics : Option (CacheMetrics × CacheMetrics)} {scheduler : Scheduler J}
    (h : load parse options metrics store = .ok scheduler t) : t = store.after firstBatch := by
  obtain ⟨pending, s₁, hpending, hrest⟩ := Runs.bind_eq_ok.mp h
  obtain ⟨runnable, s₂, hrunnable, hrest'⟩ := Runs.bind_eq_ok.mp hrest
  obtain ⟨missing, s₃, hmissing, hlast⟩ := Runs.bind_eq_ok.mp hrest'
  obtain ⟨rfl, -⟩ := load_set hrunnable
  obtain ⟨rfl, -⟩ := load_set hmissing
  rw [load_count_empty _ hempty] at hpending
  obtain rfl : t = s₃ := by split at hlast <;> cases hlast <;> rfl
  split at hpending <;> cases hpending
  rfl

/-- The scheduler opened on a store without entries keeps empty books. -/
theorem keeps_of_load {ids : List JobId} {parse : Parser J} (hids : Hashed ids) {store t : Store}
    (hempty : store.table = .empty) {options : Options}
    {metrics : Option (CacheMetrics × CacheMetrics)} {scheduler : Scheduler J}
    (h : load parse options metrics store = .ok scheduler t) :
    Keeps ids parse .empty ⟨scheduler, t⟩ ∧
      (store.writesLeft = none → t.writesLeft = none) := by
  have hcoherent : Coherent ids parse ⟨scheduler, t⟩ := coherent_of_load h
  obtain rfl := store_of_load hempty h
  refine ⟨⟨hcoherent, ?_⟩, fun hs => by rw [Store.writesLeft_after, hs]; rfl⟩
  show Filed ids parse .empty (store.after firstBatch).table
  rw [Store.table_after, hempty]
  exact filed_firstBatch hids parse

end Scheduler

end WorkQueue
