import WorkQueue.Proofs.Scheduler.Books

/-!
# Books in a store

`Filed` says that a table holds the books of a queue. The lemmas `Filed.*` say what each plain verb
does: it gives its reply and the books change as the verb's name says, or the write is refused and
nothing changes. Only tails and the number of pending jobs set a bound, which is `UInt64.size`.
-/

namespace WorkQueue.Scheduler

open OrderedSet (indexed stored)

variable {J : Type} [Job J]

/-- A table holds the books of a queue, whose buckets are those of the ids of a list. -/
structure Filed (ids : List JobId) (parse : Parser J) (b : Books J) (t : Table) : Prop where
  jobs : ∀ id : JobId, jobsSpace.view t id.bytes = (b.job? id).map Job.bytes
  jobs_only : ∀ key value, jobsSpace.view t key = some value → ∃ id : JobId, key = id.bytes
  reread : ∀ job ∈ b.jobs, parse (Job.bytes job) = .ok job
  distinct : (b.jobs.map Job.id).Nodup
  queue : Rolled runnableSpace t b.queue
  waiting : ∀ id ∈ ids, Rolled (bucketSpace id) t (b.waiting id)
  pending : pendingSpace.view t Counter.key = some (BigEndian.encodeWord (.ofNat b.pending))
  pending_lt : b.pending < UInt64.size

variable {ids : List JobId} {parse : Parser J} {b : Books J} {s : Store} {t : Table}

namespace Filed

/-! ## Changing one part -/

/-- Another runnable queue. -/
theorem with_queue (hids : Hashed ids) (h : Filed ids parse b t) {batch : Batch}
    (hb : runnableSpace.Holds batch) {r : Roll} (hr : Rolled runnableSpace (batch.apply t) r) :
    Filed ids parse { b with queue := r } (batch.apply t) := by
  have hw : Part.Within ids [.runnable] batch := Part.within_of_holds .runnable trivial hb
  have hjobs := Part.view_apply hids hw .jobs trivial (by simp) t
  have hpending := Part.view_apply hids hw .pending trivial (by simp) t
  refine ⟨fun id => ?_, fun key value hv => ?_, h.reread, h.distinct, hr, fun id hid => ?_, ?_,
    h.pending_lt⟩
  · exact (congrFun hjobs id.bytes).trans (h.jobs id)
  · exact h.jobs_only key value ((congrFun hjobs key).symm.trans hv)
  · exact (h.waiting id hid).of_view
      (Part.view_apply hids hw (.bucket id) hid (by simp) t)
  · exact (congrFun hpending _).trans h.pending

/-- Another bucket. -/
theorem with_bucket (hids : Hashed ids) (h : Filed ids parse b t) {dependency : JobId}
    (hid : dependency ∈ ids) {batch : Batch} (hb : (bucketSpace dependency).Holds batch)
    {waiting : JobId → Roll} (hout : ∀ id, id ≠ dependency → waiting id = b.waiting id)
    (hr : Rolled (bucketSpace dependency) (batch.apply t) (waiting dependency)) :
    Filed ids parse { b with waiting } (batch.apply t) := by
  have hw : Part.Within ids [.bucket dependency] batch :=
    Part.within_of_holds (.bucket dependency) hid hb
  have hjobs := Part.view_apply hids hw .jobs trivial (by simp) t
  have hpending := Part.view_apply hids hw .pending trivial (by simp) t
  refine ⟨fun id => ?_, fun key value hv => ?_, h.reread, h.distinct, ?_, fun id hin => ?_, ?_,
    h.pending_lt⟩
  · exact (congrFun hjobs id.bytes).trans (h.jobs id)
  · exact h.jobs_only key value ((congrFun hjobs key).symm.trans hv)
  · exact h.queue.of_view (Part.view_apply hids hw .runnable trivial (by simp) t)
  · by_cases he : id = dependency
    · rw [he]
      exact hr
    · show Rolled _ _ (waiting id)
      rw [hout id he]
      exact (h.waiting id hin).of_view
        (Part.view_apply hids hw (.bucket id) hin (by simpa using he) t)
  · exact (congrFun hpending _).trans h.pending

/-- Other stored jobs, and another number of them. -/
theorem with_jobs (hids : Hashed ids) (h : Filed ids parse b t) {op : Operation} {ops : Batch}
    {key : Bytes} (hop : op.key = jobsSpace.key key) (hops : pendingSpace.Holds ops)
    {b' : Books J} (hqueue : b'.queue = b.queue) (hwaiting : b'.waiting = b.waiting)
    (hjobs : ∀ id : JobId,
      jobsSpace.view (Batch.apply (op :: ops) t) id.bytes = (b'.job? id).map Job.bytes)
    (honly : ∀ key value, jobsSpace.view (Batch.apply (op :: ops) t) key = some value →
      ∃ id : JobId, key = id.bytes)
    (hreread : ∀ job ∈ b'.jobs, parse (Job.bytes job) = .ok job)
    (hdistinct : (b'.jobs.map Job.id).Nodup)
    (hpending : CountAgrees ⟨pendingSpace, .ofNat b'.pending⟩ (Batch.apply (op :: ops) t))
    (hlt : b'.pending < UInt64.size) : Filed ids parse b' (Batch.apply (op :: ops) t) := by
  have hw : Part.Within ids [.jobs, .pending] (op :: ops) := within_jobs_pending hop hops
  refine ⟨hjobs, honly, hreread, hdistinct, ?_, fun id hid => ?_, hpending.count, hlt⟩
  · rw [hqueue]
    exact h.queue.of_view (Part.view_apply hids hw .runnable trivial (by simp) t)
  · rw [hwaiting]
    exact (h.waiting id hid).of_view
      (Part.view_apply hids hw (.bucket id) hid (by simp) t)

/-! ## Stored jobs -/

theorem countAgrees (h : Filed ids parse b t) : CountAgrees ⟨pendingSpace, .ofNat b.pending⟩ t :=
  ⟨rfl, h.pending⟩

theorem counter (h : Filed ids parse b s.table) :
    Plain.counter s = .ok ⟨pendingSpace, .ofNat b.pending⟩ s :=
  get?_pending h.countAgrees

theorem toNat_pending (h : Filed ids parse b t) : (UInt64.ofNat b.pending).toNat = b.pending := by
  rw [UInt64.toNat_ofNat']
  exact Nat.mod_eq_of_lt h.pending_lt

theorem hasJob (h : Filed ids parse b s.table) (id : JobId) :
    Plain.hasJob id s = .ok (b.job? id).isSome s := by
  rw [Plain.hasJob, Namespace.has_run, h.jobs, Option.isSome_map]

theorem getJob (h : Filed ids parse b s.table) {id : JobId} {job : J} (hjob : b.job? id = some job) :
    Plain.getJob parse id s = .ok job s := by
  have hv : jobsSpace.view s.table id.bytes = some (Job.bytes job) := by
    rw [h.jobs, hjob]
    rfl
  rw [Plain.getJob, Runs.bind_apply, Namespace.get_run, hv]
  simp only [h.reread job (Books.mem_of_job? hjob).1]
  rfl

theorem getJob_none (h : Filed ids parse b s.table) {id : JobId} (hjob : b.job? id = none) :
    Plain.getJob parse id s = .error .notFound s := by
  have hv : jobsSpace.view s.table id.bytes = none := by
    rw [h.jobs, hjob]
    rfl
  rw [Plain.getJob, Runs.bind_apply, Namespace.get_run, hv]

/-- The next number of pending jobs is stored with a change of the stored jobs. -/
theorem countAgrees_next (h : Filed ids parse b t) (hroom : b.pending + 1 < UInt64.size)
    {op : Operation} {key : Bytes} (hop : op.key = jobsSpace.key key) :
    CountAgrees ⟨pendingSpace, .ofNat (b.pending + 1)⟩ (Batch.apply
      (op :: (⟨pendingSpace, .ofNat b.pending⟩ : Counter).stageIncrement.2) t) := by
  have hne : UInt64.ofNat b.pending ≠ Counter.largest := by
    intro he
    have hn := congrArg UInt64.toNat he
    rw [h.toNat_pending] at hn
    exact absurd hroom (by rw [hn]; decide)
  have hnext : (⟨pendingSpace, .ofNat b.pending⟩ : Counter).stageIncrement.1 =
      .ofNat (b.pending + 1) := by
    simp only [Counter.stageIncrement, if_neg hne, UInt64.ofNat_add]
    rfl
  have hcount := h.countAgrees.of_view (view_pending_apply hop t)
  rw [← hnext]
  exact (stageIncrement_agrees hcount).2

/-- The number of pending jobs before that is stored with a change of the stored jobs. -/
theorem countAgrees_previous (h : Filed ids parse b t) {op : Operation} {key : Bytes}
    (hop : op.key = jobsSpace.key key) :
    CountAgrees ⟨pendingSpace, .ofNat (b.pending - 1)⟩ (Batch.apply
      (op :: (⟨pendingSpace, .ofNat b.pending⟩ : Counter).stageDecrement.2) t) := by
  have hprevious : (⟨pendingSpace, .ofNat b.pending⟩ : Counter).stageDecrement.1 =
      .ofNat (b.pending - 1) := by
    have hn := h.toNat_pending
    simp only [Counter.stageDecrement]
    split
    · rename_i h0
      rw [h0] at hn
      rw [← hn]
      rfl
    · rename_i h0
      have hpos : b.pending ≠ 0 := fun hz => h0 (by rw [hz]; rfl)
      rw [UInt64.ofNat_sub (by omega)]
      rfl
  have hcount := h.countAgrees.of_view (view_pending_apply hop t)
  rw [← hprevious]
  exact (stageDecrement_agrees hcount).2

theorem putJob (hids : Hashed ids) (h : Filed ids parse b s.table) {job : J}
    (hjob : parse (Job.bytes job) = .ok job) (hroom : b.pending + 1 < UInt64.size) :
    (∃ t, Plain.putJob job s = .ok () t ∧ Filed ids parse (b.put job) t.table ∧
      (s.writesLeft = none → t.writesLeft = none)) ∨
    (s.writesLeft = some 0 ∧ Plain.putJob job s = .error (.file .writeRefused) s) := by
  have hops := (stageIncrement_agrees h.countAgrees).1
  rw [Plain.putJob, Runs.bind_of_ok h.counter, Store.write_eq]
  by_cases hw : s.writesLeft = some 0
  · exact .inr ⟨hw, if_pos hw⟩
  · rw [if_neg hw]
    refine .inl ⟨_, rfl, ?_, fun hs => by rw [Store.writesLeft_after, hs]; rfl⟩
    rw [Store.table_after]
    refine h.with_jobs hids rfl hops rfl rfl (fun id => ?_) (fun key value hv => ?_) ?_ ?_ ?_ hroom
    · rw [view_jobs_put hops, h.jobs, Books.job?_put]
      by_cases he : id = Job.id job
      · rw [if_pos he, if_pos (he ▸ rfl)]
        rfl
      · rw [if_neg he, if_neg fun hb => he (JobId.ext hb)]
    · rw [view_jobs_put hops] at hv
      split at hv
      · rename_i he
        exact ⟨_, he⟩
      · exact h.jobs_only key value hv
    · intro j hj
      rcases List.mem_cons.mp hj with rfl | hj
      · exact hjob
      · exact h.reread j (List.mem_filter.mp hj).1
    · refine List.nodup_cons.mpr ⟨fun hmem => ?_, (List.filter_sublist.map _).nodup h.distinct⟩
      obtain ⟨j, hj, he⟩ := List.mem_map.mp hmem
      exact absurd he (by simpa using (List.mem_filter.mp hj).2)
    · exact h.countAgrees_next hroom rfl

/-- Taking a job out of the stored jobs. -/
theorem dropJob (hids : Hashed ids) (h : Filed ids parse b s.table) (id : JobId) :
    (∃ t, Plain.dropJob id s = .ok () t ∧ Filed ids parse (b.drop id) t.table ∧
      (s.writesLeft = none → t.writesLeft = none)) ∨
    (s.writesLeft = some 0 ∧ Plain.dropJob id s = .error (.file .writeRefused) s) := by
  have hops := (stageDecrement_agrees h.countAgrees).1
  rw [Plain.dropJob, Runs.bind_of_ok h.counter, Store.write_eq]
  by_cases hw : s.writesLeft = some 0
  · exact .inr ⟨hw, if_pos hw⟩
  · rw [if_neg hw]
    refine .inl ⟨_, rfl, ?_, fun hs => by rw [Store.writesLeft_after, hs]; rfl⟩
    rw [Store.table_after]
    refine h.with_jobs hids rfl hops rfl rfl (fun other => ?_) (fun key value hv => ?_) ?_ ?_ ?_ ?_
    · rw [view_jobs_delete hops, h.jobs, Books.job?_drop]
      by_cases he : other = id
      · rw [if_pos he, if_pos (he ▸ rfl)]
        rfl
      · rw [if_neg he, if_neg fun hb => he (JobId.ext hb)]
    · rw [view_jobs_delete hops] at hv
      split at hv
      · cases hv
      · exact h.jobs_only key value hv
    · exact fun j hj => h.reread j (List.mem_filter.mp hj).1
    · exact (List.filter_sublist.map _).nodup h.distinct
    · exact h.countAgrees_previous rfl
    · exact Nat.lt_of_le_of_lt (Nat.sub_le _ _) h.pending_lt

end Filed

/-! ## Sets -/

/-- Putting an id into a set: it is a member then, or the write is refused. -/
theorem Rolled.put {space : Namespace} {r : Roll} (h : Rolled space s.table r) (id : JobId)
    (hroom : id ∉ r.members → r.puts + 1 < UInt64.size) :
    (∃ t batch, Functor.discard (Plain.onSet space (·.put id.bytes)) s = .ok () t ∧
      space.Holds batch ∧ t.table = batch.apply s.table ∧ Rolled space t.table (r.add id) ∧
      (s.writesLeft = none → t.writesLeft = none)) ∨
    (s.writesLeft = some 0 ∧ id ∉ r.members ∧
      Functor.discard (Plain.onSet space (·.put id.bytes)) s = .error (.file .writeRefused) s) := by
  obtain ⟨set, hset⟩ := h.stored
  have hspace := OrderedSet.space_of_stored hset
  rw [Runs.discard_apply, onSet_run hset, Runs.bind_apply, OrderedSet.put_run, hspace]
  by_cases hmem : id ∈ r.members
  · rw [if_pos (h.indexed_iff.mpr hmem)]
    refine .inl ⟨s, [], rfl, OrderedSet.holds_nil _, rfl, ?_, fun hs => hs⟩
    rw [Roll.add, if_pos hmem]
    exact h
  · rw [if_neg fun hi => hmem (h.indexed_iff.mp hi)]
    by_cases hw : s.writesLeft = some 0
    · rw [if_pos hw]
      exact .inr ⟨hw, hmem, rfl⟩
    · rw [if_neg hw]
      refine .inl ⟨_, _, rfl, hspace ▸ OrderedSet.holds_additions set id.bytes, ?_, ?_,
        fun hs => ?_⟩
      · rw [Store.table_after]
      · rw [Store.table_after]
        exact h.add hmem (hroom hmem) hset
      · rw [Store.writesLeft_after, hs]
        rfl

namespace Filed

theorem addRunnable (hids : Hashed ids) (h : Filed ids parse b s.table) (id : JobId)
    (hroom : id ∉ b.queue.members → b.queue.puts + 1 < UInt64.size) :
    (∃ t, Plain.addRunnable id s = .ok () t ∧ Filed ids parse (b.enqueue id) t.table ∧
      (s.writesLeft = none → t.writesLeft = none)) ∨
    (s.writesLeft = some 0 ∧ id ∉ b.queue.members ∧
      Plain.addRunnable id s = .error (.file .writeRefused) s) := by
  rcases h.queue.put id hroom with ⟨t, batch, hok, hb, ht, hr, hw⟩ | hrefused
  · refine .inl ⟨t, hok, ?_, hw⟩
    rw [ht] at hr ⊢
    exact h.with_queue hids hb hr
  · exact .inr hrefused

theorem addDependency (hids : Hashed ids) (h : Filed ids parse b s.table) {dependency : JobId}
    (hid : dependency ∈ ids) (dependent : JobId)
    (hroom : dependent ∉ (b.waiting dependency).members →
      (b.waiting dependency).puts + 1 < UInt64.size) :
    (∃ t, Plain.addDependency dependency dependent s = .ok () t ∧
      Filed ids parse (b.wait dependency dependent) t.table ∧
      (s.writesLeft = none → t.writesLeft = none)) ∨
    (s.writesLeft = some 0 ∧ dependent ∉ (b.waiting dependency).members ∧
      Plain.addDependency dependency dependent s = .error (.file .writeRefused) s) := by
  rcases (h.waiting dependency hid).put dependent hroom with ⟨t, batch, hok, hb, ht, hr, hw⟩ | hrefused
  · refine .inl ⟨t, hok, ?_, hw⟩
    rw [ht] at hr ⊢
    refine h.with_bucket hids hid hb (fun id hne => if_neg hne) ?_
    rw [if_pos rfl]
    exact hr
  · exact .inr hrefused

theorem hasRunnable (h : Filed ids parse b s.table) :
    Plain.hasRunnable s = .ok (!b.queue.members.isEmpty) s := by
  obtain ⟨set, hset⟩ := h.queue.stored
  have hspace := OrderedSet.space_of_stored hset
  rw [Plain.hasRunnable, onSet_run hset]
  simp only [Runs.bind_apply, OrderedSet.isEmpty_run, hspace, h.queue.listed, List.isEmpty_map]
  rfl

/-- Listing the ids of a set. -/
theorem listIds {space : Namespace} {r : Roll} (h : Rolled space s.table r) :
    Plain.onSet space Plain.listIds s = .ok r.members s := by
  obtain ⟨set, hset⟩ := h.stored
  have hspace := OrderedSet.space_of_stored hset
  rw [onSet_run hset, Runs.bind_apply, listIds_run, hspace, h.listed, Rolled.mapM_ofBytes]
  rfl

theorem runnableIds (h : Filed ids parse b s.table) :
    Plain.runnableIds s = .ok b.queue.members s := listIds h.queue

theorem dependentsOf (h : Filed ids parse b s.table) {dependency : JobId}
    (hid : dependency ∈ ids) :
    Plain.dependentsOf dependency s = .ok (b.waiting dependency).members s :=
  listIds (h.waiting dependency hid)

/-- The ids in a bucket are taken out, or the write is refused. -/
theorem removeDependents (hids : Hashed ids) (h : Filed ids parse b s.table) {dependency : JobId}
    (hid : dependency ∈ ids) :
    (∃ t, Plain.removeDependents dependency s = .ok (b.waiting dependency).members t ∧
      Filed ids parse (b.release dependency) t.table ∧
      (s.writesLeft = none → t.writesLeft = none)) ∨
    (s.writesLeft = some 0 ∧ (b.waiting dependency).members ≠ [] ∧
      Plain.removeDependents dependency s = .error (.file .writeRefused) s) := by
  have hroll := h.waiting dependency hid
  obtain ⟨set, hset⟩ := hroll.stored
  have hspace := OrderedSet.space_of_stored hset
  have hlisted := hroll.listed
  have htaken : ((OrderedSet.listed (bucketSpace dependency) s.table).mapM fun e =>
      JobId.ofBytes e.2) = .ok (b.waiting dependency).members := by
    rw [← Rolled.mapM_ofBytes, ← hlisted, List.mapM_map]
    rfl
  rw [Plain.removeDependents, onSet_run hset, Runs.bind_apply, OrderedSet.takeAll_run, hspace,
    htaken]
  simp only
  by_cases hempty : (b.waiting dependency).members = []
  · have hnil : (OrderedSet.listed (bucketSpace dependency) s.table).isEmpty = true := by
      rw [hempty] at hlisted
      exact List.isEmpty_iff.mpr (List.map_eq_nil_iff.mp hlisted)
    rw [if_pos hnil]
    refine .inl ⟨s, rfl, ?_, fun hs => hs⟩
    refine h.with_bucket hids hid (OrderedSet.holds_nil _) (fun id hne => if_neg hne) ?_
    rw [if_pos rfl, Roll.cleared, if_pos hempty]
    exact hroll
  · have hne : ¬ (OrderedSet.listed (bucketSpace dependency) s.table).isEmpty = true := by
      intro hnil
      rw [List.isEmpty_iff.mp hnil] at hlisted
      exact hempty (List.map_eq_nil_iff.mp hlisted.symm)
    rw [if_neg hne]
    by_cases hw : s.writesLeft = some 0
    · rw [if_pos hw]
      exact .inr ⟨hw, hempty, rfl⟩
    · rw [if_neg hw]
      refine .inl ⟨_, rfl, ?_, fun hs => by rw [Store.writesLeft_after, hs]; rfl⟩
      rw [Store.table_after]
      refine h.with_bucket hids hid (hspace ▸ OrderedSet.holds_removals set _)
        (fun id hne => if_neg hne) ?_
      rw [if_pos rfl, Roll.cleared, if_neg hempty]
      exact hroll.clear hset

/-! ## Taking the first job out -/

theorem pop_nil (h : Filed ids parse b s.table) (hq : b.queue.members = []) :
    Plain.pop s = .error .notFound s := by
  obtain ⟨set, hset⟩ := h.queue.stored
  have hspace := OrderedSet.space_of_stored hset
  rw [Plain.pop, onSet_run hset, Runs.bind_apply, Plain.takeHead_run, hspace, h.queue.listed, hq]
  rfl

/-- The first id leaves the queue, or the write is refused. -/
theorem pop (hids : Hashed ids) (h : Filed ids parse b s.table) {id : JobId} {rest : List JobId}
    (hq : b.queue.members = id :: rest) :
    (∃ t, Plain.pop s = .ok id.bytes t ∧ Filed ids parse b.dequeue t.table ∧
      (s.writesLeft = none → t.writesLeft = none)) ∨
    (s.writesLeft = some 0 ∧ Plain.pop s = .error (.file .writeRefused) s) := by
  obtain ⟨set, hset⟩ := h.queue.stored
  have hspace := OrderedSet.space_of_stored hset
  obtain ⟨seq, hview, hroll⟩ := h.queue.drop hq hset
  rw [Plain.pop, onSet_run hset, Runs.bind_apply, Plain.takeHead_run, hspace, h.queue.listed, hq,
    List.map_cons]
  simp only [OrderedSet.delete_run, hspace, hview, OrderedSet.readSeq_encodeWord]
  by_cases hw : s.writesLeft = some 0
  · rw [if_pos hw]
    exact .inr ⟨hw, rfl⟩
  · rw [if_neg hw]
    refine .inl ⟨_, rfl, ?_, fun hs => by rw [Store.writesLeft_after, hs]; rfl⟩
    rw [Store.table_after]
    exact h.with_queue hids (hspace ▸ OrderedSet.holds_removal set seq _) hroll

/-- The first job leaves the queue and the stored jobs. Where this fails, the queue may have lost
its first id already; with all writes granted, it fails only when no such job is stored. -/
theorem removeRunnable (hids : Hashed ids) (h : Filed ids parse b s.table) :
    (∃ id rest job t, b.queue.members = id :: rest ∧ b.job? id = some job ∧
      Plain.removeRunnable parse s = .ok job t ∧ Filed ids parse (b.dequeue.drop id) t.table ∧
      (s.writesLeft = none → t.writesLeft = none)) ∨
    ((s.writesLeft = none → ∀ id rest, b.queue.members = id :: rest → b.job? id = none) ∧
      ∃ e t b', Plain.removeRunnable parse s = .error e t ∧ (b' = b ∨ b' = b.dequeue) ∧
        Filed ids parse b' t.table) := by
  rw [Plain.removeRunnable]
  cases hq : b.queue.members with
  | nil => exact .inr ⟨nofun, _, _, b, Runs.bind_of_error (h.pop_nil hq), .inl rfl, h⟩
  | cons id rest =>
    rcases h.pop hids hq with ⟨t, hpop, ht, hn⟩ | ⟨hw, hpop⟩
    · rw [Runs.bind_of_ok hpop, JobId.ofBytes_bytes, Runs.bind_of_ok (Runs.ofExcept_ok id t)]
      cases hjob : b.job? id with
      | none =>
        have hget := ht.getJob_none hjob
        rw [Runs.bind_of_error (Plain.afterDequeue_error hget)]
        refine .inr ⟨fun _ _ _ he => ?_, _, t, b.dequeue, rfl, .inr rfl, ht⟩
        cases he
        exact hjob
      | some job =>
        have hget : Plain.getJob parse id t = .ok job t := ht.getJob hjob
        rw [Runs.bind_of_ok (Plain.afterDequeue_ok hget)]
        rcases ht.dropJob hids id with ⟨u, hdrop, hu, hn'⟩ | ⟨hw, hdrop⟩
        · rw [Runs.bind_of_ok (Plain.afterDequeue_ok hdrop)]
          exact .inl ⟨id, rest, job, u, rfl, hjob, rfl, hu, fun hs => hn' (hn hs)⟩
        · rw [Runs.bind_of_error (Plain.afterDequeue_error hdrop)]
          exact .inr ⟨fun hs => by simp [hn hs] at hw, _, t, b.dequeue, rfl, .inr rfl, ht⟩
    · rw [Runs.bind_of_error hpop]
      exact .inr ⟨fun hs => by simp [hs] at hw, _, s, b, rfl, .inl rfl, h⟩

end Filed

end WorkQueue.Scheduler
