import WorkQueue.Proofs.Files.Reading
import WorkQueue.Proofs.Scheduler.Blind
import WorkQueue.Proofs.Store.Condition

/-!
# Stores in which no job waits

`Idle` are the stores that a log keeps and in which no job waits for another, the other files and
the condition of the log being as given. What a program does that never has a job wait keeps a store
so: the plain verbs for jobs without dependencies write within the parts for the jobs, their number
and the queue.

* `filing`: of all that these verbs write only a job itself can be too long for a record
  (`framed_additions`, `framed_removal`, `framed_dropping`), and whether it is depends on its length
  alone (`length_payload_filing`), not on the number that is written with it (`writes_filing`);
* `Idle.after`: a batch that stays within these parts;
* `Idle.putJob`, `Idle.addRunnable`, `Idle.removeRunnable`: the verbs.
-/

namespace WorkQueue

/-- Writing changes no file but the log. -/
theorem Store.node?_after {s : Store} {log : LogFile} (h : s.log = some log) (batch : Batch)
    {l : Location} (hl : l ≠ log.location) : (s.after batch).files.node? l = s.files.node? l := by
  simp only [Store.after, Store.land, h]
  split
  · rfl
  · rw [FileTree.append, FileTree.node?_set, if_neg hl]
    split
    · next hfixed => exact (FileTree.node?_of_fixed hfixed).symm
    · rfl

namespace Scheduler

open BigEndian (encodeWord)
open Log (Condition)
open Runs (final mapState Preserves)

variable {J α β : Type}

theorem length_key (part : Part) (key : Bytes) :
    (part.outer.key key).length = 32 + key.length := by
  have hlead : part.outer.lead.length = 32 :=
    Part.length_of_mem_leads _ (List.mem_of_getElem? part.leads_rank)
  rw [Namespace.key, List.length_append, hlead]

theorem length_pending_key : (pendingSpace.key Counter.key).length = 43 := by
  have hkey : Counter.key.length = 11 := by decide +kernel
  have hlength := length_key .pending Counter.key
  rwa [hkey] at hlength

/-- The batch that stores a job, with the number of pending jobs. -/
def filing [Job J] (job : J) : Batch :=
  [jobsSpace.stagePut (Job.id job).bytes (Job.bytes job),
    pendingSpace.stagePut Counter.key (encodeWord 0)]

theorem exists_payload_filing [Job J] (job : J) : ∃ head, ∀ number : UInt64,
    Log.payload [jobsSpace.stagePut (Job.id job).bytes (Job.bytes job),
      pendingSpace.stagePut Counter.key (encodeWord number)] = head ++ encodeWord number := by
  refine ⟨Log.operation (jobsSpace.stagePut (Job.id job).bytes (Job.bytes job)) ++
    1 :: (Log.sized (pendingSpace.key Counter.key) ++ BigEndian.encode Log.lengthSize 8),
    fun number => ?_⟩
  have hword : (encodeWord number).length = 8 := BigEndian.length_encode ..
  simp only [Log.payload, List.flatMap_cons, List.flatMap_nil, List.append_nil,
    Namespace.stagePut, Log.operation, Log.sized, hword, List.cons_append, List.append_assoc]

/-- Whatever the number of pending jobs is, it takes the last eight bytes of the payload. -/
theorem writes_filing [Job J] {job : J} {c c' : Condition} (h : c.Writes (filing job) c')
    {counter : Counter} (hspace : counter.space = pendingSpace) :
    c.Writes (jobsSpace.stagePut (Job.id job).bytes (Job.bytes job) :: counter.stageIncrement.2)
      c' := by
  obtain ⟨head, hpayload⟩ := exists_payload_filing job
  have hstaged : counter.stageIncrement.2 =
      [pendingSpace.stagePut Counter.key (encodeWord counter.stageIncrement.1)] := by
    rw [← hspace]
    rfl
  rw [hstaged]
  have hword : ∀ number : UInt64, (encodeWord number).length = 8 := fun _ =>
    BigEndian.length_encode ..
  have hframed : Log.Framed [jobsSpace.stagePut (Job.id job).bytes (Job.bytes job),
      pendingSpace.stagePut Counter.key (encodeWord counter.stageIncrement.1)] ↔
        Log.Framed (filing job) := by
    rw [Log.Framed, Log.Framed, hpayload, filing, hpayload, List.length_append, List.length_append,
      hword, hword]
  cases h with
  | framed h => exact .framed (hframed.mpr h)
  | overlong h =>
    obtain ⟨hlong, hsound⟩ := h
    refine .overlong ⟨mt hframed.mp hlong, ?_⟩
    rw [Log.sound_record_of_payload (mt hframed.mp hlong) (hpayload _) (by rw [hword]; decide),
      hword]
    rwa [Log.sound_record_of_payload hlong (hpayload _) (by rw [hword]; decide), hword] at hsound
  | spoilt => exact .spoilt

theorem length_payload_filing [Job J] (job : J) :
    (Log.payload (filing job)).length = (Job.bytes job).length + 133 := by
  have hjobs : ∀ key, (jobsSpace.key key).length = 32 + key.length := length_key .jobs
  simp only [filing, Namespace.stagePut, hjobs, length_pending_key, JobId.length_bytes,
    Log.length_payload_cons, Log.length_payload_nil, Log.length_operation_put, encodeWord,
    BigEndian.length_encode]
  omega

theorem framed_additions {set : OrderedSet} (hspace : set.space = runnableSpace) (id : JobId) :
    Log.Framed (set.additions id.bytes) := by
  have hkey : ∀ key, (runnableSpace.key key).length = 32 + key.length := length_key .runnable
  simp only [Log.Framed, OrderedSet.additions, Namespace.stagePut, hspace, hkey,
    OrderedSet.memberKey, OrderedSet.indexKey, OrderedSet.tailKey, id.length_bytes,
    Log.length_payload_cons, Log.length_payload_nil, Log.length_operation_put, List.length_cons,
    List.length_nil, encodeWord, BigEndian.length_encode]
  decide

theorem framed_removal {set : OrderedSet} (hspace : set.space = runnableSpace) (seq : UInt64)
    (id : JobId) : Log.Framed (set.removal seq id.bytes) := by
  have hkey : ∀ key, (runnableSpace.key key).length = 32 + key.length := length_key .runnable
  simp only [Log.Framed, OrderedSet.removal, Namespace.stageDelete, hspace, hkey,
    OrderedSet.memberKey, OrderedSet.indexKey, id.length_bytes, Log.length_payload_cons,
    Log.length_payload_nil, Log.length_operation_delete, List.length_cons, encodeWord,
    BigEndian.length_encode]
  decide

theorem framed_dropping {counter : Counter} (hspace : counter.space = pendingSpace) (id : JobId) :
    Log.Framed (jobsSpace.stageDelete id.bytes :: counter.stageDecrement.2) := by
  have hjobs : ∀ key, (jobsSpace.key key).length = 32 + key.length := length_key .jobs
  simp only [Counter.stageDecrement]
  split <;> simp only [Log.Framed, Counter.stage, Namespace.stagePut, Namespace.stageDelete,
    hspace, hjobs, length_pending_key, id.length_bytes, Log.length_payload_cons,
    Log.length_payload_nil, Log.length_operation_put, Log.length_operation_delete, encodeWord,
    BigEndian.length_encode] <;> decide

/-! ## What plain verbs have done where they succeed -/

theorem counter_ok {s t : Store} {counter : Counter} (h : Plain.counter s = .ok counter t) :
    t = s ∧ counter.space = pendingSpace := by
  obtain ⟨value, u, hget, hrest⟩ := Runs.bind_eq_ok.mp h
  obtain ⟨count, v, hread, hcounter⟩ := Runs.bind_eq_ok.mp hrest
  obtain ⟨rfl, -⟩ := Runs.ofExcept_eq_ok.mp hread
  cases hcounter
  rw [Namespace.get_run] at hget
  split at hget
  · cases hget
    exact ⟨rfl, rfl⟩
  · cases hget

theorem onSet_ok {space : Namespace} {action : OrderedSet → StoreM (α × OrderedSet)} {s t : Store}
    {a : α} (h : Plain.onSet space action s = .ok a t) :
    ∃ set set', OrderedSet.stored space s.table = .ok set ∧ action set s = .ok (a, set') t := by
  cases hset : OrderedSet.stored space s.table with
  | ok set =>
    rw [onSet_run hset] at h
    obtain ⟨⟨b, set'⟩, u, haction, hb⟩ := Runs.bind_eq_ok.mp h
    cases hb
    exact ⟨set, set', rfl, haction⟩
  | error e =>
    rw [Plain.onSet, Runs.bind_apply, OrderedSet.load_run, hset] at h
    cases h

theorem getJob_ok {parse : Parser J} {s t : Store} {id : JobId} {job : J}
    (h : Plain.getJob parse id s = .ok job t) : t = s := by
  obtain ⟨bytes, u, hget, hparse⟩ := Runs.bind_eq_ok.mp h
  obtain ⟨rfl, -⟩ := Runs.ofExcept_eq_ok.mp hparse
  rw [Namespace.get_run] at hget
  split at hget
  · cases hget
    rfl
  · cases hget

theorem afterDequeue_eq_ok {id : JobId} {x : StoreM α} {s t : Store} {a : α}
    (h : Plain.afterDequeue id x s = .ok a t) : x s = .ok a t := by
  cases hx : x s with
  | ok b u =>
    rw [Plain.afterDequeue_ok hx] at h
    exact h
  | error e u =>
    rw [Plain.afterDequeue_error hx] at h
    cases h

/-! ## Stores in which no job waits -/

/-- A store that the log at a path keeps, in which no job waits and none is missing. The condition
of the log and the files beside it are given. -/
structure Idle (c : Condition) (path : String) (location : Location) (others : FileTree)
    (s : Store) : Prop where
  kept : Store.Kept c s path location
  others : ∀ l, l ≠ location → s.files.node? l = others.node? l
  idle : ∀ part : Part, 3 ≤ part.rank → ∀ key, part.space.view s.table key = none

namespace Idle

variable {c c' : Condition} {path : String} {location : Location} {others : FileTree} {s t : Store}

theorem granted (h : Idle c path location others s) : s.writesLeft = none := h.kept.writesLeft

theorem log_file (h : Idle c path location others s) :
    ∃ bytes, s.files.node? location = some (.file bytes) := by
  obtain ⟨bytes, hbytes⟩ := h.kept.reaches.file
  exact ⟨bytes, FileTree.bytes?_eq_some.mp hbytes⟩

/-- The files can be taken as they are. -/
theorem here (h : Idle c path location others s) : Idle c path location s.files s :=
  ⟨h.kept, fun _ _ => rfl, h.idle⟩

/-- No file but the log differs from the files that are given. -/
theorem sameBut (h : Idle c path location others s)
    (hlog : ∃ bytes, others.node? location = some (.file bytes)) :
    FileTree.SameBut location others s.files := ⟨h.others, hlog, h.log_file⟩

/-- Batches for stored jobs, their number and the queue change at most the condition of the log. -/
theorem after (h : Idle c path location others s) {batch : Batch} (hc : c.Writes batch c')
    {parts : List Part} (hw : Part.Within [] parts batch) (hlow : ∀ part ∈ parts, part.rank < 3) :
    Idle c' path location others (s.after batch) := by
  have hwrite : Store.write batch s = .ok () (s.after batch) :=
    Store.write_ok (by rw [h.granted]; simp) batch
  obtain ⟨records, hlog⟩ := h.kept.log
  refine ⟨h.kept.write hc hwrite, fun l hl => ?_, fun part hpart key => ?_⟩
  · exact (Store.node?_after hlog batch hl).trans (h.others l hl)
  · rw [Store.table_after]
    refine (Batch.get?_apply_of_not_mem fun op hop he => ?_).trans (h.idle part hpart key)
    obtain ⟨written, hmem, -, k, hk⟩ := hw op hop
    have hrank := hlow written hmem
    exact Part.apart_of_rank_ne (by omega) k key (hk.symm.trans he)

/-! ### Plain verbs -/

theorem write (h : Idle c path location others s) {batch : Batch} (hc : c.Writes batch c')
    {parts : List Part} (hw : Part.Within [] parts batch) (hlow : ∀ part ∈ parts, part.rank < 3)
    (hwrite : Store.write batch s = .ok () t) : Idle c' path location others t := by
  rw [Store.write_ok (by rw [h.granted]; simp)] at hwrite
  cases hwrite
  exact h.after hc hw hlow

theorem putJob [Job J] (h : Idle c path location others s) {job : J}
    (hc : c.Writes (filing job) c') (hput : Plain.putJob job s = .ok () t) :
    Idle c' path location others t := by
  obtain ⟨counter, u, hcount, hwrite⟩ := Runs.bind_eq_ok.mp hput
  obtain ⟨rfl, hspace⟩ := counter_ok hcount
  have hops : pendingSpace.Holds counter.stageIncrement.2 := by
    intro op hop
    rw [List.mem_singleton.mp hop, ← hspace]
    exact ⟨_, rfl⟩
  exact h.write (writes_filing hc hspace) (within_jobs_pending rfl hops) (by decide) hwrite

theorem dropJob (h : Idle c path location others s) {id : JobId}
    (hdrop : Plain.dropJob id s = .ok () t) : Idle c path location others t := by
  obtain ⟨counter, u, hcount, hwrite⟩ := Runs.bind_eq_ok.mp hdrop
  obtain ⟨rfl, hspace⟩ := counter_ok hcount
  have hops : pendingSpace.Holds counter.stageDecrement.2 := by
    simp only [Counter.stageDecrement]
    split
    · exact OrderedSet.holds_nil _
    · intro op hop
      rw [List.mem_singleton.mp hop, ← hspace]
      exact ⟨_, rfl⟩
  exact h.write (.framed (framed_dropping hspace id)) (within_jobs_pending rfl hops) (by decide)
    hwrite

theorem addRunnable (h : Idle c path location others s) {id : JobId}
    (hadd : Plain.addRunnable id s = .ok () t) : Idle c path location others t := by
  rw [Plain.addRunnable, Runs.discard_apply] at hadd
  split at hadd
  · rename_i hput
    cases hadd
    obtain ⟨set, set', hset, hput⟩ := onSet_ok hput
    have hspace := OrderedSet.space_of_stored hset
    rw [OrderedSet.put_run, h.granted, if_neg (by simp : ¬ (none : Option Nat) = some 0)] at hput
    split at hput
    · cases hput
      exact h
    · cases hput
      have hholds := OrderedSet.holds_additions set id.bytes
      rw [hspace] at hholds
      exact h.after (.framed (framed_additions hspace id))
        (Part.within_of_holds .runnable trivial hholds) (by decide)
  · cases hadd

theorem pop (h : Idle c path location others s) {id : JobId}
    (hpop : Plain.pop s = .ok id.bytes t) : Idle c path location others t := by
  obtain ⟨set, set', hset, htake⟩ := onSet_ok hpop
  have hspace := OrderedSet.space_of_stored hset
  obtain ⟨b, hdelete⟩ := takeHead_ok htake
  rcases OrderedSet.delete_ok hdelete with rfl | ⟨seq, rfl⟩
  · exact h
  · have hholds := OrderedSet.holds_removal set seq id.bytes
    rw [hspace] at hholds
    exact h.after (.framed (framed_removal hspace seq id))
      (Part.within_of_holds .runnable trivial hholds) (by decide)

theorem removeRunnable {parse : Parser J} (h : Idle c path location others s) {job : J}
    (hremove : Plain.removeRunnable parse s = .ok job t) : Idle c path location others t := by
  obtain ⟨key, u, hpop, hafterPop⟩ := Runs.bind_eq_ok.mp hremove
  obtain ⟨id, v, hread, hafterRead⟩ := Runs.bind_eq_ok.mp hafterPop
  obtain ⟨rfl, hid⟩ := Runs.ofExcept_eq_ok.mp hread
  obtain rfl := eq_bytes_of_ofBytes hid
  obtain ⟨job', w, hget, hafterGet⟩ := Runs.bind_eq_ok.mp hafterRead
  obtain rfl := getJob_ok (afterDequeue_eq_ok hget)
  obtain ⟨_, x, hdrop, hdone⟩ := Runs.bind_eq_ok.mp hafterGet
  cases hdone
  exact (h.pop hpop).dropJob (afterDequeue_eq_ok hdrop)

end Idle

end Scheduler

end WorkQueue
