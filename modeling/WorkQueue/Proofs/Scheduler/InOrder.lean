import WorkQueue.Proofs.Scheduler.History
import WorkQueue.Proofs.Scheduler.Reached
import WorkQueue.Proofs.Scheduler.Tidy

/-!
# Draining in order

`InOrder` is a scheduler whose books are tidy and whose store grants all writes. Such a scheduler
carries out a release (`InOrder.release`), a round (`InOrder.round`) and a drain (`InOrder.drain`)
without an error, and is in order afterwards. A drain without a limit empties the queue.
-/

namespace WorkQueue

theorem Recorder.execute_ok {r : Recorder} (hfail : r.failOn = none) {job : LinkedJob}
    (hjob : job.missing r.ledger = []) :
    Recorder.execute job r = .ok ⟨⟩
      { r with ledger := r.ledger.mark (Job.id job), order := r.order ++ [Job.id job] } := by
  rw [Recorder.execute, hfail, LinkedJob.find?_of_missing_nil hjob]
  rfl

/-- The jobs of a pool and those that they depend on. -/
def poolIds (pool : List LinkedJob) : List JobId :=
  pool.flatMap fun job => Job.id job :: job.dependencies

theorem id_mem_poolIds {pool : List LinkedJob} {job : LinkedJob} (h : job ∈ pool) :
    Job.id job ∈ poolIds pool := List.mem_flatMap.mpr ⟨job, h, List.mem_cons_self⟩

theorem missing_subset_poolIds {pool : List LinkedJob} {job : LinkedJob} (h : job ∈ pool)
    (ledger : Ledger) : job.missing ledger ⊆ poolIds pool := fun _ hd =>
  List.mem_flatMap.mpr ⟨job, h, List.mem_cons_of_mem _ (LinkedJob.mem_missing.mp hd).1⟩

/-- The books have a job under an id. -/
def Books.has (b : Books LinkedJob) (id : JobId) : Bool := (b.job? id).isSome

namespace Scheduler

/-- A scheduler keeps tidy books, but for the jobs of `todo`, and may write. -/
structure InOrder (pool : List LinkedJob) (n : Nat) (ledger : Ledger) (todo : List JobId)
    (b : Books LinkedJob) (live : Live (Scheduler LinkedJob)) : Prop where
  keeps : Keeps (poolIds pool) LinkedJob.parse b live
  granted : live.store.writesLeft = none
  bounded : Bounded (poolIds pool) n todo.length b
  tidy : Tidy pool ledger todo b

namespace InOrder

variable {pool : List LinkedJob} {n : Nat} {b : Books LinkedJob} {live : Live (Scheduler LinkedJob)}

/-- The jobs that are to be looked at are released one after the other. -/
theorem release (hids : Hashed (poolIds pool)) (hn : n < UInt64.size) (r : Recorder) :
    ∀ (todo : List JobId) (b : Books LinkedJob) (live : Live (Scheduler LinkedJob)),
      InOrder pool n r.ledger todo b live →
      ∃ b' live', Scheduler.release Recorder.runner todo (r, live) = .ok ⟨⟩ (r, live') ∧
        InOrder pool n r.ledger [] b' live' ∧ b'.jobs = b.jobs
  | [], b, live, h => ⟨b, live, rfl, h, rfl⟩
  | id :: todo, b, live, h => by
    obtain ⟨job, hjob, rfl⟩ := h.tidy.expected id List.mem_cons_self
    have hsettle := h.tidy.settle hjob
    obtain ⟨found, hget, hfound, hstore⟩ :=
      h.keeps.getJob hids (Books.job?_of_mem h.tidy.distinct hjob)
    have hgranted : found.store.writesLeft = none := hstore ▸ h.granted
    have hrunner : Recorder.runner.missing r job = .ok (job.missing r.ledger) := rfl
    rw [release_cons, releaseOne_run, hget]
    simp only [hrunner]
    cases hmissing : job.missing r.ledger with
    | nil =>
      rw [if_pos hmissing] at hsettle
      have hqueue := h.bounded.queue
      rw [List.length_cons] at hqueue
      rcases hfound.addRunnable hids (Job.id job) fun _ => by omega with
        ⟨added, hadd, hadded, hw⟩ | ⟨hw, -⟩
      · obtain ⟨b', live', hrest, hlive', hjobs⟩ := release hids hn r todo _ added
          ⟨hadded, hw hgranted, h.bounded.enqueue _, hsettle⟩
        simp only [hadd, hrest]
        exact ⟨b', live', rfl, hlive', hjobs⟩
      · rw [hgranted] at hw
        cases hw
    | cons d ds =>
      rw [if_neg (by simp [hmissing])] at hsettle
      obtain ⟨b', live', hrest, hlive', hjobs⟩ := release hids hn r todo b found
        ⟨hfound, hgranted, h.bounded.mono (Nat.le_refl n) (Nat.le_succ _), hsettle⟩
      simp only [hrest]
      exact ⟨b', live', rfl, hlive', hjobs⟩

/-- The first job is executed, and those that waited for it are released. -/
theorem round (hids : Hashed (poolIds pool)) (hn : n < UInt64.size) {r : Recorder}
    (hfail : r.failOn = none) (h : InOrder pool n r.ledger [] b live) {id : JobId}
    {rest : List JobId} (hq : b.queue.members = id :: rest) :
    ∃ b' live', executeNext Recorder.runner (r, live) = .ok ⟨⟩
        ({ r with ledger := r.ledger.mark id, order := r.order ++ [id] }, live') ∧
      InOrder pool n (r.ledger.mark id) [] b' live' ∧ b.has id = true ∧
      (∀ other, b'.has other = (!decide (other = id) && b.has other)) ∧
      b'.jobs.length + 1 = b.jobs.length := by
  obtain ⟨job, hjob, rfl, hmissing⟩ := h.tidy.queued id (hq ▸ List.mem_cons_self)
  have hstored := Books.job?_of_mem h.tidy.distinct hjob
  have hid := h.bounded.named job hjob
  have hexecute := h.tidy.execute hq h.keeps.filed.queue.nodup hjob
  rcases h.keeps.removeRunnable hids with
    ⟨first, others, job', taken, hq', hjob', htake, htaken, hw⟩ | ⟨hnone, -⟩
  · obtain ⟨rfl, -⟩ := List.cons.inj (hq.symm.trans hq')
    obtain rfl := Option.some.inj (hstored.symm.trans hjob')
    have hgranted := hw h.granted
    rcases htaken.removeDependents hids hid with ⟨cleared, hclear, hcleared, hw'⟩ | ⟨hw', -⟩
    · have howed := (h.bounded.dequeue.drop (Job.id job)).release hid
      rw [List.length_nil, Nat.zero_add] at howed
      obtain ⟨b', live', hrelease, hlive', hjobs⟩ := release hids hn
        { r with ledger := r.ledger.mark (Job.id job), order := r.order ++ [Job.id job] } _ _ cleared
        ⟨hcleared, hw' hgranted, howed, hexecute⟩
      have hjobs' : b'.jobs = (b.drop (Job.id job)).jobs := hjobs
      refine ⟨b', live', ?_, hlive', by rw [Books.has, hstored]; rfl, fun other => ?_, ?_⟩
      · have hrun : Recorder.runner.execute job r = _ := Recorder.execute_ok hfail hmissing
        rw [executeNext_run, htake]
        simp only [hrun, hclear]
        exact hrelease
      · rw [Books.has, Books.job?, hjobs', ← Books.job?, Books.job?_drop, Books.has]
        by_cases he : other = Job.id job <;> simp [he]
      · rw [hjobs']
        exact Books.length_drop h.tidy.distinct hjob
    · rw [hgranted] at hw'
      cases hw'
  · rw [hnone h.granted _ _ hq] at hstored
    cases hstored

/-- There are rounds for all stored jobs. -/
theorem length_lt_roundLimit {ids : List JobId} {parse : Parser LinkedJob}
    (h : Keeps ids parse b live) : b.jobs.length < roundLimit live := by
  have hnodup : (b.jobs.map fun job => jobsSpace.key (Job.id job).bytes).Nodup := by
    have hinj : Function.Injective fun id : JobId => jobsSpace.key id.bytes := fun _ _ he =>
      JobId.ext (Namespace.key_inj.mp he)
    have hmap := h.filed.distinct.map hinj
    rwa [List.map_map] at hmap
  have hsubset : (b.jobs.map fun job => jobsSpace.key (Job.id job).bytes) ⊆
      (live.store.table.scan jobsSpace.lead).map (·.1) := by
    intro key hkey
    obtain ⟨job, hjob, rfl⟩ := List.mem_map.mp hkey
    have hview := h.filed.jobs (Job.id job)
    rw [Books.job?_of_mem h.filed.distinct hjob] at hview
    exact List.mem_map.mpr ⟨_, Table.mem_scan.mpr ⟨List.prefix_append _ _, hview⟩, rfl⟩
  have hlen := hnodup.length_le_of_subset hsubset
  rw [List.length_map, List.length_map] at hlen
  rw [roundLimit, h.coherent.jobs.space_eq]
  omega

/-- A drain executes jobs until the limit is reached or the queue is empty. -/
theorem drain (hids : Hashed (poolIds pool)) (hn : n < UInt64.size) (limit : Option Nat) :
    ∀ (rounds executed : Nat) (r : Recorder) (b : Books LinkedJob)
      (live : Live (Scheduler LinkedJob)), r.failOn = none → InOrder pool n r.ledger [] b live →
      ∃ k ran ledger b' live', drainFrom Recorder.runner limit rounds executed (r, live) =
          .ok k ({ r with ledger, order := r.order ++ ran }, live') ∧
        InOrder pool n ledger [] b' live' ∧ (∀ id, id ∈ ledger ↔ id ∈ r.ledger ∨ id ∈ ran) ∧
        (∀ history, Alternating history b.has → Alternating (history ++ ran.map .executed) b'.has) ∧
        (limit = none → b.jobs.length < rounds → b'.queue.members = [])
  | 0, executed, r, b, live, _, h =>
    ⟨executed, [], r.ledger, b, live, by rw [List.append_nil]; rfl, h, by simp, by simp, by simp⟩
  | rounds + 1, executed, r, b, live, hfail, h => by
    rw [drainFrom_succ, h.keeps.hasRunnable]
    split
    · rename_i hreached
      refine ⟨executed, [], r.ledger, b, live, by rw [List.append_nil], h, by simp, by simp, ?_⟩
      rintro rfl
      cases hreached
    · cases hq : b.queue.members with
      | nil =>
        exact ⟨executed, [], r.ledger, b, live, by rw [List.append_nil]; rfl, h, by simp, by simp,
          fun _ _ => hq⟩
      | cons id rest =>
        obtain ⟨b₁, live₁, hround, h₁, hhas, hhas₁, hlen⟩ := h.round hids hn hfail hq
        obtain ⟨k, ran, ledger, b', live', hrest, h', hledger, hhistory, hempty⟩ :=
          drain hids hn limit rounds (executed + 1)
            { r with ledger := r.ledger.mark id, order := r.order ++ [id] } b₁ live₁ hfail h₁
        refine ⟨k, id :: ran, ledger, b', live', ?_, h', fun other => ?_, fun history hb => ?_,
          fun hl hr => hempty hl (by omega)⟩
        · simp only [List.isEmpty_cons, Bool.not_false, hround, hrest, List.append_assoc,
            List.singleton_append]
        · rw [hledger other, Ledger.mem_mark, List.mem_cons]
          tauto
        · rw [List.map_cons, List.append_cons]
          exact hhistory _ (hb.execute hhas hhas₁)

/-- A job is pushed unless it is stored. -/
theorem push (hids : Hashed (poolIds pool)) {ledger : Ledger} (h : InOrder pool n ledger [] b live)
    {job : LinkedJob} (hpool : job ∈ pool) (hbytes : job.dependencies.length < UInt8.size)
    (hroom : n + 1 + job.dependencies.length < UInt64.size)
    {missing : LinkedJob → Except Error (List JobId)}
    (hmissing : missing job = .ok (job.missing ledger)) :
    (b.has (Job.id job) = true ∧ Scheduler.push missing job live = .ok false live) ∨
    (b.has (Job.id job) = false ∧ ∃ b' live', Scheduler.push missing job live = .ok true live' ∧
      InOrder pool (n + 1 + job.dependencies.length) ledger [] b' live' ∧
      ∀ other, b'.has other = (decide (other = Job.id job) || b.has other)) := by
  cases hnew : b.job? (Job.id job) with
  | some other =>
    have hhas : b.has (Job.id job) = true := by
      rw [Books.has, hnew]
      rfl
    exact .inl ⟨hhas, h.keeps.push_known missing hhas⟩
  | none =>
    have hp := h.bounded.pending
    have hq := h.bounded.queue
    have hjob := LinkedJob.parse_encode job hbytes
    rcases h.keeps.push_new hids hnew hmissing hjob (missing_subset_poolIds hpool ledger) (by omega)
        (by omega) (fun d => by have := h.bounded.waiting d; omega) with
      ⟨live', hok, hlive', hw⟩ | ⟨hw, -⟩ | ⟨hw, -⟩
    · refine .inr ⟨by rw [Books.has, hnew]; rfl, _, live', hok, ⟨hlive', hw h.granted,
        h.bounded.push (id_mem_poolIds hpool) (job.length_missing_le ledger),
        h.tidy.push hpool hnew⟩, fun other => ?_⟩
      rw [Books.has, Books.job?, Books.push, Books.jobs_note, ← Books.job?, Books.job?_put, Books.has]
      by_cases he : other = Job.id job <;> simp [he]
    · rw [h.granted] at hw
      cases hw
    · exact absurd h.granted hw

end InOrder

end Scheduler

end WorkQueue
