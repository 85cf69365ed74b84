import WorkQueue.Proofs.Scheduler.Push

/-!
# Tidy books

`Tidy` says that the books of a queue of linked jobs tell the truth about a ledger: a queued job
misses nothing, and any other stored job misses something and is noted under all that it misses.
A push keeps this (`Tidy.push`). The execution of a job breaks it for the jobs that waited for it
(`Tidy.execute`), and it is mended for one of them after the other (`Tidy.settle`).
-/

namespace WorkQueue

namespace Books

variable {J : Type} [Job J]

theorem job?_eq_none {b : Books J} {id : JobId} :
    b.job? id = none ↔ ∀ job ∈ b.jobs, Job.id job ≠ id := by
  simp [job?, List.find?_eq_none]

theorem isSome_job? {b : Books J} {id : JobId} :
    (b.job? id).isSome = true ↔ ∃ job ∈ b.jobs, Job.id job = id := by
  simp [job?, List.find?_isSome]

theorem jobs_push {b : Books J} {job : J} (h : b.job? (Job.id job) = none) (waits : List JobId) :
    (b.push job waits).jobs = job :: b.jobs := by
  rw [push, jobs_note, put, List.filter_eq_self.mpr]
  intro other hother
  simpa using job?_eq_none.mp h other hother

theorem mem_queue_push {b : Books J} {job : J} {waits : List JobId} {id : JobId} :
    id ∈ (b.push job waits).queue.members ↔
      id ∈ b.queue.members ∨ waits = [] ∧ id = Job.id job := by
  cases waits <;> simp [push, note, enqueue, register, put]

theorem mem_waiting_push {b : Books J} {job : J} {waits : List JobId} {d id : JobId} :
    id ∈ ((b.push job waits).waiting d).members ↔
      id ∈ (b.waiting d).members ∨ d ∈ waits ∧ id = Job.id job := by
  rw [push, note]
  split
  · rename_i h
    rw [List.isEmpty_iff.mp h]
    simp [enqueue, put]
  · by_cases hd : d ∈ waits <;> simp [register, put, hd]

/-- One job fewer is stored without one that was. -/
theorem length_drop {b : Books J} (hd : (b.jobs.map Job.id).Nodup) {job : J} (h : job ∈ b.jobs) :
    (b.drop (Job.id job)).jobs.length + 1 = b.jobs.length := by
  obtain ⟨jobs, queue, waiting, pending⟩ := b
  simp only [drop] at hd h ⊢
  induction jobs with
  | nil => cases h
  | cons first rest ih =>
    rw [List.map_cons, List.nodup_cons] at hd
    rcases List.mem_cons.mp h with rfl | h
    · have hall : ∀ j ∈ rest, decide (Job.id j ≠ Job.id job) = true := fun j hj =>
        decide_eq_true fun he => hd.1 (he ▸ List.mem_map_of_mem hj)
      rw [List.filter_cons_of_neg (by simp), List.filter_eq_self.mpr hall, List.length_cons]
    · have hne : Job.id first ≠ Job.id job := fun he => hd.1 (he ▸ List.mem_map_of_mem h)
      rw [List.filter_cons_of_pos (by simpa using hne), List.length_cons, List.length_cons, ih hd.2 h]

/-- Of two stored jobs with one id, both are the same. -/
theorem eq_of_id_eq {b : Books J} (hd : (b.jobs.map Job.id).Nodup) {job other : J}
    (h : job ∈ b.jobs) (ho : other ∈ b.jobs) (he : Job.id job = Job.id other) : job = other := by
  have hjob := job?_of_mem hd h
  rw [he, job?_of_mem hd ho] at hjob
  exact (Option.some.inj hjob).symm

theorem mem_drop {b : Books J} {id : JobId} {job : J} :
    job ∈ (b.drop id).jobs ↔ job ∈ b.jobs ∧ Job.id job ≠ id := by
  simp [drop]

omit [Job J] in
theorem mem_waiting_release {b : Books J} {dependency d id : JobId} :
    id ∈ ((b.release dependency).waiting d).members ↔
      d ≠ dependency ∧ id ∈ (b.waiting d).members := by
  by_cases h : d = dependency <;> simp [release, h]

end Books

namespace Ledger

theorem mem_mark {ledger : Ledger} {id other : JobId} :
    other ∈ ledger.mark id ↔ other = id ∨ other ∈ ledger := by
  rw [mark]
  split
  · rename_i h
    exact ⟨.inr, fun ho => ho.elim (fun he => he ▸ h) fun h => h⟩
  · exact List.mem_cons

end Ledger

theorem LinkedJob.missing_eq_nil {ledger : Ledger} {job : LinkedJob} :
    job.missing ledger = [] ↔ ∀ d ∈ job.dependencies, d ∈ ledger := by
  simp [List.eq_nil_iff_forall_not_mem, LinkedJob.mem_missing]

/-- A recorder finds no dependency pending that is not missing. -/
theorem LinkedJob.find?_of_missing_nil {ledger : Ledger} {job : LinkedJob}
    (h : job.missing ledger = []) : job.dependencies.find? (· ∉ ledger) = none := by
  rw [List.find?_eq_none]
  intro d hd
  simpa using LinkedJob.missing_eq_nil.mp h d hd

theorem LinkedJob.mem_missing_mark {ledger : Ledger} {job : LinkedJob} {executed id : JobId} :
    id ∈ job.missing (ledger.mark executed) ↔ id ∈ job.missing ledger ∧ id ≠ executed := by
  rw [LinkedJob.mem_missing, LinkedJob.mem_missing, Ledger.mem_mark, not_or, and_assoc,
    and_comm (a := id ≠ executed)]

namespace Scheduler

/-- The books tell the truth about a ledger, but for the jobs of `todo`, which may miss nothing
and stand outside the queue. -/
structure Tidy (pool : List LinkedJob) (ledger : Ledger) (todo : List JobId)
    (b : Books LinkedJob) : Prop where
  pooled : ∀ job ∈ b.jobs, job ∈ pool
  distinct : (b.jobs.map Job.id).Nodup
  counted : b.pending = b.jobs.length
  queued : ∀ id ∈ b.queue.members, ∃ job ∈ b.jobs, Job.id job = id ∧ job.missing ledger = []
  waiting : ∀ d, ∀ id ∈ (b.waiting d).members,
    ∃ job ∈ b.jobs, Job.id job = id ∧ d ∈ job.missing ledger
  noted : ∀ job ∈ b.jobs, ∀ d ∈ job.missing ledger, Job.id job ∈ (b.waiting d).members
  blocked : ∀ job ∈ b.jobs, Job.id job ∉ b.queue.members → Job.id job ∉ todo →
    job.missing ledger ≠ []
  expected : ∀ id ∈ todo, ∃ job ∈ b.jobs, Job.id job = id

namespace Tidy

variable {pool : List LinkedJob} {ledger : Ledger} {todo : List JobId} {b : Books LinkedJob}

theorem empty : Tidy pool ledger [] .empty :=
  ⟨nofun, .nil, rfl, nofun, fun _ => nofun, nofun, nofun, nofun⟩

/-- A new job is queued, or noted under all that it misses. -/
theorem push (h : Tidy pool ledger [] b) {job : LinkedJob} (hpool : job ∈ pool)
    (hnew : b.job? (Job.id job) = none) :
    Tidy pool ledger [] (b.push job (job.missing ledger)) := by
  have hjobs := Books.jobs_push hnew (job.missing ledger)
  have hmem : ∀ other, other ∈ (b.push job (job.missing ledger)).jobs ↔
      other = job ∨ other ∈ b.jobs := fun other => by rw [hjobs, List.mem_cons]
  refine ⟨fun other ho => ?_, ?_, ?_, fun id hid => ?_, fun d id hid => ?_, fun other ho d hd => ?_,
    fun other ho hq _ => ?_, nofun⟩
  · rcases (hmem other).mp ho with rfl | ho
    · exact hpool
    · exact h.pooled other ho
  · rw [hjobs, List.map_cons, List.nodup_cons, List.mem_map]
    refine ⟨?_, h.distinct⟩
    rintro ⟨other, ho, he⟩
    exact Books.job?_eq_none.mp hnew other ho he
  · rw [Books.push, Books.pending_note, ← Books.push, hjobs, List.length_cons, ← h.counted]
    rfl
  · rcases Books.mem_queue_push.mp hid with hid | ⟨hnil, rfl⟩
    · obtain ⟨other, ho, rest⟩ := h.queued id hid
      exact ⟨other, (hmem other).mpr (.inr ho), rest⟩
    · exact ⟨job, (hmem job).mpr (.inl rfl), rfl, hnil⟩
  · rcases Books.mem_waiting_push.mp hid with hid | ⟨hd, rfl⟩
    · obtain ⟨other, ho, rest⟩ := h.waiting d id hid
      exact ⟨other, (hmem other).mpr (.inr ho), rest⟩
    · exact ⟨job, (hmem job).mpr (.inl rfl), rfl, hd⟩
  · rw [Books.mem_waiting_push]
    rcases (hmem other).mp ho with rfl | ho
    · exact .inr ⟨hd, rfl⟩
    · exact .inl (h.noted other ho d hd)
  · rw [Books.mem_queue_push, not_or] at hq
    rcases (hmem other).mp ho with rfl | ho
    · exact fun hnil => hq.2 ⟨hnil, rfl⟩
    · exact h.blocked other ho hq.1 List.not_mem_nil

/-- A queued job misses nothing, so it does not wait for anything. -/
theorem waiting_ne (h : Tidy pool ledger todo b) {queued : JobId}
    (hq : queued ∈ b.queue.members) {d id : JobId} (hid : id ∈ (b.waiting d).members) :
    ∃ other ∈ b.jobs, Job.id other = id ∧ Job.id other ≠ queued ∧ d ∈ other.missing ledger := by
  obtain ⟨other, ho, hoid, hd⟩ := h.waiting d id hid
  refine ⟨other, ho, hoid, fun he => ?_, hd⟩
  obtain ⟨job, hjob, hjobid, hnil⟩ := h.queued queued hq
  obtain rfl := Books.eq_of_id_eq h.distinct ho hjob (he.trans hjobid.symm)
  rw [hnil] at hd
  cases hd

/-- The first job is executed and leaves the books. Those that waited for it are to be looked at. -/
theorem execute (h : Tidy pool ledger [] b) {job : LinkedJob} {rest : List JobId}
    (hq : b.queue.members = Job.id job :: rest) (hnodup : b.queue.members.Nodup)
    (hjob : job ∈ b.jobs) :
    Tidy pool (ledger.mark (Job.id job)) (b.waiting (Job.id job)).members
      ((b.dequeue.drop (Job.id job)).release (Job.id job)) := by
  have hmem : ∀ other, other ∈ ((b.dequeue.drop (Job.id job)).release (Job.id job)).jobs ↔
      other ∈ b.jobs ∧ Job.id other ≠ Job.id job := fun other => Books.mem_drop (b := b.dequeue)
  have hnot : Job.id job ∉ rest := (List.nodup_cons.mp (hq ▸ hnodup)).1
  have hqueue : ((b.dequeue.drop (Job.id job)).release (Job.id job)).queue.members = rest := by
    show b.queue.members.tail = rest
    rw [hq, List.tail_cons]
  have hother : ∀ d, ∀ id ∈ (b.waiting d).members, ∃ other ∈ b.jobs, Job.id other = id ∧
      Job.id other ≠ Job.id job ∧ d ∈ other.missing ledger := fun d id hid =>
    h.waiting_ne (hq ▸ List.mem_cons_self) hid
  refine ⟨fun other ho => h.pooled other ((hmem other).mp ho).1,
    h.distinct.sublist (List.filter_sublist.map _), ?_, fun id hid => ?_, fun d id hid => ?_,
    fun other ho d hd => ?_, fun other ho hout htodo => ?_, fun id hid => ?_⟩
  · have hlen := Books.length_drop (b := b.dequeue) h.distinct hjob
    have hcount := h.counted
    show b.pending - 1 = (b.dequeue.drop (Job.id job)).jobs.length
    have hsame : b.dequeue.jobs.length = b.jobs.length := rfl
    omega
  · rw [hqueue] at hid
    obtain ⟨other, ho, rfl, hnil⟩ := h.queued id (hq ▸ List.mem_cons_of_mem _ hid)
    refine ⟨other, (hmem other).mpr ⟨ho, fun he => hnot (he ▸ hid)⟩, rfl, ?_⟩
    rw [List.eq_nil_iff_forall_not_mem] at hnil ⊢
    exact fun d hd => hnil d (LinkedJob.mem_missing_mark.mp hd).1
  · obtain ⟨hne, hid⟩ := Books.mem_waiting_release.mp hid
    obtain ⟨other, ho, hoid, hone, hd⟩ := hother d id hid
    exact ⟨other, (hmem other).mpr ⟨ho, hone⟩, hoid, LinkedJob.mem_missing_mark.mpr ⟨hd, hne⟩⟩
  · obtain ⟨hd, hne⟩ := LinkedJob.mem_missing_mark.mp hd
    exact Books.mem_waiting_release.mpr ⟨hne, h.noted other ((hmem other).mp ho).1 d hd⟩
  · obtain ⟨ho, hone⟩ := (hmem other).mp ho
    rw [hqueue] at hout
    have hout' : Job.id other ∉ b.queue.members := by
      rw [hq, List.mem_cons, not_or]
      exact ⟨hone, hout⟩
    obtain ⟨d, hd⟩ := List.exists_mem_of_ne_nil _ (h.blocked other ho hout' List.not_mem_nil)
    refine List.ne_nil_of_mem (LinkedJob.mem_missing_mark.mpr ⟨hd, ?_⟩)
    rintro rfl
    exact htodo (h.noted other ho _ hd)
  · obtain ⟨other, ho, hoid, hone, -⟩ := hother _ id hid
    exact ⟨other, (hmem other).mpr ⟨ho, hone⟩, hoid⟩

/-- The next job that is to be looked at is queued if it misses nothing. -/
theorem settle {job : LinkedJob} (h : Tidy pool ledger (Job.id job :: todo) b)
    (hjob : job ∈ b.jobs) :
    Tidy pool ledger todo
      (if job.missing ledger = [] then b.enqueue (Job.id job) else b) := by
  have hsame : ∀ other ∈ b.jobs, Job.id other = Job.id job → other = job := fun other ho he =>
    Books.eq_of_id_eq h.distinct ho hjob he
  split
  · rename_i hnil
    refine ⟨h.pooled, h.distinct, h.counted, fun id hid => ?_, h.waiting, h.noted,
      fun other ho hq htodo => ?_, fun id hid => h.expected id (List.mem_cons_of_mem _ hid)⟩
    · rcases Roll.mem_add.mp hid with hid | rfl
      · exact h.queued id hid
      · exact ⟨job, hjob, rfl, hnil⟩
    · have hq : Job.id other ∉ b.queue.members ∧ Job.id other ≠ Job.id job := by
        rw [← not_or, ← Roll.mem_add]
        exact hq
      refine h.blocked other ho hq.1 ?_
      rw [List.mem_cons, not_or]
      exact ⟨hq.2, htodo⟩
  · rename_i hsome
    refine ⟨h.pooled, h.distinct, h.counted, h.queued, h.waiting, h.noted,
      fun other ho hq htodo => ?_, fun id hid => h.expected id (List.mem_cons_of_mem _ hid)⟩
    by_cases he : Job.id other = Job.id job
    · rw [hsame other ho he]
      exact hsome
    · refine h.blocked other ho hq ?_
      rw [List.mem_cons, not_or]
      exact ⟨he, htodo⟩

end Tidy

end Scheduler

end WorkQueue
