import WorkQueue.Proofs.Scheduler.Rolls
import WorkQueue.Proofs.Scheduler.Verbs

/-!
# The books of a queue

`Books` are what a scheduler keeps, in the abstract: the stored jobs and their number, the runnable
queue, and for each id the jobs that wait for it. Each verb that changes a scheduler has its like on
books, and the lemmas say which job stands under an id after it.
-/

namespace WorkQueue

/-- What a scheduler keeps. -/
structure Books (J : Type) where
  /-- The stored jobs, whose ids differ. -/
  jobs : List J
  queue : Roll
  /-- The jobs that wait, by the id they wait for. -/
  waiting : JobId → Roll
  /-- The number of pending jobs. -/
  pending : Nat

namespace Books

variable {J : Type} [Job J]

/-- The books of a queue that has never been used. -/
def empty : Books J := ⟨[], .empty, fun _ => .empty, 0⟩

/-- The job stored under an id. -/
def job? (b : Books J) (id : JobId) : Option J := b.jobs.find? fun job => Job.id job = id

/-- Stores a job, in place of one with the same id. -/
def put (b : Books J) (job : J) : Books J :=
  { b with
    jobs := job :: b.jobs.filter fun j => Job.id j ≠ Job.id job
    pending := b.pending + 1 }

/-- Takes a job out of the stored jobs. -/
def drop (b : Books J) (id : JobId) : Books J :=
  { b with
    jobs := b.jobs.filter fun j => Job.id j ≠ id
    pending := b.pending - 1 }

/-- Puts an id at the end of the queue, unless it is in the queue. -/
def enqueue (b : Books J) (id : JobId) : Books J := { b with queue := b.queue.add id }

/-- Takes the first id out of the queue. -/
def dequeue (b : Books J) : Books J := { b with queue := b.queue.tail }

/-- Notes that a job waits for another. -/
def wait (b : Books J) (dependency dependent : JobId) : Books J :=
  { b with waiting := fun d =>
      if d = dependency then (b.waiting d).add dependent else b.waiting d }

/-- Forgets who waits for a job. -/
def release (b : Books J) (dependency : JobId) : Books J :=
  { b with waiting := fun d => if d = dependency then (b.waiting d).cleared else b.waiting d }

theorem mem_of_job? {b : Books J} {id : JobId} {job : J} (h : b.job? id = some job) :
    job ∈ b.jobs ∧ Job.id job = id :=
  ⟨List.mem_of_find?_eq_some h, by simpa using List.find?_some h⟩

theorem job?_of_mem {b : Books J} (hd : (b.jobs.map Job.id).Nodup) {job : J} (h : job ∈ b.jobs) :
    b.job? (Job.id job) = some job := by
  obtain ⟨jobs, queue, waiting, pending⟩ := b
  simp only [job?] at hd h ⊢
  induction jobs with
  | nil => cases h
  | cons first rest ih =>
    rw [List.map_cons, List.nodup_cons] at hd
    rcases List.mem_cons.mp h with rfl | h
    · simp
    · have hne : Job.id first ≠ Job.id job := fun he =>
        hd.1 (he ▸ List.mem_map_of_mem h)
      rw [List.find?_cons_of_neg (by simpa using hne)]
      exact ih hd.2 h

private theorem find?_filter_ne (jobs : List J) (id other : JobId) :
    (jobs.filter fun j => Job.id j ≠ id).find? (fun j => Job.id j = other) =
      if other = id then none else jobs.find? fun j => Job.id j = other := by
  rw [List.find?_filter]
  split
  · rename_i h
    rw [List.find?_eq_none]
    intro j _
    simp [h]
  · rename_i h
    congr 1
    funext j
    by_cases hj : Job.id j = other <;> simp [hj, h]

theorem job?_put (b : Books J) (job : J) (id : JobId) :
    (b.put job).job? id = if id = Job.id job then some job else b.job? id := by
  rw [job?, put, List.find?_cons, find?_filter_ne]
  by_cases h : Job.id job = id
  · simp [h]
  · have h' : id ≠ Job.id job := fun he => h he.symm
    simp [h, h', job?]

theorem job?_drop (b : Books J) (id other : JobId) :
    (b.drop id).job? other = if other = id then none else b.job? other :=
  find?_filter_ne b.jobs id other

end Books

end WorkQueue
