import WorkQueue.Job.Linked
import WorkQueue.Proofs.OrderedSet.Contents
import WorkQueue.Proofs.Scheduler.Verbs

/-!
# What a failed dequeue leaves behind

A dequeue takes the first key out of the runnable queue before it reads the key as an id, looks the
job up and takes it out of the store. Here nothing is supposed of the entries of the store, nor of
what is in memory.

* `pop_error`, `pop_ok`: the first step changes nothing if it fails; if it succeeds, the first key
  has left the queue (`Leaves`), or had no sequence number, and nothing has changed either;
* `dequeue_fatal`: behind the reading of the key, every error is a `dequeue` and so fatal, if only
  the parser returns;
* `dequeue_error`: so an error that is not fatal means that nothing has changed, unless the key that
  has left the queue is no id. For such a key the error is not fatal, though the key is gone.
-/

namespace WorkQueue.Scheduler

open OrderedSet (listed indexKey readSeq)

variable {J : Type} {live popped failed : Live (Scheduler J)} {key : Bytes} {e : Error}

/-- The keys in the runnable queue, oldest first, ids or not. -/
def queueKeys (live : Live (Scheduler J)) : List Bytes :=
  (listed live.memory.runnable.order.space live.store.table).map (·.2)

/-! ## Taking the first key out -/

/-- The first key of the queue has a sequence number and is granted to leave, and what it leaves
behind is `left`. -/
structure Leaves (live : Live (Scheduler J)) (key : Bytes) (left : Live (Scheduler J)) : Prop where
  first : (queueKeys live).head? = some key
  granted : live.store.writesLeft ≠ some 0
  removed : ∃ value seq,
    live.memory.runnable.order.space.view live.store.table (indexKey key) = some value ∧
      readSeq value = .ok seq ∧
      left = ⟨live.memory, live.store.after (live.memory.runnable.order.removal seq key)⟩

theorem pop_eq (live : Live (Scheduler J)) :
    onRunnable IdSet.pop live = match queueKeys live with
      | [] => .error .notFound live
      | key :: _ => match live.memory.runnable.order.delete key live.store with
        | .ok _ t => .ok key ⟨live.memory, t⟩
        | .error e t => .error e ⟨live.memory, t⟩ := by
  simp only [onRunnable, LiveM.onPart, pop_run, Plain.takeHead_run, queueKeys]
  cases (listed live.memory.runnable.order.space live.store.table).map (·.2) with
  | nil => rfl
  | cons key rest =>
    simp only
    cases live.memory.runnable.order.delete key live.store <;> rfl

theorem pop_error (h : onRunnable IdSet.pop live = .error e failed) : failed = live := by
  rw [pop_eq] at h
  cases hkeys : queueKeys live with
  | nil =>
    rw [hkeys] at h
    cases h
    rfl
  | cons key rest =>
    simp only [hkeys] at h
    cases hdelete : live.memory.runnable.order.delete key live.store with
    | ok b t =>
      rw [hdelete] at h
      cases h
    | error e' t =>
      rw [hdelete] at h
      cases h
      obtain rfl := OrderedSet.delete_error hdelete
      rfl

theorem pop_ok (h : onRunnable IdSet.pop live = .ok key popped) :
    popped = live ∨ Leaves live key popped := by
  rw [pop_eq] at h
  cases hkeys : queueKeys live with
  | nil =>
    rw [hkeys] at h
    cases h
  | cons first rest =>
    simp only [hkeys, OrderedSet.delete_run] at h
    cases hvalue : live.memory.runnable.order.space.view live.store.table (indexKey first) with
    | none =>
      simp only [hvalue] at h
      cases h
      exact .inl rfl
    | some value =>
      cases hseq : readSeq value with
      | error e =>
        simp only [hvalue, hseq] at h
        cases h
      | ok seq =>
        by_cases hw : live.store.writesLeft = some 0
        · simp only [hvalue, hseq, if_pos hw] at h
          cases h
        · simp only [hvalue, hseq, if_neg hw] at h
          cases h
          exact .inr ⟨by rw [hkeys]; rfl, hw, value, seq, hvalue, hseq, rfl⟩

namespace Leaves

variable {left : Live (Scheduler J)}

theorem pop (h : Leaves live key left) : onRunnable IdSet.pop live = .ok key left := by
  obtain ⟨hfirst, hw, value, seq, hvalue, hseq, rfl⟩ := h
  obtain ⟨rest, hkeys⟩ := List.head?_eq_some_iff.mp hfirst
  simp only [pop_eq, hkeys, OrderedSet.delete_run, hvalue, hseq, if_neg hw]

/-- The key had a sequence number and has none now. -/
theorem table_ne (h : Leaves live key left) : left.store.table ≠ live.store.table := by
  intro he
  obtain ⟨-, hw, value, seq, hvalue, hseq, rfl⟩ := h
  have hdelete : live.memory.runnable.order.delete key live.store =
      .ok true (live.store.after (live.memory.runnable.order.removal seq key)) := by
    simp only [OrderedSet.delete_run, hvalue, hseq, if_neg hw]
  have hgone := OrderedSet.indexed_delete hdelete key
  have hindexed :
      OrderedSet.indexed live.memory.runnable.order.space live.store.table key = true := by
    rw [OrderedSet.indexed, hvalue]
    rfl
  rw [he] at hgone
  exact (hgone.mp hindexed).2 rfl

end Leaves

/-! ## The steps behind it -/

/-- The parser does not return on some bytes. -/
def Unreturning (parse : Parser J) : Prop := ∃ bytes, parse bytes = .error .panicked

theorem fetch_panicked {id : JobId} {part left : Live (JobStore J)}
    (h : JobStore.fetch id part = .error .panicked left) : Unreturning part.memory.parse := by
  simp only [JobStore.fetch, LiveM.renew, Runs.bind_apply, Namespace.get_run] at h
  cases hview : part.memory.space.view part.store.table id.bytes with
  | none =>
    rw [hview] at h
    cases h
  | some bytes =>
    simp only [hview] at h
    cases hparse : part.memory.parse bytes with
    | ok job =>
      rw [hparse] at h
      cases h
    | error e =>
      rw [hparse] at h
      cases h
      exact ⟨bytes, hparse⟩

/-- Of a look-up, only the parser can fail to return. -/
theorem getJob_panicked {id : JobId} {left : Live (Scheduler J)}
    (h : getJob id live = .error .panicked left) : Unreturning live.memory.jobs.parse := by
  simp only [getJob, onJobs, LiveM.onPart] at h
  cases hget : JobStore.get id ⟨live.memory.jobs, live.store⟩ with
  | ok job part =>
    rw [hget] at h
    cases h
  | error e part =>
    rw [hget] at h
    cases h
    simp only [JobStore.get, LiveM.memory, Runs.bind_apply] at hget
    split at hget
    · simp only [Runs.bind_apply, LiveM.update] at hget
      cases hfound : (live.memory.jobs.cache.get id).1 with
      | none =>
        rw [hfound] at hget
        exact fetch_panicked hget
      | some job =>
        rw [hfound] at hget
        cases hget
    · exact fetch_panicked hget

/-- Once the key has been read as an id, every error is reported as that of a dequeue, unless the
parser does not return. -/
theorem dequeue_fatal {id : JobId} (hid : JobId.ofBytes key = .ok id)
    (hpop : onRunnable IdSet.pop live = .ok key popped)
    (h : removeRunnable live = .error e failed) :
    e.isFatal = true ∨ e = .panicked ∧ Unreturning live.memory.jobs.parse := by
  rw [removeRunnable_eq, Runs.bind_of_ok hpop, hid, Runs.bind_apply, Runs.ofExcept_ok] at h
  rcases Runs.bind_eq_error.mp h with hget | ⟨job, found, -, hdrop⟩
  · cases hx : getJob id popped with
    | ok job found =>
      rw [afterDequeue_ok hx] at hget
      cases hget
    | error cause found =>
      rw [afterDequeue_error hx] at hget
      cases hget
      by_cases hcause : cause = .panicked
      · subst hcause
        have hmemory : popped.memory = live.memory := by
          rcases pop_ok hpop with rfl | ⟨-, -, _, _, -, -, rfl⟩ <;> rfl
        exact .inr ⟨rfl, hmemory ▸ getJob_panicked hx⟩
      · rw [Error.dequeued_of_ne hcause]
        exact .inl rfl
  · rw [dropJob_run] at hdrop
    split at hdrop <;> cases hdrop
    exact .inl rfl

theorem removeRunnable_of_stray (hpop : onRunnable IdSet.pop live = .ok key popped)
    (hkey : key.length ≠ 32) :
    removeRunnable live = .error (.idLength key.length) popped := by
  have hid : JobId.ofBytes key = .error (.idLength key.length) := by
    rw [JobId.ofBytes, JobId.ofBytes?, dif_neg hkey]
  rw [removeRunnable_eq, Runs.bind_of_ok hpop, hid]
  rfl

theorem exists_ofBytes (h : key.length = 32) : ∃ id, JobId.ofBytes key = .ok id := by
  rw [JobId.ofBytes, JobId.ofBytes?, dif_pos h]
  exact ⟨_, rfl⟩

/-! ## The whole dequeue -/

/-- If a dequeue fails with an error that is not fatal, either nothing has changed, in memory or in
the store, or a key that is no id has left the queue. Whenever a key leaves the queue the store
changes; then every error is fatal if the key is an id, and if it is none the error is not. What is
no error is a parser that does not return. -/
theorem dequeue_error (live : Live (Scheduler J)) :
    (∀ e failed, removeRunnable live = .error e failed → e.isFatal = false →
      failed = live ∨
        (∃ key, Leaves live key failed ∧ key.length ≠ 32 ∧ e = .idLength key.length) ∨
        e = .panicked ∧ Unreturning live.memory.jobs.parse) ∧
    ∀ key left, Leaves live key left → left.store.table ≠ live.store.table ∧
      (key.length = 32 → ∀ e failed, removeRunnable live = .error e failed →
        e.isFatal = true ∨ e = .panicked ∧ Unreturning live.memory.jobs.parse) ∧
      (key.length ≠ 32 → removeRunnable live = .error (.idLength key.length) left ∧
        (Error.idLength key.length).isFatal = false) := by
  refine ⟨fun e failed h hfatal => ?_, fun key left hleaves => ⟨hleaves.table_ne, ?_, ?_⟩⟩
  · cases hpop : onRunnable IdSet.pop live with
    | error e' failed' =>
      rw [removeRunnable_eq, Runs.bind_of_error hpop] at h
      cases h
      exact .inl (pop_error hpop)
    | ok key popped =>
      by_cases hkey : key.length = 32
      · obtain ⟨id, hid⟩ := exists_ofBytes hkey
        rcases dequeue_fatal hid hpop h with hfatal' | hpanic
        · cases hfatal.symm.trans hfatal'
        · exact .inr (.inr hpanic)
      · cases h.symm.trans (removeRunnable_of_stray hpop hkey)
        exact (pop_ok hpop).imp_right fun hleaves => .inl ⟨key, hleaves, hkey, rfl⟩
  · intro hkey e failed h
    obtain ⟨id, hid⟩ := exists_ofBytes hkey
    exact dequeue_fatal hid hleaves.pop h
  · exact fun hkey => ⟨removeRunnable_of_stray hleaves.pop hkey, rfl⟩

/-- A store with a runnable queue whose only key has three bytes. -/
def strayQueue : Store :=
  (Store.volatile .empty).after (OrderedSet.additions ⟨runnableSpace, 0⟩ [97, 98, 99])

theorem dequeue_error_strayQueue : ∃ scheduler t left,
    load LinkedJob.parse ⟨true, 4, 4, ""⟩ none strayQueue = .ok scheduler t ∧
    Leaves ⟨scheduler, t⟩ [97, 98, 99] left ∧
    removeRunnable ⟨scheduler, t⟩ = .error (.idLength 3) left ∧
    (Error.idLength 3).isFatal = false ∧ left.store.table ≠ t.table := by
  have hqueue : (match load LinkedJob.parse ⟨true, 4, 4, ""⟩ none strayQueue with
    | .error _ _ => false
    | .ok scheduler t =>
      (queueKeys ⟨scheduler, t⟩).head? == some [97, 98, 99] && t.writesLeft == none &&
        scheduler.runnable.order.space.view t.table (indexKey [97, 98, 99]) ==
          some (BigEndian.encodeWord 0)) = true := by decide +kernel
  cases hload : load LinkedJob.parse ⟨true, 4, 4, ""⟩ none strayQueue with
  | error e t =>
    rw [hload] at hqueue
    cases hqueue
  | ok scheduler t =>
    simp only [hload, Bool.and_eq_true, beq_iff_eq] at hqueue
    obtain ⟨⟨hfirst, hleft⟩, hindex⟩ := hqueue
    have hleaves : Leaves ⟨scheduler, t⟩ [97, 98, 99] ⟨scheduler, t.after _⟩ :=
      ⟨hfirst, by rw [hleft]; decide, _, 0, hindex, OrderedSet.readSeq_encodeWord 0, rfl⟩
    obtain ⟨hchanged, -, hstray⟩ := (dequeue_error ⟨scheduler, t⟩).2 _ _ hleaves
    obtain ⟨hrun, hfatal⟩ := hstray (by decide)
    exact ⟨scheduler, t, _, rfl, hleaves, hrun, hfatal, hchanged⟩

end WorkQueue.Scheduler
