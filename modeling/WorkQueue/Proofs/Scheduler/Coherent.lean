import WorkQueue.Proofs.Cache
import WorkQueue.Proofs.Scheduler.Plain
import WorkQueue.Scheduler.Drain

/-!
# Memory agrees with the store

A scheduler keeps cached jobs, tails of sets and the number of pending jobs in memory. `Coherent`
says that all of this is what the store holds. Every verb keeps it, and gives and writes what the
plain verb does, which has no memory (`Mirrors`).

`Mirrors.bind` puts actions together, and an action on one part of the memory need only be looked at
with that part (`Local`, `mirrors_onJobs`, `mirrors_onDependents`, `mirrors_onRunnable`,
`mirrors_onMissing`).
-/

namespace WorkQueue.Scheduler

variable {J α β : Type}

/-! ## Coherence -/

/-- Cached jobs are those that the store holds. -/
structure JobsAgree (parse : Parser J) (jobs : JobStore J) (t : Table) : Prop where
  space_eq : jobs.space = jobsSpace
  parse_eq : jobs.parse = parse
  cached : jobs.caching = true → ∀ id job, jobs.cache.find? id = some job →
    ∃ bytes, jobsSpace.view t id.bytes = some bytes ∧ parse bytes = .ok job

/-- Remembered buckets are those that the store holds, and belong to ids of the list. -/
structure BucketsAgree (ids : List JobId) (d : Dependents) (t : Table) : Prop where
  space_eq : d.space = dependentsSpace
  bucket : d.caching = true → ∀ dependency bucket, d.buckets.find? dependency = some bucket →
    dependency ∈ ids ∧ OrderedSet.stored (bucketSpace dependency) t = .ok bucket

/-- A set in memory is the one that the store holds. -/
structure SetAgrees (space : Namespace) (set : IdSet) (t : Table) : Prop where
  space_eq : set.space = space
  order : OrderedSet.stored space t = .ok set.order

/-- The number in memory is the stored one. -/
structure CountAgrees (counter : Counter) (t : Table) : Prop where
  space_eq : counter.space = pendingSpace
  count : pendingSpace.view t Counter.key = some (BigEndian.encodeWord counter.count)

/-- What a scheduler has in memory is what the store holds. -/
structure Coherent (ids : List JobId) (parse : Parser J) (live : Live (Scheduler J)) : Prop where
  jobs : JobsAgree parse live.memory.jobs live.store.table
  dependents : BucketsAgree ids live.memory.dependents live.store.table
  runnable : SetAgrees runnableSpace live.memory.runnable live.store.table
  missing : SetAgrees missingSpace live.memory.missing live.store.table
  pending : CountAgrees live.memory.pending live.store.table

section Frames

variable {ids : List JobId} {parse : Parser J} {t t' : Table}

theorem JobsAgree.of_view {jobs : JobStore J} (h : JobsAgree parse jobs t)
    (hv : jobsSpace.view t' = jobsSpace.view t) : JobsAgree parse jobs t' :=
  ⟨h.space_eq, h.parse_eq, by rw [hv]; exact h.cached⟩

theorem BucketsAgree.of_view {d : Dependents} (h : BucketsAgree ids d t)
    (hv : ∀ id ∈ ids, (bucketSpace id).view t' = (bucketSpace id).view t) :
    BucketsAgree ids d t' := by
  refine ⟨h.space_eq, fun hcaching dependency bucket hf => ?_⟩
  obtain ⟨hid, hb⟩ := h.bucket hcaching dependency bucket hf
  exact ⟨hid, (OrderedSet.stored_of_view (hv dependency hid)).trans hb⟩

theorem SetAgrees.of_view {space : Namespace} {set : IdSet} (h : SetAgrees space set t)
    (hv : space.view t' = space.view t) : SetAgrees space set t' :=
  ⟨h.space_eq, (OrderedSet.stored_of_view hv).trans h.order⟩

theorem CountAgrees.of_view {counter : Counter} (h : CountAgrees counter t)
    (hv : pendingSpace.view t' = pendingSpace.view t) : CountAgrees counter t' :=
  ⟨h.space_eq, by rw [hv]; exact h.count⟩

end Frames

/-! ## Mirroring -/

theorem afterDequeue_ok {σ : Type} {id : JobId} {x : LiveM σ α} {a : α} {s t : Live σ}
    (h : x s = .ok a t) : afterDequeue id x s = .ok a t := Runs.tryCatch_of_ok h

theorem afterDequeue_error {σ : Type} {id : JobId} {x : LiveM σ α} {e : Error} {s t : Live σ}
    (h : x s = .error e t) : afterDequeue id x s = .error (e.dequeued id) t :=
  Runs.tryCatch_of_error h

/-- An action gives what a plain action on the store gives, and keeps what is in memory coherent. -/
def Mirrors (ids : List JobId) (parse : Parser J) (x : LiveM (Scheduler J) α) (y : StoreM α) :
    Prop :=
  ∀ live, Coherent ids parse live →
    Runs.mapState Live.store (x live) = y live.store ∧ Coherent ids parse (Runs.final (x live))

namespace Mirrors

variable {ids : List JobId} {parse : Parser J}

theorem of_ok {x : LiveM (Scheduler J) α} {y : StoreM α} (h : Mirrors ids parse x y)
    {live : Live (Scheduler J)} (hc : Coherent ids parse live) {a : α} {s : Store}
    (hy : y live.store = .ok a s) :
    ∃ live', x live = .ok a live' ∧ live'.store = s ∧ Coherent ids parse live' := by
  obtain ⟨hr, hc'⟩ := h live hc
  cases hx : x live with
  | ok a' live' =>
    rw [hx, hy] at hr
    rw [hx] at hc'
    cases hr
    exact ⟨live', rfl, rfl, hc'⟩
  | error e live' =>
    rw [hx, hy] at hr
    cases hr

theorem of_error {x : LiveM (Scheduler J) α} {y : StoreM α} (h : Mirrors ids parse x y)
    {live : Live (Scheduler J)} (hc : Coherent ids parse live) {e : Error} {s : Store}
    (hy : y live.store = .error e s) :
    ∃ live', x live = .error e live' ∧ live'.store = s ∧ Coherent ids parse live' := by
  obtain ⟨hr, hc'⟩ := h live hc
  cases hx : x live with
  | ok a' live' =>
    rw [hx, hy] at hr
    cases hr
  | error e' live' =>
    rw [hx, hy] at hr
    rw [hx] at hc'
    cases hr
    exact ⟨live', rfl, rfl, hc'⟩

theorem ofExcept (r : Except Error α) :
    Mirrors ids parse (MonadExcept.ofExcept r : LiveM (Scheduler J) α) (MonadExcept.ofExcept r) := by
  intro live hc
  cases r <;> exact ⟨rfl, hc⟩

theorem bind {x : LiveM (Scheduler J) α} {y : StoreM α} {f : α → LiveM (Scheduler J) β}
    {g : α → StoreM β} (h : Mirrors ids parse x y) (hf : ∀ a, Mirrors ids parse (f a) (g a)) :
    Mirrors ids parse (x >>= f) (y >>= g) := by
  intro live hc
  obtain ⟨hr, hc'⟩ := h live hc
  rw [Runs.bind_apply, Runs.bind_apply, ← hr]
  cases hx : x live with
  | ok a live' =>
    rw [hx] at hc'
    exact hf a live' hc'
  | error e live' =>
    rw [hx] at hc'
    exact ⟨rfl, hc'⟩

theorem map {x : LiveM (Scheduler J) α} {y : StoreM α} (h : Mirrors ids parse x y) (f : α → β) :
    Mirrors ids parse (do return f (← x)) (do return f (← y)) :=
  h.bind fun _ _ hc => ⟨rfl, hc⟩

theorem afterDequeue {x : LiveM (Scheduler J) α} {y : StoreM α} (h : Mirrors ids parse x y)
    (id : JobId) : Mirrors ids parse (afterDequeue id x) (Plain.afterDequeue id y) := by
  intro live hc
  obtain ⟨hr, hc'⟩ := h live hc
  cases hx : x live with
  | ok a live' =>
    rw [hx] at hr hc'
    rw [afterDequeue_ok hx, Plain.afterDequeue_ok hr.symm]
    exact ⟨rfl, hc'⟩
  | error e live' =>
    rw [hx] at hr hc'
    rw [afterDequeue_error hx, Plain.afterDequeue_error hr.symm]
    exact ⟨rfl, hc'⟩

end Mirrors

/-! ## Actions on one part -/

/-- An action on what is kept in memory of a part: it gives what the plain action gives, keeps the
memory in agreement, and writes nothing outside the part. -/
def Local {σ : Type} (ids : List JobId) (part : Part) (Agree : σ → Table → Prop)
    (x : LiveM σ α) (y : StoreM α) : Prop :=
  ∀ live, Agree live.memory live.store.table →
    Runs.mapState Live.store (x live) = y live.store ∧
    Agree (Runs.final (x live)).memory (Runs.final (x live)).store.table ∧
    ∃ batch, Part.Within ids [part] batch ∧
      (Runs.final (x live)).store.table = batch.apply live.store.table

section Parts

variable {ids : List JobId} {parse : Parser J}

/-- What memory has of the other parts agrees with the store after a batch. -/
theorem Coherent.frame (hids : Hashed ids) {live : Live (Scheduler J)}
    (h : Coherent ids parse live) {parts : List Part} {batch : Batch}
    (hw : Part.Within ids parts batch) :
    (.jobs ∉ parts → JobsAgree parse live.memory.jobs (batch.apply live.store.table)) ∧
    ((∀ id ∈ ids, .bucket id ∉ parts) →
      BucketsAgree ids live.memory.dependents (batch.apply live.store.table)) ∧
    (.runnable ∉ parts →
      SetAgrees runnableSpace live.memory.runnable (batch.apply live.store.table)) ∧
    (.missing ∉ parts →
      SetAgrees missingSpace live.memory.missing (batch.apply live.store.table)) ∧
    (.pending ∉ parts → CountAgrees live.memory.pending (batch.apply live.store.table)) := by
  refine ⟨fun hp => h.jobs.of_view ?_, fun hp => h.dependents.of_view fun id hid => ?_,
    fun hp => h.runnable.of_view ?_, fun hp => h.missing.of_view ?_,
    fun hp => h.pending.of_view ?_⟩
  · exact Part.view_apply hids hw .jobs trivial hp _
  · exact Part.view_apply hids hw (.bucket id) hid (hp id hid) _
  · exact Part.view_apply hids hw .runnable trivial hp _
  · exact Part.view_apply hids hw .missing trivial hp _
  · exact Part.view_apply hids hw .pending trivial hp _

theorem mapState_onPart {σ τ : Type} (part : σ → τ) (restore : σ → τ → σ) (x : LiveM τ α)
    (live : Live σ) :
    Runs.mapState Live.store (LiveM.onPart part restore x live) =
      Runs.mapState Live.store (x ⟨part live.memory, live.store⟩) := by
  rw [LiveM.onPart]
  cases x ⟨part live.memory, live.store⟩ <;> rfl

theorem final_onPart {σ τ : Type} (part : σ → τ) (restore : σ → τ → σ) (x : LiveM τ α)
    (live : Live σ) :
    Runs.final (LiveM.onPart part restore x live) =
      ⟨restore live.memory (Runs.final (x ⟨part live.memory, live.store⟩)).memory,
        (Runs.final (x ⟨part live.memory, live.store⟩)).store⟩ := by
  rw [LiveM.onPart]
  cases x ⟨part live.memory, live.store⟩ <;> rfl

theorem final_onStore {σ : Type} (action : StoreM α) (live : Live σ) :
    Runs.final (LiveM.onStore action live) = ⟨live.memory, Runs.final (action live.store)⟩ := by
  rw [LiveM.onStore]
  cases action live.store <;> rfl

theorem mirrors_onJobs (hids : Hashed ids) {x : LiveM (JobStore J) α} {y : StoreM α}
    (h : Local ids .jobs (JobsAgree parse) x y) : Mirrors ids parse (onJobs x) y := by
  intro live hc
  obtain ⟨hr, hj, batch, hw, ht⟩ := h ⟨live.memory.jobs, live.store⟩ hc.jobs
  obtain ⟨-, hdep, hrun, hmiss, hpend⟩ := hc.frame hids hw
  rw [onJobs, mapState_onPart, final_onPart]
  exact ⟨hr, hj, ht ▸ hdep (by simp), ht ▸ hrun (by simp), ht ▸ hmiss (by simp),
    ht ▸ hpend (by simp)⟩

theorem mirrors_onDependents (hids : Hashed ids) {dependency : JobId} {x : LiveM Dependents α}
    {y : StoreM α} (h : Local ids (.bucket dependency) (BucketsAgree ids) x y) :
    Mirrors ids parse (onDependents x) y := by
  intro live hc
  obtain ⟨hr, hd, batch, hw, ht⟩ := h ⟨live.memory.dependents, live.store⟩ hc.dependents
  obtain ⟨hjobs, -, hrun, hmiss, hpend⟩ := hc.frame hids hw
  rw [onDependents, mapState_onPart, final_onPart]
  exact ⟨hr, ht ▸ hjobs (by simp), hd, ht ▸ hrun (by simp), ht ▸ hmiss (by simp),
    ht ▸ hpend (by simp)⟩

theorem mirrors_onRunnable (hids : Hashed ids) {x : LiveM IdSet α} {y : StoreM α}
    (h : Local ids .runnable (SetAgrees runnableSpace) x y) :
    Mirrors ids parse (onRunnable x) y := by
  intro live hc
  obtain ⟨hr, hs, batch, hw, ht⟩ := h ⟨live.memory.runnable, live.store⟩ hc.runnable
  obtain ⟨hjobs, hdep, -, hmiss, hpend⟩ := hc.frame hids hw
  rw [onRunnable, mapState_onPart, final_onPart]
  exact ⟨hr, ht ▸ hjobs (by simp), ht ▸ hdep (by simp), hs, ht ▸ hmiss (by simp),
    ht ▸ hpend (by simp)⟩

theorem mirrors_onMissing (hids : Hashed ids) {x : LiveM IdSet α} {y : StoreM α}
    (h : Local ids .missing (SetAgrees missingSpace) x y) :
    Mirrors ids parse (onMissing x) y := by
  intro live hc
  obtain ⟨hr, hs, batch, hw, ht⟩ := h ⟨live.memory.missing, live.store⟩ hc.missing
  obtain ⟨hjobs, hdep, hrun, -, hpend⟩ := hc.frame hids hw
  rw [onMissing, mapState_onPart, final_onPart]
  exact ⟨hr, ht ▸ hjobs (by simp), ht ▸ hdep (by simp), ht ▸ hrun (by simp), hs,
    ht ▸ hpend (by simp)⟩

end Parts

end WorkQueue.Scheduler
