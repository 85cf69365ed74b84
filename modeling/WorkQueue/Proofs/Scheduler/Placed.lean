import WorkQueue.Proofs.OrderedSet.Contents
import WorkQueue.Proofs.Scheduler.Drain
import WorkQueue.Proofs.Scheduler.Verbs

/-!
# A scheduler over any entries

`Placed` says of a scheduler that each of its parts works in its own namespace, and that the stored
jobs, both sets and the number of pending jobs are in memory as the store has them. Nothing is
supposed of the entries of the store, nor of hashes.

The lemmas `Placed.*` say what the verbs of the drain do to the queue and to the buckets, as their
entries stand, and the lemmas `preserves_*` that verbs leave a scheduler placed, whatever comes of
them.
-/

namespace WorkQueue.Scheduler

open OrderedSet (indexed listed)

variable {J : Type}

/-- Remembered buckets work in their namespaces. -/
structure BucketsPlaced (d : Dependents) : Prop where
  space_eq : d.space = dependentsSpace
  bucket : d.caching = true → ∀ dependency bucket, d.buckets.find? dependency = some bucket →
    bucket.space = bucketSpace dependency

/-- The parts of a scheduler work in their namespaces, and have in memory what the store has. -/
structure Placed (parse : Parser J) (live : Live (Scheduler J)) : Prop where
  jobs : JobsAgree parse live.memory.jobs live.store.table
  dependents : BucketsPlaced live.memory.dependents
  runnable : SetAgrees runnableSpace live.memory.runnable live.store.table
  missing : SetAgrees missingSpace live.memory.missing live.store.table
  pending : CountAgrees live.memory.pending live.store.table

theorem Coherent.placed {ids : List JobId} {parse : Parser J} {live : Live (Scheduler J)}
    (h : Coherent ids parse live) : Placed parse live :=
  ⟨h.jobs, ⟨h.dependents.space_eq, fun hcaching dependency bucket hf =>
    OrderedSet.space_of_stored (h.dependents.bucket hcaching dependency bucket hf).2⟩, h.runnable,
    h.missing, h.pending⟩

/-- Of a store only the table counts, not its log nor whether it refuses writes. -/
theorem Placed.of_table {parse : Parser J} {live : Live (Scheduler J)} (h : Placed parse live)
    {store : Store} (ht : store.table = live.store.table) : Placed parse ⟨live.memory, store⟩ := by
  obtain ⟨hjobs, hdependents, hrunnable, hmissing, hpending⟩ := h
  rw [← ht] at hjobs hrunnable hmissing hpending
  exact ⟨hjobs, hdependents, hrunnable, hmissing, hpending⟩

/-! ## What a table holds -/

/-- The job that a table holds under an id. -/
def storedJob (parse : Parser J) (t : Table) (id : JobId) : Except Error J :=
  match jobsSpace.view t id.bytes with
  | none => .error .notFound
  | some bytes => parse bytes

/-- An id is in the runnable queue. -/
def Queued (t : Table) (id : JobId) : Prop := indexed runnableSpace t id.bytes = true

/-- A job is noted among those that wait for another. -/
def Registered (t : Table) (dependency id : JobId) : Prop :=
  id.bytes ∈ (listed (bucketSpace dependency) t).map (·.2)

instance (t : Table) (dependency id : JobId) : Decidable (Registered t dependency id) :=
  inferInstanceAs (Decidable (_ ∈ _))

theorem registered_iff {t : Table} {dependency id : JobId} :
    Registered t dependency id ↔
      ∃ key, [OrderedSet.memberTag] <+: key ∧ (bucketSpace dependency).view t key = some id.bytes := by
  rw [Registered, listed, List.mem_map]
  constructor
  · rintro ⟨⟨key, value⟩, h, rfl⟩
    exact ⟨key, Namespace.mem_entries.mp h⟩
  · rintro ⟨key, h⟩
    exact ⟨(key, id.bytes), Namespace.mem_entries.mpr h, rfl⟩

/-- Two tables differ within one part only. -/
def OnlyIn (part : Part) (t t' : Table) : Prop :=
  ∃ batch, part.space.Holds batch ∧ t' = Batch.apply batch t

namespace OnlyIn

variable {part : Part} {t t' : Table}

theorem refl (part : Part) (t : Table) : OnlyIn part t t :=
  ⟨[], OrderedSet.holds_nil _, rfl⟩

theorem trans {t'' : Table} (h : OnlyIn part t t') (h' : OnlyIn part t' t'') :
    OnlyIn part t t'' := by
  obtain ⟨batch, hb, rfl⟩ := h
  obtain ⟨batch', hb', rfl⟩ := h'
  refine ⟨batch ++ batch', fun op hop => ?_, (Batch.apply_append _ _ _).symm⟩
  exact (List.mem_append.mp hop).elim (hb op) (hb' op)

/-- Parts of another kind look the same. -/
theorem view (h : OnlyIn part t t') (other : Part) (hne : part.rank ≠ other.rank) :
    other.space.view t' = other.space.view t := by
  obtain ⟨batch, hb, rfl⟩ := h
  exact Namespace.view_apply (Part.apart_of_rank_ne hne) hb t

theorem storedJob (h : OnlyIn part t t') (hne : part.rank ≠ Part.jobs.rank) (parse : Parser J)
    (id : JobId) : storedJob parse t' id = Scheduler.storedJob parse t id := by
  have hview : jobsSpace.view t' = jobsSpace.view t := h.view .jobs hne
  rw [Scheduler.storedJob, Scheduler.storedJob, hview]

theorem queued (h : OnlyIn part t t') (hne : part.rank ≠ Part.runnable.rank) (id : JobId) :
    Queued t' id ↔ Queued t id := by
  have hview : runnableSpace.view t' = runnableSpace.view t := h.view .runnable hne
  rw [Queued, Queued, indexed, indexed, hview]

theorem registered (h : OnlyIn part t t') (dependency : JobId)
    (hne : part.rank ≠ (Part.bucket dependency).rank) (id : JobId) :
    Registered t' dependency id ↔ Registered t dependency id := by
  have hview : (bucketSpace dependency).view t' = (bucketSpace dependency).view t :=
    h.view (.bucket dependency) hne
  rw [registered_iff, registered_iff, hview]

end OnlyIn

/-! ## Verbs -/

theorem addRunnable_run (id : JobId) (live : Live (Scheduler J)) :
    addRunnable id live = match live.memory.runnable.order.put id.bytes live.store with
      | .ok r t => .ok ⟨⟩
        ⟨{ live.memory with runnable := { live.memory.runnable with order := r.2 } }, t⟩
      | .error e t => .error e ⟨live.memory, t⟩ := by
  rw [addRunnable, onRunnable, LiveM.onPart, Runs.discard_apply]
  simp only [IdSet.push, LiveM.renew, Runs.bind_apply]
  cases live.memory.runnable.order.put id.bytes live.store <;> rfl

namespace Placed

variable {parse : Parser J} {live : Live (Scheduler J)}

/-- What memory has of the parts agrees with a table that differs in another part. -/
theorem frame (h : Placed parse live) {part : Part} {t : Table}
    (ht : OnlyIn part live.store.table t) :
    (part.rank ≠ Part.jobs.rank → JobsAgree parse live.memory.jobs t) ∧
    (part.rank ≠ Part.runnable.rank → SetAgrees runnableSpace live.memory.runnable t) ∧
    (part.rank ≠ Part.missing.rank → SetAgrees missingSpace live.memory.missing t) ∧
    (part.rank ≠ Part.pending.rank → CountAgrees live.memory.pending t) :=
  ⟨fun hne => h.jobs.of_view (ht.view .jobs hne),
    fun hne => h.runnable.of_view (ht.view .runnable hne),
    fun hne => h.missing.of_view (ht.view .missing hne),
    fun hne => h.pending.of_view (ht.view .pending hne)⟩

/-- Other buckets in memory, after a change in one of the store. -/
theorem with_dependents (h : Placed parse live) {dependency : JobId} {t : Store}
    (ht : OnlyIn (.bucket dependency) live.store.table t.table) {d : Dependents}
    (hd : BucketsPlaced d) : Placed parse ⟨{ live.memory with dependents := d }, t⟩ := by
  obtain ⟨hjobs, hrunnable, hmissing, hpending⟩ := h.frame ht
  exact ⟨hjobs (by simp [Part.rank]), hd, hrunnable (by simp [Part.rank]),
    hmissing (by simp [Part.rank]), hpending (by simp [Part.rank])⟩

theorem hasJob (h : Placed parse live) (id : JobId) : Scheduler.hasJob id live =
    .ok (jobsSpace.view live.store.table id.bytes).isSome live := by
  simp only [Scheduler.hasJob, Runs.bind_apply, LiveM.memory, LiveM.onStore, h.jobs.has,
    Plain.hasJob, Namespace.has_run]

theorem getJob (h : Placed parse live) (id : JobId) :
    ∃ live', Scheduler.getJob id live =
        (MonadExcept.ofExcept (storedJob parse live.store.table id) : LiveM (Scheduler J) J) live' ∧
      live'.store = live.store ∧ Placed parse live' := by
  have hlocal : Local [] .jobs (JobsAgree parse) (JobStore.get id) (Plain.getJob parse id) :=
    local_getJob id
  obtain ⟨hr, hj, -⟩ := hlocal ⟨live.memory.jobs, live.store⟩ h.jobs
  have hplain : Plain.getJob parse id live.store =
      (MonadExcept.ofExcept (storedJob parse live.store.table id) : StoreM J) live.store := by
    rw [Plain.getJob, Runs.bind_apply, Namespace.get_run, storedJob]
    cases jobsSpace.view live.store.table id.bytes <;> rfl
  have hplaced : ∀ part : Live (JobStore J), JobsAgree parse part.memory part.store.table →
      part.store = live.store → Placed parse ⟨{ live.memory with jobs := part.memory }, part.store⟩ := by
    intro part hj hstore
    rw [hstore] at hj ⊢
    exact ⟨hj, h.dependents, h.runnable, h.missing, h.pending⟩
  rw [hplain] at hr
  rw [Scheduler.getJob, onJobs, LiveM.onPart]
  cases hx : JobStore.get id ⟨live.memory.jobs, live.store⟩ with
  | ok job part =>
    rw [hx] at hr hj
    cases hs : storedJob parse live.store.table id with
    | error e =>
      rw [hs] at hr
      cases hr
    | ok job' =>
      rw [hs] at hr
      obtain ⟨rfl, hstore⟩ := EStateM.Result.ok.inj hr
      exact ⟨_, rfl, hstore, hplaced part hj hstore⟩
  | error e part =>
    rw [hx] at hr hj
    cases hs : storedJob parse live.store.table id with
    | error e' =>
      rw [hs] at hr
      obtain ⟨rfl, hstore⟩ := EStateM.Result.error.inj hr
      exact ⟨_, rfl, hstore, hplaced part hj hstore⟩
    | ok job =>
      rw [hs] at hr
      cases hr

/-- The queue has the id then, or nothing changes. -/
theorem addRunnable (h : Placed parse live) (id : JobId) :
    (∃ live', Scheduler.addRunnable id live = .ok ⟨⟩ live' ∧ Placed parse live' ∧
      OnlyIn .runnable live.store.table live'.store.table ∧
      ∀ other, Queued live'.store.table other ↔ Queued live.store.table other ∨ other = id) ∨
    ∃ e, Scheduler.addRunnable id live = .error e live := by
  obtain ⟨hspace, horder⟩ := h.runnable
  have hset := OrderedSet.space_of_stored horder
  have hsteady := OrderedSet.steady_put id.bytes
  rw [addRunnable_run]
  cases hput : live.memory.runnable.order.put id.bytes live.store with
  | error e t =>
    obtain rfl := hsteady.error hput
    exact .inr ⟨e, rfl⟩
  | ok r t =>
    obtain ⟨added, set⟩ := r
    obtain ⟨hstored, batch, hb, ht⟩ := hsteady.ok (hset.symm ▸ horder) hput
    rw [hset] at hstored hb
    have honly : OnlyIn .runnable live.store.table t.table := ⟨batch, hb, ht⟩
    obtain ⟨hjobs, -, hmissing, hpending⟩ := h.frame honly
    refine .inl ⟨_, rfl, ⟨hjobs (by decide), h.dependents, ⟨hspace, hstored⟩,
      hmissing (by decide), hpending (by decide)⟩, honly, fun other => ?_⟩
    have hindexed := OrderedSet.indexed_put hput other.bytes
    rw [hset] at hindexed
    exact hindexed.trans (or_congr_right ⟨JobId.ext, congrArg _⟩)

end Placed

/-! ## Buckets -/

theorem eq_bytes_of_ofBytes {bytes : Bytes} {id : JobId} (h : JobId.ofBytes bytes = .ok id) :
    bytes = id.bytes := by
  rw [JobId.ofBytes, JobId.ofBytes?] at h
  by_cases hl : bytes.length = 32
  · rw [dif_pos hl] at h
    cases h
    rfl
  · rw [dif_neg hl] at h
    cases h

/-- Keys that all are ids are the keys of those ids. -/
theorem eq_map_bytes_of_mapM {entries : List (Bytes × Bytes)} {ids : List JobId}
    (h : (entries.mapM fun e => JobId.ofBytes e.2) = .ok ids) :
    entries.map (·.2) = ids.map JobId.bytes := by
  induction entries generalizing ids with
  | nil =>
    cases h
    rfl
  | cons e rest ih =>
    rw [List.mapM_cons] at h
    cases hid : JobId.ofBytes e.2 with
    | error err =>
      rw [hid] at h
      cases h
    | ok id =>
      rw [hid] at h
      cases hrest : rest.mapM fun e => JobId.ofBytes e.2 with
      | error err =>
        rw [hrest] at h
        cases h
      | ok ids' =>
        rw [hrest] at h
        cases h
        rw [List.map_cons, List.map_cons, ih hrest, eq_bytes_of_ofBytes hid]

namespace BucketsPlaced

variable {α : Type} {d : Dependents} {s : Store}

/-- What is remembered after an action on a bucket works in its namespace if the bucket does. -/
theorem remembers (h : BucketsPlaced d) {d' : Dependents} {dependency : JobId}
    {bucket : Option OrderedSet} (hd : d.Remembers d' dependency bucket)
    (hbucket : ∀ b, bucket = some b → b.space = bucketSpace dependency) : BucketsPlaced d' := by
  refine ⟨hd.space_eq.trans h.space_eq, fun hcaching k b hk => ?_⟩
  rw [hd.caching_eq] at hcaching
  rcases hd.found hcaching k b hk with ⟨rfl, hb⟩ | ⟨-, hk⟩
  · exact hbucket b hb.symm
  · exact h.bucket hcaching k b hk

/-- A bucket that is used works in its namespace. -/
theorem space_of_used (h : BucketsPlaced d) {dependency : JobId} {t : Table}
    {bucket : OrderedSet} (hused : d.usedBucket dependency t = .ok bucket) :
    bucket.space = bucketSpace dependency := by
  rw [Dependents.usedBucket] at hused
  split at hused
  · rename_i found hfound
    cases hused
    split at hfound
    · rename_i hcaching
      exact h.bucket hcaching dependency _ hfound
    · cases hfound
  · rw [bucketSpace_of_eq h.space_eq] at hused
    exact OrderedSet.space_of_stored hused

/-- What comes of an action on a bucket that is carried out on some set in the bucket's namespace. -/
def Acts (dependency : JobId) (action : OrderedSet → StoreM (α × OrderedSet)) (s : Store)
    (x : EStateM.Result Error (Live Dependents) α) : Prop :=
  ∃ bucket, bucket.space = bucketSpace dependency ∧
    ((∃ e t d', action bucket s = .error e t ∧ x = .error e ⟨d', t⟩ ∧ BucketsPlaced d') ∨
      ∃ a bucket' t d', action bucket s = .ok (a, bucket') t ∧ x = .ok a ⟨d', t⟩ ∧
        BucketsPlaced d')

/-- An action on a bucket is carried out on some set in the bucket's namespace, unless no set can be
read there. -/
theorem withBucket (h : BucketsPlaced d) (dependency : JobId)
    {action : OrderedSet → StoreM (α × OrderedSet)} (hs : OrderedSet.Steady action) :
    (∃ e d', Dependents.withBucket dependency action ⟨d, s⟩ = .error e ⟨d', s⟩ ∧
      BucketsPlaced d') ∨
      Acts dependency action s (Dependents.withBucket dependency action ⟨d, s⟩) := by
  have hacts := Dependents.withBucket_acts d dependency action s
  rw [Dependents.Acts] at hacts
  cases hused : d.usedBucket dependency s.table with
  | error e =>
    rw [hused] at hacts
    obtain ⟨d', hx, hd⟩ := hacts
    refine .inl ⟨e, d', hx, h.remembers hd fun b hb => ?_⟩
    cases hb
  | ok bucket =>
    have hbucket := h.space_of_used hused
    simp only [hused] at hacts
    refine .inr ⟨bucket, hbucket, ?_⟩
    cases haction : action bucket s with
    | error e t =>
      rw [haction] at hacts
      obtain ⟨d', hx, hd⟩ := hacts
      refine .inl ⟨e, t, d', rfl, hx, h.remembers hd fun b hb => ?_⟩
      cases hb
      exact hbucket
    | ok r t =>
      rw [haction] at hacts
      obtain ⟨d', hx, hd⟩ := hacts
      refine .inr ⟨r.1, r.2, t, d', rfl, hx, h.remembers hd fun b hb => ?_⟩
      cases hb
      exact (hs.inside haction).1.trans hbucket

end BucketsPlaced

namespace Placed

variable {parse : Parser J} {live : Live (Scheduler J)}

/-- All that wait for a job are taken out, or nothing changes in the store. -/
theorem removeDependents (h : Placed parse live) (dependency : JobId) :
    (∃ taken live', Scheduler.removeDependents dependency live = .ok taken live' ∧
      Placed parse live' ∧ OnlyIn (.bucket dependency) live.store.table live'.store.table ∧
      (∀ id, Registered live.store.table dependency id ↔ id ∈ taken) ∧
      ∀ id, ¬ Registered live'.store.table dependency id) ∨
    ∃ e live', Scheduler.removeDependents dependency live = .error e live' ∧
      live'.store = live.store := by
  have hsteady := OrderedSet.steady_takeAll JobId.ofBytes
  rw [Scheduler.removeDependents, onDependents, LiveM.onPart, Dependents.removeAll]
  rcases h.dependents.withBucket (s := live.store) dependency hsteady with
    ⟨e, d', hx, -⟩ | ⟨bucket, hbucket, hacts⟩
  · rw [hx]
    exact .inr ⟨e, _, rfl, rfl⟩
  rcases hacts with ⟨e, t, d', htake, hx, -⟩ | ⟨taken, bucket', t, d', htake, hx, hd'⟩
  · rw [hx]
    exact .inr ⟨e, _, rfl, hsteady.error htake⟩
  · rw [hx]
    obtain ⟨htaken, -, batch, hb, ht⟩ := OrderedSet.takeAll_ok htake
    have hempty := OrderedSet.listed_takeAll htake
    rw [hbucket] at htaken hb hempty
    have honly : OnlyIn (.bucket dependency) live.store.table t.table := ⟨batch, hb, ht⟩
    have hplaced : Placed parse ⟨{ live.memory with dependents := d' }, t⟩ :=
      h.with_dependents honly hd'
    refine .inl ⟨taken, _, rfl, hplaced, honly,
      fun id => ?_, fun id hid => ?_⟩
    · rw [Registered, eq_map_bytes_of_mapM htaken, List.mem_map]
      constructor
      · rintro ⟨other, hmem, he⟩
        rwa [← JobId.ext he]
      · exact fun hmem => ⟨id, hmem, rfl⟩
    · rw [Registered, hempty] at hid
      cases hid

end Placed

/-! ## What verbs preserve -/

section Preserves

variable {parse : Parser J} {α : Type}

open Runs (Preserves)

/-- What is done to a set leaves it in memory as the store has it, and changes no other part. -/
def InSet (part : Part) (t : Table) (live : Live IdSet) : Prop :=
  SetAgrees part.space live.memory live.store.table ∧ OnlyIn part t live.store.table

theorem inSet_of_local {part : Part} {x : LiveM IdSet α} {y : StoreM α}
    (h : Local [] part (SetAgrees part.space) x y) (t : Table) : Preserves (InSet part t) x := by
  rintro live ⟨hset, honly⟩
  obtain ⟨-, hset', batch, hw, ht⟩ := h live hset
  exact ⟨hset', honly.trans ⟨batch, Part.holds_of_within hw, ht⟩⟩

theorem inSet_push (part : Part) (hpart : part.Of []) (id : JobId) (t : Table) :
    Preserves (InSet part t) (discard (IdSet.push id)) :=
  (inSet_of_local (local_push part hpart id) t).discard

theorem inSet_erase (part : Part) (hpart : part.Of []) (id : JobId) (t : Table) :
    Preserves (InSet part t) (discard (IdSet.erase id)) :=
  (inSet_of_local (local_erase part hpart id) t).discard

theorem inSet_pop (t : Table) : Preserves (InSet .runnable t) IdSet.pop := by
  have hlocal : Local [] .runnable (SetAgrees Part.runnable.space) IdSet.pop Plain.pop := local_pop
  exact inSet_of_local hlocal t

theorem preserves_onRunnable {x : LiveM IdSet α} (h : ∀ t, Preserves (InSet .runnable t) x) :
    Preserves (Placed parse) (onRunnable x) := by
  intro live hlive
  obtain ⟨hset, honly⟩ := h live.store.table ⟨live.memory.runnable, live.store⟩
    ⟨hlive.runnable, .refl _ _⟩
  obtain ⟨hjobs, -, hmissing, hpending⟩ := hlive.frame honly
  rw [onRunnable, final_onPart]
  exact ⟨hjobs (by decide), hlive.dependents, hset, hmissing (by decide), hpending (by decide)⟩

/-- The first key of the queue is taken out, or nothing changes. -/
theorem Placed.pop {live : Live (Scheduler J)} (h : Placed parse live) :
    (∃ key rest b t, (listed runnableSpace live.store.table).map (·.2) = key :: rest ∧
      live.memory.runnable.order.delete key live.store = .ok b t ∧
      Scheduler.onRunnable IdSet.pop live = .ok key ⟨live.memory, t⟩ ∧
      Placed parse ⟨live.memory, t⟩ ∧ OnlyIn .runnable live.store.table t.table) ∨
    ∃ e, Scheduler.onRunnable IdSet.pop live = .error e live := by
  have hspace := OrderedSet.space_of_stored h.runnable.order
  cases hlisted : (listed runnableSpace live.store.table).map (·.2) with
  | nil =>
    refine .inr ⟨.notFound, ?_⟩
    simp only [Scheduler.onRunnable, LiveM.onPart, pop_run, Plain.takeHead_run, hspace, hlisted]
  | cons key rest =>
    cases hdelete : live.memory.runnable.order.delete key live.store with
    | error e t =>
      obtain rfl := OrderedSet.delete_error hdelete
      refine .inr ⟨e, ?_⟩
      simp only [Scheduler.onRunnable, LiveM.onPart, pop_run, Plain.takeHead_run, hspace, hlisted,
        hdelete]
    | ok b t =>
      have hpop : Scheduler.onRunnable IdSet.pop live = .ok key ⟨live.memory, t⟩ := by
        simp only [Scheduler.onRunnable, LiveM.onPart, pop_run, Plain.takeHead_run, hspace,
          hlisted, hdelete]
      have hplaced := (preserves_onRunnable inSet_pop).of_ok h hpop
      obtain ⟨batch, hb, ht⟩ := OrderedSet.delete_inside hdelete
      rw [hspace] at hb
      exact .inl ⟨key, rest, b, t, rfl, hdelete, hpop, hplaced, batch, hb, ht⟩

theorem preserves_onMissing {x : LiveM IdSet α} (h : ∀ t, Preserves (InSet .missing t) x) :
    Preserves (Placed parse) (onMissing x) := by
  intro live hlive
  obtain ⟨hset, honly⟩ := h live.store.table ⟨live.memory.missing, live.store⟩
    ⟨hlive.missing, .refl _ _⟩
  obtain ⟨hjobs, hrunnable, -, hpending⟩ := hlive.frame honly
  rw [onMissing, final_onPart]
  exact ⟨hjobs (by decide), hlive.dependents, hrunnable (by decide), hset, hpending (by decide)⟩

/-- What is done to a bucket leaves the remembered ones placed, and changes no other part. -/
def InBucket (dependency : JobId) (t : Table) (live : Live Dependents) : Prop :=
  BucketsPlaced live.memory ∧ OnlyIn (.bucket dependency) t live.store.table

theorem inBucket_withBucket {dependency : JobId} {action : OrderedSet → StoreM (α × OrderedSet)}
    (hs : OrderedSet.Steady action) (t : Table) :
    Preserves (InBucket dependency t) (Dependents.withBucket dependency action) := by
  rintro ⟨d, s⟩ ⟨hd, honly⟩
  rcases hd.withBucket (s := s) dependency hs with ⟨e, d', hx, hd'⟩ | ⟨bucket, hbucket, hacts⟩
  · rw [hx]
    exact ⟨hd', honly⟩
  rcases hacts with ⟨e, u, d', haction, hx, hd'⟩ | ⟨a, bucket', u, d', haction, hx, hd'⟩
  · obtain rfl := hs.error haction
    rw [hx]
    exact ⟨hd', honly⟩
  · obtain ⟨-, batch, hb, ht⟩ := hs.inside haction
    rw [hbucket] at hb
    rw [hx]
    exact ⟨hd', honly.trans ⟨batch, hb, ht⟩⟩

/-- What is done to a bucket is seen in no other part of the store. -/
theorem Placed.onDependents {live : Live (Scheduler J)} (h : Placed parse live)
    {dependency : JobId} {x : LiveM Dependents α} (hx : ∀ t, Preserves (InBucket dependency t) x) :
    Placed parse (Runs.final (Scheduler.onDependents x live)) ∧ OnlyIn (.bucket dependency)
      live.store.table (Runs.final (Scheduler.onDependents x live)).store.table := by
  obtain ⟨hd, honly⟩ := hx live.store.table ⟨live.memory.dependents, live.store⟩
    ⟨h.dependents, .refl _ _⟩
  rw [Scheduler.onDependents, final_onPart]
  exact ⟨h.with_dependents honly hd, honly⟩

theorem preserves_onDependents {dependency : JobId} {x : LiveM Dependents α}
    (h : ∀ t, Preserves (InBucket dependency t) x) : Preserves (Placed parse) (onDependents x) :=
  fun _ hlive => (hlive.onDependents h).1

theorem preserves_getJob (id : JobId) : Preserves (Placed parse) (getJob id) := by
  intro live hlive
  obtain ⟨live', hget, -, hlive'⟩ := hlive.getJob id
  rw [hget]
  cases storedJob parse live.store.table id <;> exact hlive'

theorem preserves_addRunnable (id : JobId) : Preserves (Placed parse) (addRunnable id) :=
  preserves_onRunnable fun t => inSet_push .runnable trivial id t

theorem preserves_addDependency (dependency dependent : JobId) :
    Preserves (Placed parse) (addDependency dependency dependent) :=
  preserves_onDependents fun t =>
    (inBucket_withBucket (OrderedSet.steady_put dependent.bytes) t).discard

theorem preserves_removeDependents (dependency : JobId) :
    Preserves (Placed parse) (removeDependents dependency) :=
  preserves_onDependents fun t => inBucket_withBucket (OrderedSet.steady_takeAll JobId.ofBytes) t

theorem preserves_afterDequeue {P : Live (Scheduler J) → Prop} {x : LiveM (Scheduler J) α}
    (h : Preserves P x) (id : JobId) : Preserves P (afterDequeue id x) :=
  h.tryCatch fun _ _ hs => hs

/-- Changing one stored job and their number, in memory and in the store. -/
theorem Placed.with_jobs {live : Live (Scheduler J)} (h : Placed parse live) {op : Operation}
    {ops : Batch} {key : Bytes} (hop : op.key = jobsSpace.key key)
    (hops : pendingSpace.Holds ops) {jobs : JobStore J} {pending : Counter}
    (hjobs : JobsAgree parse jobs (Batch.apply (op :: ops) live.store.table))
    (hpending : CountAgrees pending (Batch.apply (op :: ops) live.store.table)) :
    Placed parse ⟨{ live.memory with jobs, pending }, live.store.after (op :: ops)⟩ := by
  have hw : Part.Within [] [.jobs, .pending] (op :: ops) := within_jobs_pending hop hops
  refine ⟨?_, h.dependents, ?_, ?_, ?_⟩ <;> simp only [Store.table_after]
  · exact hjobs
  · exact h.runnable.of_view (Part.view_apply hashed_nil hw .runnable trivial (by simp) _)
  · exact h.missing.of_view (Part.view_apply hashed_nil hw .missing trivial (by simp) _)
  · exact hpending

theorem preserves_dropJob (id : JobId) (a : α) : Preserves (Placed parse) (dropJob id a) := by
  intro live hlive
  rw [dropJob_run]
  by_cases hw : live.store.writesLeft = some 0
  · rw [if_pos hw]
    exact hlive
  · rw [if_neg hw]
    have hop := key_stageDelete hlive.jobs.space_eq id
    have hops := (stageDecrement_agrees hlive.pending).1
    have hcount := hlive.pending.of_view (view_pending_apply hop live.store.table)
    exact hlive.with_jobs hop hops (hlive.jobs.delete id hops) (stageDecrement_agrees hcount).2

theorem preserves_putJob [Job J] {job : J} (hjob : parse (Job.bytes job) = .ok job) :
    Preserves (Placed parse) (putJob job) := by
  intro live hlive
  rw [putJob_run]
  by_cases hw : live.store.writesLeft = some 0
  · rw [if_pos hw]
    exact hlive
  · rw [if_neg hw]
    have hop := key_stagePut hlive.jobs.space_eq job
    have hops := (stageIncrement_agrees hlive.pending).1
    have hcount := hlive.pending.of_view (view_pending_apply hop live.store.table)
    exact hlive.with_jobs hop hops (hlive.jobs.put hjob hops) (stageIncrement_agrees hcount).2

theorem preserves_removeRunnable :
    Preserves (Placed parse) (removeRunnable : LiveM (Scheduler J) J) := by
  refine (preserves_onRunnable inSet_pop).bind fun key => ?_
  refine (Preserves.ofExcept _).bind fun id => ?_
  refine (preserves_afterDequeue (preserves_getJob id) id).bind fun job => ?_
  exact preserves_dropJob id job

end Preserves

end WorkQueue.Scheduler
