import WorkQueue.Proofs.Scheduler.Edits
import WorkQueue.Proofs.Scheduler.Sited
import WorkQueue.Proofs.Store.Narrow

/-!
# What a scheduler sees

A scheduler uses the keys of its five namespaces only (`owned`), and never reads what it tells the
metrics of its caches. `seen` leaves out the rest: other keys, the log of the store and the metrics.
A sited scheduler does on what is seen what it does on the whole, whatever the store holds:
`commutes_verb` for the verbs, `inward_load` for opening it.
-/

namespace WorkQueue

open Runs (Commutes Preserves mapState)

namespace Scheduler

variable {J α σ τ : Type}

/-- The scheduler without the metrics of its caches. -/
def unmetered (s : Scheduler J) : Scheduler J :=
  { s with jobs := s.jobs.unmetered, dependents := s.dependents.unmetered }

/-! ## Keys of a scheduler -/

/-- Whether a key lies in one of the five namespaces. -/
def owned (key : Bytes) : Bool := Part.leads.any (·.isPrefixOf key)

theorem owned_iff {key : Bytes} : owned key = true ↔ ∃ lead ∈ Part.leads, lead <+: key := by
  simp [owned]

theorem Part.inside (part : Part) : part.space.Inside owned := fun key =>
  owned_iff.mpr ⟨part.outer.lead, List.mem_of_getElem? (leads_rank part), part.lead_prefix key⟩

/-! ## Memory beside a store -/

/-- Memory seen through `f`, and the owned keys of the store. -/
def shown (f : σ → σ) (live : Live σ) : Live σ := ⟨f live.memory, live.store.narrow owned⟩

section Actions

variable {P : Live σ → Prop} {f : σ → σ}

theorem commutes_onStore {action : StoreM α} (h : Inward owned action) :
    Commutes P (shown f) (LiveM.onStore action) := by
  intro live _
  have hrun := h live.store trivial
  simp only [LiveM.onStore, shown]
  rw [← hrun]
  cases action live.store <;> rfl

/-- An action on the store alone, chosen by what is in memory. -/
theorem commutes_ask (action : σ → StoreM α) (hf : ∀ s, action (f s) = action s)
    (h : ∀ live, P live → Inward owned (action live.memory)) :
    Commutes P (shown f) (do LiveM.onStore (action (← LiveM.memory))) := by
  intro live hlive
  show mapState (shown f) (LiveM.onStore (action live.memory) live) =
    LiveM.onStore (action (f live.memory)) (shown f live)
  rw [hf]
  exact commutes_onStore (h live hlive) live hlive

theorem commutes_renew {action : σ → StoreM (α × σ)}
    (h : ∀ live, P live → Inward owned (action live.memory)) :
    Commutes P (shown id) (LiveM.renew action) := by
  intro live hlive
  have hrun := h live hlive live.store trivial
  simp only [LiveM.renew, shown, id]
  rw [← hrun]
  cases action live.memory live.store <;> rfl

theorem commutes_onPart {part : σ → τ} {restore : σ → τ → σ} {g : τ → τ} {Q : Live τ → Prop}
    {x : LiveM τ α} (hx : Commutes Q (shown g) x)
    (hQ : ∀ live, P live → Q ⟨part live.memory, live.store⟩)
    (hpart : ∀ s, part (f s) = g (part s))
    (hrestore : ∀ s t, restore (f s) (g t) = f (restore s t)) :
    Commutes P (shown f) (LiveM.onPart part restore x) := by
  intro live hlive
  have hrun := hx _ (hQ live hlive)
  simp only [LiveM.onPart, shown, hpart] at hrun ⊢
  rw [← hrun]
  cases x ⟨part live.memory, live.store⟩ with
  | ok a t => simp only [mapState, hrestore, shown]
  | error e t => simp only [mapState, hrestore, shown]

end Actions

/-- What is seen of a scheduler with its store. -/
def seen : Live (Scheduler J) → Live (Scheduler J) := shown unmetered

theorem Sited.seen {live : Live (Scheduler J)} (h : Sited live) : Sited (seen live) :=
  ⟨⟨h.places.jobs, h.places.dependents, h.places.runnable, h.places.missing, h.places.pending⟩,
    ⟨h.buckets.space_eq, h.buckets.bucket⟩, h.queue, h.absent⟩

/-! ## Sets -/

section Sets

variable {space : Namespace} (hspace : space.Inside owned)

include hspace

theorem commutes_push (id : JobId) :
    Commutes (fun part : Live IdSet => SetSited space part.memory) (shown (fun s => s))
      (IdSet.push id) :=
  commutes_renew fun _ h =>
    (OrderedSet.inward_put (h.2 ▸ hspace) id.bytes).bind fun _ => .pure _

theorem commutes_erase (id : JobId) :
    Commutes (fun part : Live IdSet => SetSited space part.memory) (shown (fun s => s))
      (IdSet.erase id) :=
  commutes_ask (fun set : IdSet => set.order.delete id.bytes) (fun _ => rfl) fun _ h =>
    OrderedSet.inward_delete (h.2 ▸ hspace) id.bytes

theorem commutes_pop :
    Commutes (fun part : Live IdSet => SetSited space part.memory) (shown (fun s => s))
      IdSet.pop := by
  refine commutes_ask (fun set : IdSet => do
    let head ← set.order.head
    discard (set.order.delete head)
    return head) (fun _ => rfl) fun live h => ?_
  have horder : live.memory.order.space.Inside owned := h.2 ▸ hspace
  refine (OrderedSet.inward_head horder).bind fun head => ?_
  exact ((OrderedSet.inward_delete horder head).bind fun _ => .pure _).bind fun _ => .pure head

end Sets

theorem inward_ids {set : IdSet} (h : set.order.space.Inside owned) : Inward owned set.ids :=
  (OrderedSet.inward_members h).bind fun members => .mapM (fun _ => .ofExcept _) members

theorem commutes_onRunnable {x : LiveM IdSet α}
    (hx : Commutes (fun part => SetSited runnableSpace part.memory) (shown fun s => s) x) :
    Commutes Sited seen (onRunnable x : LiveM (Scheduler J) α) :=
  commutes_onPart hx (fun _ h => ⟨h.places.runnable, h.queue⟩) (fun _ => rfl) fun _ _ => rfl

theorem commutes_onMissing {x : LiveM IdSet α}
    (hx : Commutes (fun part => SetSited missingSpace part.memory) (shown fun s => s) x) :
    Commutes Sited seen (onMissing x : LiveM (Scheduler J) α) :=
  commutes_onPart hx (fun _ h => ⟨h.places.missing, h.absent⟩) (fun _ => rfl) fun _ _ => rfl

/-! ## Jobs -/

theorem commutes_fetch (id : JobId) :
    Commutes (fun part : Live (JobStore J) => part.memory.space = jobsSpace)
      (shown JobStore.unmetered) (JobStore.fetch id) := by
  rintro ⟨⟨space, parse, cache, caching⟩, s⟩ hspace
  obtain rfl : space = jobsSpace := hspace
  have hview : jobsSpace.view (s.table.narrow owned) = jobsSpace.view s.table :=
    Namespace.view_narrow (Part.inside .jobs) s.table
  simp only [JobStore.fetch, LiveM.renew, Runs.bind_apply, Namespace.get_run, shown, Store.narrow,
    JobStore.unmetered, hview]
  cases jobsSpace.view s.table id.bytes with
  | none => rfl
  | some bytes =>
    simp only
    cases parse bytes with
    | error e => rfl
    | ok job => cases caching <;> rfl

theorem commutes_jobs_get (id : JobId) :
    Commutes (fun part : Live (JobStore J) => part.memory.space = jobsSpace)
      (shown JobStore.unmetered) (JobStore.get id) := by
  rintro ⟨jobs, s⟩ hspace
  have hcache : jobs.unmetered.cache.get id =
      ((jobs.cache.get id).1, (jobs.cache.get id).2.unmetered) := jobs.cache.get_unmetered id
  have hsame : jobs.unmetered.caching = jobs.caching := rfl
  simp only [JobStore.get, Runs.bind_apply, LiveM.memory, shown, hcache, hsame]
  split
  · simp only [Runs.bind_apply]
    cases (jobs.cache.get id).1 with
    | none => exact commutes_fetch id ⟨{ jobs with cache := (jobs.cache.get id).2 }, s⟩ hspace
    | some job => rfl
  · exact commutes_fetch id ⟨jobs, s⟩ hspace

theorem commutes_onJobs {x : LiveM (JobStore J) α}
    (hx : Commutes (fun part => part.memory.space = jobsSpace) (shown JobStore.unmetered) x) :
    Commutes Sited seen (onJobs x : LiveM (Scheduler J) α) :=
  commutes_onPart hx (fun _ h => h.places.jobs) (fun _ => rfl) fun _ _ => rfl

theorem commutes_getJob (id : JobId) : Commutes Sited seen (getJob (J := J) id) :=
  commutes_onJobs (commutes_jobs_get id)

theorem commutes_hasJob (id : JobId) : Commutes Sited seen (hasJob (J := J) id) := by
  refine commutes_ask (fun s : Scheduler J => s.jobs.has id) (fun _ => rfl) fun live h => ?_
  rw [JobStore.has]
  split
  · exact .pure true
  · exact Namespace.inward_has (h.places.jobs ▸ Part.inside .jobs) id.bytes

/-! ## Buckets -/

/-- What is done to a bucket that is remembered, and is remembered of it afterwards. -/
theorem commutes_remembered {dependency : JobId} {x : StoreM (α × OrderedSet)}
    (hx : Inward owned x) :
    Commutes (fun _ => True) (shown Dependents.unmetered) (do
      let r ← LiveM.onStore x
      LiveM.update fun d => { d with buckets := d.buckets.revise dependency r.2 }
      return r.1 : LiveM Dependents α) := by
  intro live _
  have hrun := hx live.store trivial
  simp only [Runs.bind_apply, LiveM.onStore, shown]
  rw [← hrun]
  cases x live.store <;> rfl

theorem commutes_withBucket {dependency : JobId}
    {action : OrderedSet → StoreM (α × OrderedSet)}
    (haction : ∀ bucket, bucket.space = bucketSpace dependency → Inward owned (action bucket)) :
    Commutes (fun part : Live Dependents => BucketsPlaced part.memory) (shown Dependents.unmetered)
      (Dependents.withBucket dependency action) := by
  rintro ⟨d, s⟩ hd
  have hspace := bucketSpace_of_eq hd.space_eq dependency
  have hstored : OrderedSet.stored (bucketSpace dependency) (s.table.narrow owned) =
      OrderedSet.stored (bucketSpace dependency) s.table :=
    OrderedSet.stored_of_view (Namespace.view_narrow (Part.inside (.bucket dependency)) s.table)
  have hget : d.unmetered.buckets.get dependency =
      ((d.buckets.get dependency).1, (d.buckets.get dependency).2.unmetered) :=
    d.buckets.get_unmetered dependency
  have hcaching : d.unmetered.caching = d.caching := rfl
  have hbucket : d.unmetered.bucketSpace dependency = d.bucketSpace dependency := rfl
  by_cases hc : d.caching = true
  · simp only [Dependents.withBucket, Runs.bind_apply, LiveM.memory, shown, hcaching, if_pos hc,
      hget, LiveM.update]
    cases hfound : (d.buckets.get dependency).1 with
    | some bucket =>
      rw [Cache.get_fst] at hfound
      have hinward := haction bucket (hd.bucket hc dependency bucket hfound)
      exact commutes_remembered hinward ⟨{ d with buckets := (d.buckets.get dependency).2 }, s⟩
        trivial
    | none =>
      simp only [Runs.bind_apply, LiveM.onStore, OrderedSet.load_run, Store.narrow, hbucket, hspace,
        hstored]
      cases hset : OrderedSet.stored (bucketSpace dependency) s.table with
      | error e => rfl
      | ok bucket =>
        have hinward := haction bucket (OrderedSet.space_of_stored hset)
        exact commutes_remembered hinward
          ⟨{ d with buckets := (d.buckets.get dependency).2.put dependency bucket }, s⟩ trivial
  · simp only [Dependents.withBucket, Runs.bind_apply, LiveM.memory, shown, hcaching, if_neg hc,
      LiveM.onStore, OrderedSet.load_run, Store.narrow, hbucket, hspace, hstored]
    cases hset : OrderedSet.stored (bucketSpace dependency) s.table with
    | error e => rfl
    | ok bucket =>
      have hrun := haction bucket (OrderedSet.space_of_stored hset) s trivial
      simp only [Runs.ofExcept_ok]
      rw [Store.narrow] at hrun
      rw [← hrun]
      cases action bucket s <;> rfl

theorem commutes_onDependents {x : LiveM Dependents α}
    (hx : Commutes (fun part => BucketsPlaced part.memory) (shown Dependents.unmetered) x) :
    Commutes Sited seen (onDependents x : LiveM (Scheduler J) α) :=
  commutes_onPart hx (fun _ h => h.buckets) (fun _ => rfl) fun _ _ => rfl

theorem commutes_removeDependents (dependency : JobId) :
    Commutes Sited seen (removeDependents (J := J) dependency) :=
  commutes_onDependents (commutes_withBucket fun _ h =>
    OrderedSet.inward_takeAll (h ▸ Part.inside (.bucket dependency)) JobId.ofBytes)

/-! ## Verbs -/

/-- The ids of either set are listed. -/
theorem commutes_ids {set : Scheduler J → IdSet} (hset : ∀ s, set s.unmetered = set s)
    (h : ∀ live, Sited live → (set live.memory).order.space.Inside owned) :
    Commutes Sited seen (do LiveM.onStore (set (← LiveM.memory)).ids) :=
  commutes_ask (fun s => (set s).ids) (fun s => by rw [hset]) fun live hlive =>
    inward_ids (h live hlive)

theorem Sited.inside_queue {live : Live (Scheduler J)} (h : Sited live) :
    live.memory.runnable.order.space.Inside owned := h.queue ▸ Part.inside .runnable

theorem Sited.inside_absent {live : Live (Scheduler J)} (h : Sited live) :
    live.memory.missing.order.space.Inside owned := h.absent ▸ Part.inside .missing

theorem commutes_hasRunnable : Commutes Sited seen (hasRunnable (J := J)) := by
  have hask : Commutes Sited seen
      (do LiveM.onStore (← LiveM.memory).runnable.isEmpty : LiveM (Scheduler J) Bool) :=
    commutes_ask (fun s : Scheduler J => s.runnable.isEmpty) (fun _ => rfl) fun _ h =>
      OrderedSet.inward_isEmpty h.inside_queue
  exact hask.bind (fun _ h => h) fun empty => .pure !empty

theorem commutes_missingCount : Commutes Sited seen (missingCount (J := J)) :=
  commutes_ask (fun s : Scheduler J => s.missing.size) (fun _ => rfl) fun _ h =>
    OrderedSet.inward_size h.inside_absent

/-- A batch that changes one stored job and their number. -/
theorem owned_of_jobs_pending {op : Operation} {ops : Batch} {key : Bytes}
    (hop : op.key = jobsSpace.key key) (hops : pendingSpace.Holds ops) :
    ∀ op' ∈ op :: ops, owned op'.key = true := by
  intro op' hmem
  rcases List.mem_cons.mp hmem with rfl | hmem
  · rw [hop]
    exact Part.inside .jobs key
  · exact Namespace.Inside.batch (Part.inside .pending) hops op' hmem

/-- What is seen after a batch of owned keys. -/
theorem seen_after {s s' : Scheduler J} (hs : s.unmetered = s') {batch : Batch}
    (h : ∀ op ∈ batch, owned op.key = true) (a : α) (store : Store) :
    (mapState seen (.ok a ⟨s, store.after batch⟩) :
        EStateM.Result Error (Live (Scheduler J)) α) =
      .ok a ⟨s', (store.narrow owned).after batch⟩ := by
  rw [← hs, ← Store.narrow_after h]
  rfl

theorem commutes_dropJob (id : JobId) (a : α) :
    Commutes Sited seen (dropJob id a : LiveM (Scheduler J) α) := by
  intro live hlive
  have howned := owned_of_jobs_pending (key_stageDelete hlive.places.jobs id)
    (counts_stageDecrement hlive.places.pending).holds
  have hleft : (seen live).store.writesLeft = live.store.writesLeft := rfl
  rw [dropJob_run, dropJob_run, hleft]
  by_cases hw : live.store.writesLeft = some 0
  · rw [if_pos hw, if_pos hw]
    rfl
  · rw [if_neg hw, if_neg hw]
    exact seen_after rfl howned a live.store

theorem commutes_removeRunnable : Commutes Sited seen (removeRunnable (J := J)) := by
  rw [removeRunnable_eq]
  refine (commutes_onRunnable (commutes_pop (Part.inside .runnable))).bind
    (sited_onRunnable sited_pop) fun key => ?_
  refine (Commutes.ofExcept _).bind (.ofExcept _) fun id => ?_
  refine Commutes.bind ?_ (preserves_afterDequeue (sited_getJob id) id) fun job =>
    commutes_dropJob id job
  exact (commutes_getJob id).tryCatch (sited_getJob id) fun _ _ _ => rfl

theorem owned_cleared {space : Namespace} (h : space.lead ∈ Part.leads) (t : Table) :
    ∀ op ∈ cleared space t, owned op.key = true := by
  intro op hop
  obtain ⟨⟨key, value⟩, hmem, rfl⟩ := List.mem_map.mp hop
  exact owned_iff.mpr ⟨space.lead, h, (Table.mem_scan.mp hmem).1⟩

theorem owned_clearing (t : Table) : ∀ op ∈ clearing t, owned op.key = true := by
  intro op hop
  rcases List.mem_append.mp hop with hdelete | hput
  · simp only [List.mem_append] at hdelete
    rcases hdelete with ((hop | hop) | hop) | hop <;>
      exact owned_cleared (by simp [Part.leads]) t op hop
  · rw [List.mem_singleton.mp hput]
    exact Part.inside .pending Counter.key

/-- What is taken out is taken out of what is seen. -/
theorem clearing_narrow (t : Table) : clearing (t.narrow owned) = clearing t := by
  have hcleared : ∀ space : Namespace, space.lead ∈ Part.leads →
      cleared space (t.narrow owned) = cleared space t := by
    intro space h
    rw [cleared, cleared, Table.scan_narrow fun key hkey => owned_iff.mpr ⟨space.lead, h, hkey⟩]
  rw [clearing, clearing, hcleared _ (by simp [Part.leads]), hcleared _ (by simp [Part.leads]),
    hcleared _ (by simp [Part.leads]), hcleared _ (by simp [Part.leads])]

theorem commutes_clear : Commutes Sited seen (clear (J := J)) := by
  intro live hlive
  have hleft : (seen live).store.writesLeft = live.store.writesLeft := rfl
  rw [hlive.places.clear_run, hlive.seen.places.clear_run, hleft]
  by_cases hw : live.store.writesLeft = some 0
  · rw [if_pos hw, if_pos hw]
    rfl
  · rw [if_neg hw, if_neg hw]
    have htable : clearing (seen live).store.table = clearing live.store.table :=
      clearing_narrow live.store.table
    rw [htable]
    exact seen_after rfl (owned_clearing live.store.table) () live.store

section Verbs

variable [Job J]

theorem commutes_putJob (job : J) : Commutes Sited seen (putJob job) := by
  intro live hlive
  have howned := owned_of_jobs_pending (key_stagePut hlive.places.jobs job)
    (counts_stageIncrement hlive.places.pending).holds
  have hleft : (seen live).store.writesLeft = live.store.writesLeft := rfl
  have hmemory : (live.memory.jobs.remember job).unmetered =
      live.memory.jobs.unmetered.remember job := by
    obtain ⟨space, parse, cache, caching⟩ := live.memory.jobs
    cases caching <;> rfl
  rw [putJob_run, putJob_run, hleft]
  by_cases hw : live.store.writesLeft = some 0
  · rw [if_pos hw, if_pos hw]
    rfl
  · rw [if_neg hw, if_neg hw]
    refine seen_after ?_ howned () live.store
    rw [unmetered, hmemory]
    rfl

/-- A verb that gives what a commuting action gives, dressed as a reply. -/
theorem commutes_of_run {x : LiveM (Scheduler J) α} (hx : Commutes Sited seen x)
    (hP : Preserves Sited x) (f : α → Reply J) {verb : Verb J}
    (hverb : verb.1.perform = DrainM.onQueue do return f (← x)) : Commutes Sited seen verb.run := by
  rw [Verb.run_eq hverb]
  exact hx.bind hP fun _ => .pure _

/-- A verb does on what is seen what it does on the whole. -/
theorem commutes_verb (verb : Verb J) : Commutes Sited seen verb.run := by
  obtain ⟨command, hverb⟩ := verb
  cases command with
  | putJob job =>
    exact commutes_of_run (commutes_putJob job) (sited_putJob job) (fun _ => .done) rfl
  | hasJob id => exact commutes_of_run (commutes_hasJob id) (preserves_hasJob id) .flag rfl
  | getJob id => exact commutes_of_run (commutes_getJob id) (sited_getJob id) .job rfl
  | addRunnable id =>
    have hadd : Commutes Sited seen (addRunnable (J := J) id) :=
      commutes_onRunnable (commutes_push (Part.inside .runnable) id).discard
    exact commutes_of_run hadd (sited_onRunnable (sited_push id).discard) (fun _ => .done) rfl
  | hasRunnable => exact commutes_of_run commutes_hasRunnable preserves_hasRunnable .flag rfl
  | runnableIds =>
    exact commutes_of_run (commutes_ids (fun _ => rfl) fun _ h => h.inside_queue) preserves_ids
      .ids rfl
  | removeRunnable =>
    exact commutes_of_run commutes_removeRunnable sited_removeRunnable .job rfl
  | addDependency dependency dependent =>
    have hadd : Commutes Sited seen (addDependency (J := J) dependency dependent) :=
      commutes_onDependents (commutes_withBucket fun _ h =>
        OrderedSet.inward_put (h ▸ Part.inside (.bucket dependency)) dependent.bytes).discard
    exact commutes_of_run hadd
      (sited_onDependents (sited_withBucket (OrderedSet.steady_put dependent.bytes)).discard)
      (fun _ => .done) rfl
  | removeDependents dependency =>
    exact commutes_of_run (commutes_removeDependents dependency) (sited_removeDependents dependency)
      .ids rfl
  | addMissing ids =>
    have hadd : Commutes Sited seen (addMissing (J := J) ids) :=
      commutes_onMissing (.forM (fun id => (commutes_push (Part.inside .missing) id).discard)
        (fun id => (sited_push id).discard) ids)
    exact commutes_of_run hadd (sited_onMissing (.forM (fun id => (sited_push id).discard) ids))
      (fun _ => .done) rfl
  | removeMissing ids =>
    have herase : Commutes Sited seen (removeMissing (J := J) ids) :=
      commutes_onMissing (.forM (fun id => (commutes_erase (Part.inside .missing) id).discard)
        (fun id => (sited_erase id).discard) ids)
    exact commutes_of_run herase (sited_onMissing (.forM (fun id => (sited_erase id).discard) ids))
      (fun _ => .done) rfl
  | missingIds =>
    exact commutes_of_run (commutes_ids (fun _ => rfl) fun _ h => h.inside_absent) preserves_ids
      .ids rfl
  | missingCount => exact commutes_of_run commutes_missingCount (fun _ h => h) .count rfl
  | pendingCount =>
    have hread : Commutes Sited seen (pendingCount (J := J)) := fun _ _ => rfl
    exact commutes_of_run hread (fun _ h => h) (fun count => .count count.toNat) rfl
  | clear => exact commutes_of_run commutes_clear sited_clear (fun _ => .done) rfl
  | disableCaching => exact hverb.elim
  | execute runner limit => exact hverb.elim

end Verbs

/-! ## Opening -/

theorem inward_counter {jobs : JobStore J} (hspace : jobs.space = jobsSpace) :
    Inward owned (Counter.load pendingSpace jobs) := by
  have hpending : pendingSpace.Inside owned := Part.inside .pending
  refine (Namespace.inward_get? hpending Counter.key).bind fun found => ?_
  cases found with
  | some value => exact (Inward.ofExcept (Counter.readCount value)).bind fun _ => .pure _
  | none =>
    have hcount : Inward owned jobs.count :=
      (Namespace.inward_scan (hspace ▸ Part.inside .jobs) []).bind fun _ => .pure _
    refine hcount.bind fun count => (Inward.write fun op hop => ?_).bind fun _ => .pure _
    rw [List.mem_singleton.mp hop]
    exact hpending Counter.key

/-- A scheduler that is opened reads its own keys only. -/
theorem inward_load (parse : Parser J) (options : Options)
    (metrics : Option (CacheMetrics × CacheMetrics)) :
    Inward owned (load parse options metrics) := by
  have hset : ∀ part : Part, Inward owned (IdSet.load part.space) := fun part =>
    (OrderedSet.inward_load part.inside).bind fun _ => .pure _
  refine (inward_counter rfl).bind fun pending => ?_
  refine (hset .runnable).bind fun runnable => (hset .missing).bind fun missing => ?_
  split <;> exact .pure _

end Scheduler

end WorkQueue
