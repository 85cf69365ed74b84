import WorkQueue.Proofs.Scheduler.Idle

/-!
# Schedulers without dependencies

A scheduler is `Lined` up with books when it works on an idle store in which the books are filed.
Nothing is asked of the buckets that it remembers but that they are in their places, for no verb
here gets to see a job that waits: most do not look at buckets at all (`Beside`) and give what the
plain verb gives (`Placed.ok_of_plain`), and the others find them empty
(`Placed.removeDependents_none`). So no hash has to differ from another, and every verb does to the
books what its name says.

* `Lined.putJob`, `Lined.addRunnable`, `Lined.executeNext`, `Lined.clear`: the verbs that write;
* `lined_of_load`: a scheduler opened on books in a log, or on a log that is new.
-/

namespace WorkQueue.Scheduler

open Log (Condition)
open Runs (final mapState Preserves)

variable {J α β : Type}

/-! ## Verbs beside the jobs that wait -/

/-- An action that neither looks at the jobs that wait nor changes them. -/
def Beside (x : LiveM (Scheduler J) α) : Prop :=
  ∀ live d, x (withDependents d live) = mapState (withDependents d) (x live)

namespace Beside

theorem ofExcept (r : Except Error α) :
    Beside (MonadExcept.ofExcept r : LiveM (Scheduler J) α) := by
  intro live d
  cases r <;> rfl

theorem bind {x : LiveM (Scheduler J) α} {f : α → LiveM (Scheduler J) β} (hx : Beside x)
    (hf : ∀ a, Beside (f a)) : Beside (x >>= f) :=
  fun live d => (Runs.mapState_bind _ (hx live d).symm fun a t => (hf a t d).symm).symm

theorem afterDequeue {x : LiveM (Scheduler J) α} (hx : Beside x) (id : JobId) :
    Beside (afterDequeue id x) := by
  intro live d
  have hrun := hx live d
  cases hlive : x live with
  | ok a mid =>
    rw [hlive] at hrun
    rw [afterDequeue_ok hlive, afterDequeue_ok hrun]
    rfl
  | error e mid =>
    rw [hlive] at hrun
    rw [afterDequeue_error hlive, afterDequeue_error hrun]
    rfl

theorem onJobs (x : LiveM (JobStore J) α) : Beside (onJobs x) := by
  intro live d
  simp only [Scheduler.onJobs, LiveM.onPart, withDependents]
  cases x ⟨live.memory.jobs, live.store⟩ <;> rfl

theorem onRunnable (x : LiveM IdSet α) : Beside (onRunnable x : LiveM (Scheduler J) α) := by
  intro live d
  simp only [Scheduler.onRunnable, LiveM.onPart, withDependents]
  cases x ⟨live.memory.runnable, live.store⟩ <;> rfl

end Beside

theorem beside_putJob [Job J] (job : J) : Beside (putJob job) := by
  intro live d
  rw [putJob_run, putJob_run]
  by_cases hw : live.store.writesLeft = some 0
  · rw [if_pos hw]
    exact if_pos hw
  · rw [if_neg hw]
    exact if_neg hw

theorem beside_dropJob (id : JobId) (a : α) : Beside (dropJob id a : LiveM (Scheduler J) α) := by
  intro live d
  rw [dropJob_run, dropJob_run]
  by_cases hw : live.store.writesLeft = some 0
  · rw [if_pos hw]
    exact if_pos hw
  · rw [if_neg hw]
    exact if_neg hw

theorem beside_removeRunnable : Beside (removeRunnable : LiveM (Scheduler J) J) := by
  rw [removeRunnable_eq]
  refine (Beside.onRunnable _).bind fun key => (Beside.ofExcept _).bind fun id => ?_
  exact ((Beside.onJobs _).afterDequeue id).bind fun job => beside_dropJob id job

/-- The ids of either set are listed. -/
theorem beside_ids {set : Scheduler J → IdSet}
    (h : ∀ (s : Scheduler J) d, set { s with dependents := d } = set s) :
    Beside (do LiveM.onStore (set (← LiveM.memory)).ids) := by
  have hrun : ∀ live : Live (Scheduler J),
      (do LiveM.onStore (set (← LiveM.memory)).ids : LiveM (Scheduler J) (List JobId)) live =
        LiveM.onStore (set live.memory).ids live := fun _ => rfl
  intro live d
  rw [hrun, hrun, LiveM.onStore, LiveM.onStore, withDependents, h]
  cases (set live.memory).ids live.store <;> rfl

/-- Where no bucket is looked at, those that are remembered do not matter: the action gives what the
plain one gives. -/
theorem Placed.mirrors {parse : Parser J} {live : Live (Scheduler J)} (h : Placed parse live)
    {x : LiveM (Scheduler J) α} {y : StoreM α} (hx : Beside x) (hm : Mirrors [] parse x y) :
    mapState Live.store (x live) = y live.store := by
  let none : Dependents := .new dependentsSpace (.new 0 none)
  have hcoherent : Coherent [] parse (withDependents none live) :=
    ⟨h.jobs, ⟨rfl, nofun⟩, h.runnable, h.missing, h.pending⟩
  have hrun := (hm _ hcoherent).1
  rw [hx live none] at hrun
  rw [← show (withDependents none live).store = live.store from rfl, ← hrun]
  cases x live <;> rfl

/-- So it succeeds where the plain action does. -/
theorem Placed.ok_of_plain {parse : Parser J} {live : Live (Scheduler J)} (h : Placed parse live)
    {x : LiveM (Scheduler J) α} {y : StoreM α} (hx : Beside x) (hm : Mirrors [] parse x y) {a : α}
    {s : Store} (hy : y live.store = .ok a s) :
    ∃ live', x live = .ok a live' ∧ live'.store = s := by
  have hrun := h.mirrors hx hm
  rw [hy] at hrun
  cases hlive : x live with
  | ok b live' =>
    rw [hlive] at hrun
    cases hrun
    exact ⟨live', rfl, rfl⟩
  | error e live' =>
    rw [hlive] at hrun
    cases hrun

/-! ## Queues without dependencies -/

variable [Job J]

/-- A scheduler keeps the given books in a log, and no job waits. -/
structure Lined (parse : Parser J) (c : Condition) (path : String) (location : Location)
    (others : FileTree) (b : Books J) (live : Live (Scheduler J)) : Prop where
  placed : Placed parse live
  filed : Filed [] parse b live.store.table
  idle : Idle c path location others live.store

theorem filed_of_bare {t : Table} (h : Bare t) (parse : Parser J) : Filed [] parse .empty t :=
  ⟨fun id => h.jobs id.bytes, fun key value hv => absurd (hv.symm.trans (h.jobs key)) nofun, nofun,
    .nil, .empty h.runnable, nofun, h.pending, show 0 < UInt64.size by decide⟩

omit [Job J] in
/-- A dequeue has nobody to tell if nobody waits. -/
theorem Placed.removeDependents_none {parse : Parser J} {live : Live (Scheduler J)}
    (h : Placed parse live) {id : JobId}
    (hnone : ∀ key, (bucketSpace id).view live.store.table key = none) :
    ∃ live', Scheduler.removeDependents id live = .ok [] live' ∧ live'.store = live.store := by
  have hroll := Rolled.empty hnone
  have hused : ∃ bucket, live.memory.dependents.usedBucket id live.store.table = .ok bucket := by
    rw [Dependents.usedBucket, bucketSpace_of_eq h.dependents.space_eq]
    split
    · exact ⟨_, rfl⟩
    · exact hroll.stored
  obtain ⟨bucket, hused⟩ := hused
  have hspace := h.dependents.space_of_used hused
  have htake : bucket.takeAll JobId.ofBytes live.store = .ok ([], bucket) live.store := by
    have hlisted : OrderedSet.listed bucket.space live.store.table = [] :=
      List.map_eq_nil_iff.mp (hspace ▸ hroll.listed)
    rw [OrderedSet.takeAll_run, hlisted]
    rfl
  have hacts := Dependents.withBucket_acts live.memory.dependents id
    (·.takeAll JobId.ofBytes) live.store
  simp only [Dependents.Acts, hused, htake] at hacts
  obtain ⟨d, hrun, -⟩ := hacts
  refine ⟨withDependents d live, ?_, rfl⟩
  simp only [Scheduler.removeDependents, Scheduler.onDependents, Dependents.removeAll,
    LiveM.onPart, hrun]
  rfl

namespace Lined

variable {parse : Parser J} {c c' : Condition} {path : String} {location : Location}
  {others : FileTree} {b : Books J} {live : Live (Scheduler J)}

/-! ### Reading -/

theorem hasJob (h : Lined parse c path location others b live) (id : JobId) :
    Scheduler.hasJob id live = .ok (b.job? id).isSome live := by
  rw [h.placed.hasJob, h.filed.jobs, Option.isSome_map]

/-- What is read leaves all as it is, and is what the plain verb reads. -/
theorem read {α : Type} (h : Lined parse c path location others b live) {x : LiveM (Scheduler J) α}
    {y : StoreM α} (hx : Beside x) (hm : Mirrors [] parse x y)
    (hsame : Preserves (· = live) x) {a : α} (hy : y live.store = .ok a live.store) :
    x live = .ok a live := by
  obtain ⟨live', hok, -⟩ := h.placed.ok_of_plain hx hm hy
  obtain rfl := hsame.of_ok rfl hok
  exact hok

theorem hasRunnable (h : Lined parse c path location others b live) :
    Scheduler.hasRunnable live = .ok (!b.queue.members.isEmpty) live :=
  h.read (fun _ _ => rfl) mirrors_hasRunnable preserves_hasRunnable h.filed.hasRunnable

theorem runnableIds (h : Lined parse c path location others b live) :
    Scheduler.runnableIds live = .ok b.queue.members live :=
  h.read (beside_ids fun _ _ => rfl) mirrors_runnableIds preserves_ids h.filed.runnableIds

theorem pendingCount (h : Lined parse c path location others b live) :
    Scheduler.pendingCount live = .ok (.ofNat b.pending) live := by
  have hstored := h.placed.pending.count.symm.trans h.filed.countAgrees.count
  have hcount : live.memory.pending.count = .ofNat b.pending :=
    BigEndian.encodeWord_injective (Option.some.inj hstored)
  rw [← hcount]
  rfl

theorem missing_rolled (h : Lined parse c path location others b live) :
    Rolled missingSpace live.store.table .empty :=
  .empty (h.idle.idle .missing (by decide))

theorem missingIds (h : Lined parse c path location others b live) :
    Scheduler.missingIds live = .ok [] live :=
  h.read (beside_ids fun _ _ => rfl) mirrors_missingIds preserves_ids
    (Filed.listIds h.missing_rolled)

theorem missingCount (h : Lined parse c path location others b live) :
    Scheduler.missingCount live = .ok 0 live := by
  refine h.read (fun _ _ => rfl) mirrors_missingCount (fun _ hs => hs) ?_
  obtain ⟨set, hset⟩ := h.missing_rolled.stored
  rw [Plain.missingCount, onSet_run hset, Runs.bind_apply, Runs.bind_apply, OrderedSet.size_run,
    OrderedSet.space_of_stored hset, h.missing_rolled.listed]
  rfl

/-! ### Writing -/

theorem putJob (h : Lined parse c path location others b live) {job : J}
    (hjob : parse (Job.bytes job) = .ok job) (hc : c.Writes (filing job) c')
    (hroom : b.pending + 1 < UInt64.size) :
    ∃ live', Scheduler.putJob job live = .ok () live' ∧
      Lined parse c' path location others (b.put job) live' := by
  rcases h.filed.putJob hashed_nil hjob hroom with ⟨t, hput, ht, -⟩ | ⟨hrefused, -⟩
  · obtain ⟨live', hok, rfl⟩ :=
      h.placed.ok_of_plain (beside_putJob job) (mirrors_putJob hashed_nil hjob) hput
    exact ⟨live', hok, (preserves_putJob hjob).of_ok h.placed hok, ht, h.idle.putJob hc hput⟩
  · rw [h.idle.granted] at hrefused
    cases hrefused

theorem addRunnable (h : Lined parse c path location others b live) (id : JobId)
    (hroom : b.queue.puts + 1 < UInt64.size) :
    ∃ live', Scheduler.addRunnable id live = .ok () live' ∧
      Lined parse c path location others (b.enqueue id) live' := by
  rcases h.filed.addRunnable hashed_nil id fun _ => hroom with ⟨t, hadd, ht, -⟩ | ⟨hrefused, -⟩
  · obtain ⟨live', hok, rfl⟩ :=
      h.placed.ok_of_plain (.onRunnable _) (mirrors_addRunnable hashed_nil id) hadd
    exact ⟨live', hok, (preserves_addRunnable id).of_ok h.placed hok, ht, h.idle.addRunnable hadd⟩
  · rw [h.idle.granted] at hrefused
    cases hrefused

theorem removeRunnable (h : Lined parse c path location others b live) {id : JobId}
    {rest : List JobId} (hq : b.queue.members = id :: rest) {job : J}
    (hjob : b.job? id = some job) :
    ∃ live', Scheduler.removeRunnable live = .ok job live' ∧
      Lined parse c path location others (b.dequeue.drop id) live' := by
  rcases h.filed.removeRunnable hashed_nil with
    ⟨id', rest', job', t, hq', hjob', hremove, ht, -⟩ | ⟨hnone, -⟩
  · obtain ⟨rfl, -⟩ := List.cons.inj (hq.symm.trans hq')
    obtain rfl := Option.some.inj (hjob.symm.trans hjob')
    obtain ⟨live', hok, rfl⟩ :=
      h.placed.ok_of_plain beside_removeRunnable (mirrors_removeRunnable hashed_nil) hremove
    exact ⟨live', hok, preserves_removeRunnable.of_ok h.placed hok, ht,
      h.idle.removeRunnable hremove⟩
  · rw [hnone h.idle.granted id rest hq] at hjob
    cases hjob

theorem removeDependents (h : Lined parse c path location others b live) (id : JobId) :
    ∃ live', Scheduler.removeDependents id live = .ok [] live' ∧
      Lined parse c path location others b live' := by
  obtain ⟨live', hok, hstore⟩ :=
    h.placed.removeDependents_none (h.idle.idle (.bucket id) (Nat.le_succ 3))
  refine ⟨live', hok, (preserves_removeDependents id).of_ok h.placed hok, ?_, ?_⟩
  · rw [hstore]
    exact h.filed
  · rw [hstore]
    exact h.idle

/-- The first job is executed, and nobody waited for it. -/
theorem executeNext {W : Type} (h : Lined parse c path location others b live) {id : JobId}
    {rest : List JobId} (hq : b.queue.members = id :: rest) {job : J}
    (hjob : b.job? id = some job) {runner : Runner W J} {w w' : W}
    (hexecute : runner.execute job w = .ok () w') :
    ∃ live', Scheduler.executeNext runner (w, live) = .ok () (w', live') ∧
      Lined parse c path location others (b.dequeue.drop id) live' := by
  obtain ⟨taken, htake, htaken⟩ := h.removeRunnable hq hjob
  obtain ⟨live', hclear, hlive'⟩ := htaken.removeDependents (Job.id job)
  refine ⟨live', ?_, hlive'⟩
  rw [executeNext_run, htake]
  simp only [hexecute, hclear]
  rfl

theorem clear (h : Lined parse c path location others b live)
    (hc : c.Writes (clearing live.store.table) c') :
    ∃ live', Scheduler.clear live = .ok () live' ∧
      Lined parse c' path location others .empty live' := by
  have hw : live.store.writesLeft ≠ some 0 := by simp [h.idle.granted]
  have hkept := h.idle.kept.write hc (Store.write_ok hw _)
  obtain ⟨records, hlog⟩ := h.idle.kept.log
  have hok := h.placed.inPlace.clear_run
  rw [if_neg hw] at hok
  refine ⟨_, hok, preserves_clear.of_ok h.placed hok, ?_, hkept, fun l hl => ?_,
    fun part hpart key => ?_⟩
  · show Filed [] parse .empty (live.store.after _).table
    rw [Store.table_after]
    exact filed_of_bare (bare_clearing _) parse
  · exact (Store.node?_after hlog _ hl).trans (h.idle.others l hl)
  · show part.space.view (live.store.after _).table key = none
    rw [Store.table_after]
    refine view_clearing part (fun he => ?_) _ key
    rw [he] at hpart
    exact absurd hpart (by decide)

end Lined

omit [Job J] in
/-- The caches of a scheduler that was just opened are empty. -/
theorem caches_of_load {parse : Parser J} {options : Options} (hcaching : options.caching = true)
    {metrics : Option (CacheMetrics × CacheMetrics)} {store t : Store} {scheduler : Scheduler J}
    (h : load parse options metrics store = .ok scheduler t) :
    scheduler.jobs.cache = .new options.jobsCapacity (metrics.map (·.1)) ∧
      scheduler.dependents.buckets = .new options.dependentsCapacity (metrics.map (·.2)) := by
  obtain ⟨pending, u, -, hrunnable⟩ := Runs.bind_eq_ok.mp h
  obtain ⟨runnable, v, -, hmissing⟩ := Runs.bind_eq_ok.mp hrunnable
  obtain ⟨missing, w, -, hdone⟩ := Runs.bind_eq_ok.mp hmissing
  rw [if_pos hcaching] at hdone
  cases hdone
  exact ⟨rfl, rfl⟩

/-- A scheduler can be opened on the books that a store holds, or on a store without entries. -/
theorem lined_of_load {parse : Parser J} {c : Condition} {path : String} {location : Location}
    {others : FileTree} {b : Books J} {store : Store}
    (h : Filed [] parse b store.table ∨ store.table = .empty ∧ b = .empty)
    (hidle : Idle c path location others store) (options : Options)
    (metrics : Option (CacheMetrics × CacheMetrics)) :
    ∃ scheduler t, load parse options metrics store = .ok scheduler t ∧
      Lined parse c path location others b ⟨scheduler, t⟩ := by
  rcases h with hfiled | ⟨hempty, rfl⟩
  · obtain ⟨set, hset⟩ := hfiled.queue.stored
    obtain ⟨missing, hmissing⟩ := (Rolled.empty (hidle.idle .missing (by decide))).stored
    have hrunnableAgrees : SetAgrees runnableSpace ⟨runnableSpace, set⟩ store.table := ⟨rfl, hset⟩
    have hmissingAgrees : SetAgrees missingSpace ⟨missingSpace, missing⟩ store.table :=
      ⟨rfl, hmissing⟩
    obtain ⟨scheduler, hload⟩ : ∃ scheduler : Scheduler J,
        load parse options metrics store = .ok scheduler store :=
      load_of_agrees hfiled.countAgrees hrunnableAgrees hmissingAgrees options metrics
    have hcoherent : Coherent [] parse ⟨scheduler, store⟩ := coherent_of_load hload
    exact ⟨scheduler, store, hload, hcoherent.placed, hfiled, hidle⟩
  · obtain ⟨scheduler, t, hload⟩ := load_of_empty parse hempty hidle.granted options metrics
    obtain ⟨hkeeps, -⟩ := keeps_of_load hashed_nil hempty hload
    obtain rfl := store_of_load hempty hload
    have hholds : pendingSpace.Holds firstBatch := by
      intro op hop
      rw [List.mem_singleton.mp hop]
      exact ⟨_, rfl⟩
    exact ⟨scheduler, _, hload, hkeeps.coherent.placed, hkeeps.filed, hidle.after
      (.framed (by decide +kernel)) (Part.within_of_holds .pending trivial hholds) (by decide)⟩

end WorkQueue.Scheduler
