import WorkQueue.Proofs.Scheduler.Blank
import WorkQueue.Proofs.Scheduler.Held

/-!
# Schedulers over any store

A scheduler is `Sited` when its parts, its sets and the buckets that it remembers work in their
namespaces. That is so from the moment it is opened (`sited_of_load`), and no command changes it,
whatever the store holds and whoever else writes to it (`sited_perform`): a scheduler never takes
over a namespace from the store. So nothing that holds of sited schedulers asks anything of the
entries, or of what memory has of them.
-/

namespace WorkQueue.Scheduler

open Runs (Preserves)

variable {W J α : Type} {live : Live (Scheduler J)}

/-- The parts of a scheduler work in their namespaces, whatever else they have in memory. -/
structure Sited (live : Live (Scheduler J)) : Prop where
  places : InPlace live.memory
  buckets : BucketsPlaced live.memory.dependents
  queue : live.memory.runnable.order.space = runnableSpace
  absent : live.memory.missing.order.space = missingSpace

/-- A scheduler that has in memory what its store has is sited. -/
theorem Held.sited (h : Held live) : Sited live :=
  ⟨h.inPlace, h.dependents, OrderedSet.space_of_stored h.runnable.order,
    OrderedSet.space_of_stored h.missing.order⟩

theorem sited_of_load {parse : Parser J} {options : Options}
    {metrics : Option (CacheMetrics × CacheMetrics)} {store t : Store} {scheduler : Scheduler J}
    (hload : load parse options metrics store = .ok scheduler t) : Sited ⟨scheduler, t⟩ := by
  have hcoherent : Coherent [] parse ⟨scheduler, t⟩ := coherent_of_load hload
  exact hcoherent.placed.held.sited

namespace Sited

/-- The store may be any other one. -/
theorem of_store (h : Sited live) (t : Store) : Sited ⟨live.memory, t⟩ :=
  ⟨h.places, h.buckets, h.queue, h.absent⟩

/-- Other stored jobs and another number of them may be in memory. -/
theorem with_jobs (h : Sited live) {jobs : JobStore J} (hjobs : jobs.space = jobsSpace) (t : Store)
    (count : UInt64) :
    Sited ⟨{ live.memory with jobs, pending := { live.memory.pending with count } }, t⟩ :=
  ⟨⟨hjobs, h.places.dependents, h.places.runnable, h.places.missing, h.places.pending⟩, h.buckets,
    h.queue, h.absent⟩

theorem with_dependents (h : Sited live) {d : Dependents} (hd : BucketsPlaced d) (t : Store) :
    Sited ⟨{ live.memory with dependents := d }, t⟩ :=
  ⟨⟨h.places.jobs, hd.space_eq, h.places.runnable, h.places.missing, h.places.pending⟩, hd, h.queue,
    h.absent⟩

end Sited

/-! ## Sets -/

/-- A set and its entries are in a namespace. -/
def SetSited (space : Namespace) (set : IdSet) : Prop :=
  set.space = space ∧ set.order.space = space

section Sets

variable {space : Namespace}

theorem sited_push (id : JobId) :
    Preserves (fun part : Live IdSet => SetSited space part.memory) (IdSet.push id) := by
  rintro ⟨set, s⟩ ⟨hspace, horder⟩
  simp only [IdSet.push, LiveM.renew, Runs.bind_apply]
  cases hput : set.order.put id.bytes s with
  | error e t => exact ⟨hspace, horder⟩
  | ok r t =>
    obtain ⟨added, order⟩ := r
    exact ⟨hspace, ((OrderedSet.steady_put id.bytes).inside hput).1.trans horder⟩

theorem sited_erase (id : JobId) :
    Preserves (fun part : Live IdSet => SetSited space part.memory) (IdSet.erase id) := by
  intro part h
  have hrun : IdSet.erase id part = LiveM.onStore (part.memory.order.delete id.bytes) part := rfl
  rw [hrun, final_onStore]
  exact h

theorem sited_pop : Preserves (fun part : Live IdSet => SetSited space part.memory) IdSet.pop := by
  intro part h
  rw [pop_run]
  cases Plain.takeHead part.memory.order part.store <;> exact h

theorem sited_onRunnable {x : LiveM IdSet α}
    (h : Preserves (fun part => SetSited runnableSpace part.memory) x) :
    Preserves Sited (onRunnable x : LiveM (Scheduler J) α) := by
  intro live hlive
  obtain ⟨hspace, hqueue⟩ := h ⟨live.memory.runnable, live.store⟩
    ⟨hlive.places.runnable, hlive.queue⟩
  rw [onRunnable, final_onPart]
  exact ⟨⟨hlive.places.jobs, hlive.places.dependents, hspace, hlive.places.missing,
    hlive.places.pending⟩, hlive.buckets, hqueue, hlive.absent⟩

theorem sited_onMissing {x : LiveM IdSet α}
    (h : Preserves (fun part => SetSited missingSpace part.memory) x) :
    Preserves Sited (onMissing x : LiveM (Scheduler J) α) := by
  intro live hlive
  obtain ⟨hspace, habsent⟩ := h ⟨live.memory.missing, live.store⟩
    ⟨hlive.places.missing, hlive.absent⟩
  rw [onMissing, final_onPart]
  exact ⟨⟨hlive.places.jobs, hlive.places.dependents, hlive.places.runnable, hspace,
    hlive.places.pending⟩, hlive.buckets, hlive.queue, habsent⟩

end Sets

/-! ## Jobs and buckets -/

theorem sited_getJob (id : JobId) :
    Preserves Sited (getJob (J := J) id) := by
  intro live hlive
  have hblank := JobStore.blank_get id ⟨live.memory.jobs, live.store⟩ rfl
  have hspace : (Runs.final (JobStore.get id ⟨live.memory.jobs, live.store⟩)).memory.space =
      jobsSpace := (congrArg JobStore.space hblank).trans hlive.places.jobs
  rw [getJob, onJobs, final_onPart]
  exact hlive.with_jobs hspace _ _

theorem sited_dropJob (id : JobId) (a : α) :
    Preserves Sited (dropJob id a : LiveM (Scheduler J) α) := by
  intro live hlive
  rw [dropJob_run]
  split
  · exact hlive
  · have hforget : (live.memory.jobs.forget id).space = jobsSpace := hlive.places.jobs
    exact hlive.with_jobs hforget _ _

theorem sited_removeRunnable :
    Preserves Sited (removeRunnable (J := J)) := by
  refine (sited_onRunnable sited_pop).bind fun key => ?_
  refine (Preserves.ofExcept _).bind fun id => ?_
  refine (preserves_afterDequeue (sited_getJob id) id).bind fun job => ?_
  exact sited_dropJob id job

theorem sited_withBucket {dependency : JobId} {action : OrderedSet → StoreM (α × OrderedSet)}
    (hs : OrderedSet.Steady action) :
    Preserves (fun part : Live Dependents => BucketsPlaced part.memory)
      (Dependents.withBucket dependency action) :=
  fun part h => (inBucket_withBucket hs part.store.table part ⟨h, .refl _ _⟩).1

theorem sited_onDependents {x : LiveM Dependents α}
    (h : Preserves (fun part => BucketsPlaced part.memory) x) :
    Preserves Sited (onDependents x : LiveM (Scheduler J) α) := by
  intro live hlive
  rw [onDependents, final_onPart]
  exact hlive.with_dependents (h ⟨live.memory.dependents, live.store⟩ hlive.buckets) _

theorem sited_removeDependents (dependency : JobId) :
    Preserves Sited (removeDependents (J := J) dependency) :=
  sited_onDependents (sited_withBucket (OrderedSet.steady_takeAll JobId.ofBytes))

/-- What `clear` leaves in memory is in place, with no bucket remembered. -/
theorem Sited.emptied (h : Sited live) (t : Store) : Sited ⟨Scheduler.emptied live.memory, t⟩ :=
  ⟨⟨h.places.jobs, h.places.dependents, h.places.runnable, h.places.missing, h.places.pending⟩,
    ⟨h.places.dependents, fun _ k bucket hf =>
      absurd (hf.symm.trans (Cache.find?_flush _ k)) (Option.some_ne_none bucket)⟩,
    h.places.runnable, h.places.missing⟩

theorem sited_clear : Preserves Sited (clear (J := J)) := by
  intro live hlive
  rw [hlive.places.clear_run]
  split
  · exact hlive
  · exact hlive.emptied _

theorem sited_disableCaching :
    Preserves Sited (disableCaching (J := J)) :=
  fun _ h => ⟨⟨h.places.jobs, h.places.dependents, h.places.runnable, h.places.missing,
    h.places.pending⟩, ⟨h.places.dependents, nofun⟩, h.queue, h.absent⟩

/-! ## Commands -/

section Commands

variable [Job J]

theorem sited_putJob (job : J) :
    Preserves Sited (putJob job) := by
  intro live hlive
  have hblank := congrArg JobStore.space (live.memory.jobs.blank_remember job)
  rw [putJob_run]
  split
  · exact hlive
  · have hspace : (live.memory.jobs.remember job).space = jobsSpace :=
      hblank.trans hlive.places.jobs
    exact hlive.with_jobs hspace _ _

theorem sited_executeNext (runner : Runner W J) :
    Preserves (fun s => Sited s.2) (executeNext runner) := by
  have hworld : Preserves (fun s => Sited s.2) (DrainM.world (W := W) (J := J)) :=
    fun _ h => h
  refine (preserves_onQueue sited_removeRunnable).bind fun job => ?_
  refine (preserves_onWorld _).bind fun _ => ?_
  refine (preserves_onQueue (sited_removeDependents _)).bind fun taken => .forM (fun id => ?_) taken
  refine (preserves_onQueue (sited_getJob id)).bind fun job => hworld.bind fun w => ?_
  refine (Preserves.ofExcept _).bind fun missing => ?_
  split
  · exact preserves_onQueue (sited_onRunnable (sited_push id).discard)
  · exact .pure _

/-- Every command leaves a scheduler sited, over any entries. -/
theorem sited_perform (command : Command W J) :
    Preserves (fun s => Sited s.2) command.perform := by
  cases command with
  | putJob job => exact preserves_onQueue ((sited_putJob job).bind fun _ => .pure _)
  | hasJob id => exact preserves_onQueue ((preserves_hasJob id).bind fun _ => .pure _)
  | getJob id => exact preserves_onQueue ((sited_getJob id).bind fun _ => .pure _)
  | addRunnable id =>
    exact preserves_onQueue ((sited_onRunnable (sited_push id).discard).bind fun _ => .pure _)
  | hasRunnable => exact preserves_onQueue (preserves_hasRunnable.bind fun _ => .pure _)
  | runnableIds => exact preserves_onQueue (preserves_ids.bind fun _ => .pure _)
  | removeRunnable => exact preserves_onQueue (sited_removeRunnable.bind fun _ => .pure _)
  | addDependency dependency dependent =>
    exact preserves_onQueue ((sited_onDependents
      (sited_withBucket (OrderedSet.steady_put dependent.bytes)).discard).bind fun _ => .pure _)
  | removeDependents dependency =>
    exact preserves_onQueue ((sited_removeDependents dependency).bind fun _ => .pure _)
  | addMissing ids =>
    exact preserves_onQueue ((sited_onMissing (.forM (fun id => (sited_push id).discard) ids)).bind
      fun _ => .pure _)
  | removeMissing ids =>
    exact preserves_onQueue ((sited_onMissing (.forM (fun id => (sited_erase id).discard) ids)).bind
      fun _ => .pure _)
  | missingIds => exact preserves_onQueue (preserves_ids.bind fun _ => .pure _)
  | missingCount => exact fun _ h => h
  | pendingCount => exact fun _ h => h
  | disableCaching => exact preserves_onQueue (sited_disableCaching.bind fun _ => .pure _)
  | clear => exact preserves_onQueue (sited_clear.bind fun _ => .pure _)
  | execute runner limit =>
    exact (preserves_drain (sited_executeNext runner) limit).bind fun _ => .pure _

end Commands

end WorkQueue.Scheduler
