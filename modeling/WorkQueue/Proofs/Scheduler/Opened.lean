import WorkQueue.Proofs.Scheduler.Drain
import WorkQueue.Proofs.Scheduler.Placed
import WorkQueue.Scheduler.Worker

/-!
# The states that commands lead to

`Opened` are the states of a scheduler that is opened on a store, whatever the store holds, and then
given commands in any order, while the store may come to refuse writes at any time. A command is not
to store a job whose bytes are read as another one (`Command.Faithful`). All of these states are
`Placed` (`Opened.placed`).
-/

namespace WorkQueue

namespace Scheduler

variable {W J α : Type} {parse : Parser J}

open Runs (Preserves)

/-! ## Missing ids -/

theorem preserves_addMissing (ids : List JobId) :
    Preserves (Placed parse) (addMissing ids : LiveM (Scheduler J) Unit) :=
  preserves_onMissing fun t => .forM (fun id => inSet_push .missing trivial id t) ids

theorem preserves_removeMissing (ids : List JobId) :
    Preserves (Placed parse) (removeMissing ids : LiveM (Scheduler J) Unit) :=
  preserves_onMissing fun t => .forM (fun id => inSet_erase .missing trivial id t) ids

/-! ## Clearing -/

/-- The operations that take out all keys of a namespace. -/
def cleared (space : Namespace) (t : Table) : Batch :=
  (t.scan space.lead).map fun e => .delete e.1

/-- The operations with which `clear` takes out all keys. -/
def deletions (s : Scheduler J) (t : Table) : Batch :=
  cleared s.runnable.space t ++ cleared s.jobs.space t ++ cleared s.dependents.space t ++
    cleared s.missing.space t

/-- The rest of `clear`, once all keys are taken out. -/
def afterDeletions : LiveM (Scheduler J) Unit := do
  LiveM.update fun s => { s with jobs := s.jobs.flush, dependents := s.dependents.flush }
  onRunnable IdSet.reload
  onMissing IdSet.reload
  LiveM.update fun s => { s with pending := { s.pending with count := 0 } }

theorem clear_run (live : Live (Scheduler J)) :
    clear live =
      if live.store.writesLeft = some 0 then .error (.file .writeRefused) live
      else afterDeletions ⟨live.memory, live.store.after
        (deletions live.memory live.store.table ++ live.memory.pending.stageReset.2)⟩ := by
  have hwrite : clear live = (LiveM.onStore (Store.write (deletions live.memory live.store.table ++
      live.memory.pending.stageReset.2)) >>= fun _ => afterDeletions) live := rfl
  rw [hwrite, Runs.bind_apply, LiveM.onStore, Store.write_eq]
  by_cases hw : live.store.writesLeft = some 0
  · rw [if_pos hw, if_pos hw]
  · rw [if_neg hw, if_neg hw]

/-- A set is read again from a namespace without entries. -/
theorem reload_of_empty {set : IdSet} {s : Store} (h : ∀ key, set.space.view s.table key = none) :
    IdSet.reload ⟨set, s⟩ = .ok () ⟨⟨set.space, ⟨set.space, 0⟩⟩, s⟩ := by
  have hstored : OrderedSet.stored set.space s.table = .ok ⟨set.space, 0⟩ := by
    rw [OrderedSet.stored, h]
  simp only [IdSet.reload, LiveM.renew, Runs.bind_apply, OrderedSet.load_run, hstored]
  rfl

/-- What is in memory after `clear`. -/
def emptied (s : Scheduler J) : Scheduler J where
  jobs := s.jobs.flush
  dependents := s.dependents.flush
  runnable := ⟨s.runnable.space, ⟨s.runnable.space, 0⟩⟩
  missing := ⟨s.missing.space, ⟨s.missing.space, 0⟩⟩
  pending := { s.pending with count := 0 }

theorem afterDeletions_run {s : Scheduler J} {u : Store}
    (hrunnable : ∀ key, s.runnable.space.view u.table key = none)
    (hmissing : ∀ key, s.missing.space.view u.table key = none) :
    afterDeletions ⟨s, u⟩ = .ok () ⟨emptied s, u⟩ := by
  simp only [afterDeletions, Runs.bind_apply, LiveM.update, onRunnable, onMissing, LiveM.onPart,
    reload_of_empty hrunnable, reload_of_empty hmissing]
  rfl

/-- The parts of a scheduler work in their namespaces. -/
structure InPlace (s : Scheduler J) : Prop where
  jobs : s.jobs.space = jobsSpace
  dependents : s.dependents.space = dependentsSpace
  runnable : s.runnable.space = runnableSpace
  missing : s.missing.space = missingSpace
  pending : s.pending.space = pendingSpace

theorem Placed.inPlace {live : Live (Scheduler J)} (h : Placed parse live) :
    InPlace live.memory :=
  ⟨h.jobs.space_eq, h.dependents.space_eq, h.runnable.space_eq, h.missing.space_eq,
    h.pending.space_eq⟩

/-- The batch with which `clear` takes everything out of a table. -/
def clearing (t : Table) : Batch :=
  cleared runnableSpace t ++ cleared jobsSpace t ++ cleared dependentsSpace t ++
    cleared missingSpace t ++ [pendingSpace.stagePut Counter.key (BigEndian.encodeWord 0)]

/-- A store from which everything has been taken out. -/
structure Bare (t : Table) : Prop where
  jobs : ∀ key, jobsSpace.view t key = none
  runnable : ∀ key, runnableSpace.view t key = none
  missing : ∀ key, missingSpace.view t key = none
  pending : pendingSpace.view t Counter.key = some (BigEndian.encodeWord 0)

theorem InPlace.deletions {s : Scheduler J} (h : InPlace s) (t : Table) :
    deletions s t ++ s.pending.stageReset.2 = clearing t := by
  rw [Scheduler.deletions, Counter.stageReset, Counter.stage, h.runnable, h.jobs, h.dependents,
    h.missing, h.pending]
  rfl

theorem mem_cleared {space : Namespace} {t : Table} {key : Bytes} :
    key ∈ (cleared space t).map Operation.key ↔ space.lead <+: key ∧ (t.get? key).isSome := by
  have hkeys : (cleared space t).map Operation.key = (t.scan space.lead).map (·.1) := by
    rw [cleared, List.map_map]
    rfl
  rw [hkeys, List.mem_map, Option.isSome_iff_exists]
  constructor
  · rintro ⟨⟨k, value⟩, hmem, rfl⟩
    obtain ⟨hlead, hvalue⟩ := Table.mem_scan.mp hmem
    exact ⟨hlead, value, hvalue⟩
  · rintro ⟨hlead, value, hvalue⟩
    exact ⟨(key, value), Table.mem_scan.mpr ⟨hlead, hvalue⟩, rfl⟩

/-- The namespaces that `clearing` empties. -/
def sweptSpaces : List Namespace := [runnableSpace, jobsSpace, dependentsSpace, missingSpace]

/-- What a table has once everything was taken out: the number of pending jobs, which is stored
last, and what lies outside of the namespaces that are emptied. -/
theorem get?_clearing (t : Table) (key : Bytes) :
    (Batch.apply (clearing t) t).get? key =
      if key = pendingSpace.key Counter.key then some (BigEndian.encodeWord 0)
      else if ∃ space ∈ sweptSpaces, space.lead <+: key then none
      else t.get? key := by
  have hdeletes : ∀ op ∈ cleared runnableSpace t ++ cleared jobsSpace t ++
      cleared dependentsSpace t ++ cleared missingSpace t, op.isPut = false := by
    intro op hop
    simp only [cleared, List.mem_append, List.mem_map] at hop
    rcases hop with ((⟨e, -, rfl⟩ | ⟨e, -, rfl⟩) | ⟨e, -, rfl⟩) | ⟨e, -, rfl⟩ <;> rfl
  have hmem : key ∈ (cleared runnableSpace t ++ cleared jobsSpace t ++ cleared dependentsSpace t ++
      cleared missingSpace t).map Operation.key ↔
        (∃ space ∈ sweptSpaces, space.lead <+: key) ∧ (t.get? key).isSome := by
    simp only [List.map_append, List.mem_append, mem_cleared, ← or_and_right, or_assoc]
    simp [sweptSpaces]
  rw [clearing, Batch.apply_append, Namespace.stagePut, Batch.apply_cons, Batch.apply_nil,
    Operation.apply, Table.get?_put, Batch.get?_apply_deletes hdeletes]
  simp only [hmem]
  cases t.get? key <;> simp

/-- Only the number of pending jobs is left. -/
theorem view_clearing (part : Part) (hne : part.rank ≠ Part.pending.rank) (t : Table) (key : Bytes) :
    part.space.view (Batch.apply (clearing t) t) key = none := by
  have hswept : ∃ space ∈ sweptSpaces, space.lead <+: part.space.key key := by
    refine ⟨part.outer, ?_, part.lead_prefix key⟩
    cases part with
    | pending => exact absurd rfl hne
    | _ => simp [sweptSpaces, Part.outer, Part.space]
  have hkey : part.space.key key ≠ pendingSpace.key Counter.key :=
    Part.apart_of_rank_ne (b := .pending) hne key Counter.key
  rw [Namespace.view, get?_clearing, if_neg hkey, if_pos hswept]

theorem bare_clearing (t : Table) : Bare (Batch.apply (clearing t) t) := by
  refine ⟨view_clearing .jobs (by decide) t, view_clearing .runnable (by decide) t,
    view_clearing .missing (by decide) t, ?_⟩
  rw [Namespace.view, get?_clearing, if_pos rfl]

/-- Clearing takes everything out, of the store and of memory, or is refused. -/
theorem InPlace.clear_run {live : Live (Scheduler J)} (h : InPlace live.memory) :
    clear live =
      if live.store.writesLeft = some 0 then .error (.file .writeRefused) live
      else .ok () ⟨emptied live.memory, live.store.after (clearing live.store.table)⟩ := by
  have hbare := bare_clearing live.store.table
  rw [Scheduler.clear_run, h.deletions]
  congr 1
  refine afterDeletions_run ?_ ?_ <;> rw [Store.table_after]
  · rw [h.runnable]
    exact hbare.runnable
  · rw [h.missing]
    exact hbare.missing

theorem emptied_jobsAgree {s : Scheduler J} {t t' : Table} (h : JobsAgree parse s.jobs t) :
    JobsAgree parse (emptied s).jobs t' :=
  ⟨h.space_eq, h.parse_eq, fun _ id job hf => absurd (hf.symm.trans (Cache.find?_flush _ id))
    (Option.some_ne_none job)⟩

/-- Both sets and the number in memory are those of a store from which everything was taken. -/
theorem InPlace.emptied_agrees {s : Scheduler J} (h : InPlace s) {t : Table} (hbare : Bare t) :
    SetAgrees runnableSpace (emptied s).runnable t ∧ SetAgrees missingSpace (emptied s).missing t ∧
      CountAgrees (emptied s).pending t := by
  have hempty : ∀ {space : Namespace}, (∀ key, space.view t key = none) →
      OrderedSet.stored space t = .ok ⟨space, 0⟩ := by
    intro space hnone
    rw [OrderedSet.stored, hnone]
  refine ⟨⟨h.runnable, ?_⟩, ⟨h.missing, ?_⟩, h.pending, hbare.pending⟩
  · rw [emptied, h.runnable]
    exact hempty hbare.runnable
  · rw [emptied, h.missing]
    exact hempty hbare.missing

theorem preserves_clear : Preserves (Placed parse) (clear : LiveM (Scheduler J) Unit) := by
  intro live hlive
  have hplace := hlive.inPlace
  rw [hplace.clear_run]
  by_cases hw : live.store.writesLeft = some 0
  · rw [if_pos hw]
    exact hlive
  rw [if_neg hw]
  obtain ⟨hrunnable, hmissing, hpending⟩ :=
    hplace.emptied_agrees (bare_clearing live.store.table)
  rw [← Store.table_after] at hrunnable hmissing hpending
  exact ⟨emptied_jobsAgree hlive.jobs, ⟨hplace.dependents, fun _ k bucket hf =>
    absurd (hf.symm.trans (Cache.find?_flush _ k)) (Option.some_ne_none bucket)⟩,
    hrunnable, hmissing, hpending⟩

/-! ## Reading -/

theorem final_hasJob (id : JobId) (live : Live (Scheduler J)) :
    Runs.final (hasJob id live) = live := by
  have hrun : hasJob id live = LiveM.onStore (live.memory.jobs.has id) live := rfl
  rw [hrun, final_onStore, JobStore.has]
  split <;> rfl

theorem final_ids (set : IdSet) (s : Store) : Runs.final (set.ids s) = s := by
  simp only [IdSet.ids, Runs.bind_apply, OrderedSet.members_run, Runs.mapM_ofExcept]
  cases ((OrderedSet.listed set.order.space s.table).map (·.2)).mapM JobId.ofBytes <;> rfl

section Reading

variable {P : Live (Scheduler J) → Prop}

theorem preserves_hasJob (id : JobId) : Preserves P (hasJob id) := by
  intro live hlive
  rwa [final_hasJob]

theorem preserves_hasRunnable : Preserves P hasRunnable := fun _ h => h

/-- The ids of either set are read. -/
theorem preserves_ids {set : Scheduler J → IdSet} :
    Preserves P (do LiveM.onStore (set (← LiveM.memory)).ids) := by
  intro live hlive
  have hrun : (do LiveM.onStore (set (← LiveM.memory)).ids : LiveM (Scheduler J) (List JobId)) live =
      LiveM.onStore (set live.memory).ids live := rfl
  rwa [hrun, final_onStore, final_ids]

end Reading

/-! ## Pushing and draining -/

theorem preserves_disableCaching :
    Preserves (Placed parse) (disableCaching : LiveM (Scheduler J) Unit) := by
  rintro live ⟨⟨hjobs, hparse, -⟩, ⟨hdependents, -⟩, hrunnable, hmissing, hpending⟩
  exact ⟨⟨hjobs, hparse, fun h => absurd h Bool.false_ne_true⟩,
    ⟨hdependents, fun h => absurd h Bool.false_ne_true⟩, hrunnable, hmissing, hpending⟩

theorem preserves_push [Job J] (missing : J → Except Error (List JobId)) {job : J}
    (hjob : parse (Job.bytes job) = .ok job) :
    Preserves (Placed parse) (push missing job) := by
  refine (preserves_hasJob (Job.id job)).bind fun known => ?_
  split
  · exact .pure false
  refine (Preserves.ofExcept _).bind fun waits => (preserves_putJob hjob).bind fun _ => ?_
  split
  · exact (preserves_addRunnable _).bind fun _ => .pure true
  · exact (Preserves.forM (fun d => preserves_addDependency d _) waits).bind fun _ => .pure true

section Worlds

variable {P : Live (Scheduler J) → Prop}

theorem preserves_onQueue {x : LiveM (Scheduler J) α} (h : Preserves P x) :
    Preserves (fun s : W × Live (Scheduler J) => P s.2) (DrainM.onQueue x) := by
  rintro ⟨w, live⟩ hlive
  rw [DrainM.onQueue_apply]
  cases hx : x live with
  | ok a t => exact h.of_ok hlive hx
  | error e t => exact h.of_error hlive hx

theorem preserves_onWorld (x : EStateM Error W α) :
    Preserves (fun s : W × Live (Scheduler J) => P s.2) (DrainM.onWorld x) := by
  rintro ⟨w, live⟩ hlive
  rw [DrainM.onWorld_apply]
  cases x w <;> exact hlive

end Worlds

theorem preserves_release (runner : Runner W J) (ids : List JobId) :
    Preserves (fun s => Placed parse s.2) (release runner ids) := by
  refine .forM (fun id => ?_) ids
  have hworld : Preserves (fun s => Placed parse s.2) (DrainM.world (W := W)) := fun _ h => h
  refine (preserves_onQueue (preserves_getJob id)).bind fun job => hworld.bind fun w => ?_
  refine (Preserves.ofExcept _).bind fun missing => ?_
  split
  · exact preserves_onQueue (preserves_addRunnable id)
  · exact .pure _

variable [Job J]

theorem preserves_executeNext (runner : Runner W J) :
    Preserves (fun s => Placed parse s.2) (executeNext runner) := by
  refine (preserves_onQueue preserves_removeRunnable).bind fun job => ?_
  refine (preserves_onWorld _).bind fun _ => ?_
  exact (preserves_onQueue (preserves_removeDependents _)).bind fun ids =>
    preserves_release runner ids

end Scheduler

/-! ## Commands -/

open Runs (Preserves)

variable {W J : Type} [Job J] {parse : Parser J}

/-- A job that a command stores is read back from its bytes. -/
def Command.Faithful (parse : Parser J) : Command W J → Prop
  | .putJob job => parse (Job.bytes job) = .ok job
  | _ => True

namespace Scheduler

/-- Every command leaves a scheduler placed. -/
theorem preserves_perform {command : Command W J} (hf : command.Faithful parse) :
    Preserves (fun s => Placed parse s.2) command.perform := by
  cases command with
  | putJob job => exact preserves_onQueue ((preserves_putJob hf).bind fun _ => .pure _)
  | hasJob id => exact preserves_onQueue ((preserves_hasJob id).bind fun _ => .pure _)
  | getJob id => exact preserves_onQueue ((preserves_getJob id).bind fun _ => .pure _)
  | addRunnable id => exact preserves_onQueue ((preserves_addRunnable id).bind fun _ => .pure _)
  | hasRunnable => exact preserves_onQueue (preserves_hasRunnable.bind fun _ => .pure _)
  | runnableIds => exact preserves_onQueue (preserves_ids.bind fun _ => .pure _)
  | removeRunnable => exact preserves_onQueue (preserves_removeRunnable.bind fun _ => .pure _)
  | addDependency d id =>
    exact preserves_onQueue ((preserves_addDependency d id).bind fun _ => .pure _)
  | removeDependents d =>
    exact preserves_onQueue ((preserves_removeDependents d).bind fun _ => .pure _)
  | addMissing ids => exact preserves_onQueue ((preserves_addMissing ids).bind fun _ => .pure _)
  | removeMissing ids =>
    exact preserves_onQueue ((preserves_removeMissing ids).bind fun _ => .pure _)
  | missingIds => exact preserves_onQueue (preserves_ids.bind fun _ => .pure _)
  | missingCount => exact fun _ h => h
  | pendingCount => exact fun _ h => h
  | disableCaching => exact preserves_onQueue (preserves_disableCaching.bind fun _ => .pure _)
  | clear => exact preserves_onQueue (preserves_clear.bind fun _ => .pure _)
  | execute runner limit =>
    exact (preserves_drain (preserves_executeNext runner) limit).bind fun _ => .pure _

/-- The states of a scheduler that has been opened on any store and given any commands. -/
inductive Opened (parse : Parser J) : Live (Scheduler J) → Prop where
  | loaded {store t : Store} {options : Options} {metrics : Option (CacheMetrics × CacheMetrics)}
      {scheduler : Scheduler J} (hload : load parse options metrics store = .ok scheduler t) :
      Opened parse ⟨scheduler, t⟩
  /-- The same entries in a store that refuses other writes, or whose log was compacted. -/
  | kept {live : Live (Scheduler J)} {store : Store} (h : Opened parse live)
      (ht : store.table = live.store.table) : Opened parse ⟨live.memory, store⟩
  | performed {W : Type} {live : Live (Scheduler J)} (h : Opened parse live)
      {command : Command W J} (hf : command.Faithful parse) (w : W) :
      Opened parse (Runs.final (command.perform (w, live))).2
  | pushed {live : Live (Scheduler J)} (h : Opened parse live)
      {missing : J → Except Error (List JobId)} {job : J}
      (hjob : parse (Job.bytes job) = .ok job) :
      Opened parse (Runs.final (push missing job live))

/-- Whatever has been done to a scheduler, its parts are in their places. -/
theorem Opened.placed {live : Live (Scheduler J)} (h : Opened parse live) : Placed parse live := by
  induction h with
  | loaded hload =>
    have hcoherent : Coherent [] parse _ := coherent_of_load hload
    exact hcoherent.placed
  | kept _ ht ih => exact ih.of_table ht
  | performed _ hf w ih => exact preserves_perform hf (w, _) ih
  | pushed _ hjob ih => exact preserves_push _ hjob _ ih

end Scheduler

end WorkQueue
