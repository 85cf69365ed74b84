import Mathlib.Data.Finset.Card
import WorkQueue.Proofs.Scheduler.Dequeue
import WorkQueue.Proofs.Scheduler.Sited

/-!
# Rounds take jobs away

A round of the drain takes a job out that is stored or in the cache, and puts none in. So each round
leaves fewer ids under which there is a job, and as many rounds as there are such ids are enough.
All that is asked of the scheduler is that it is `Sited`: the store may hold any entries, and memory
may disagree with it.

* `Confined`: the ids under which there are jobs are among those of a set;
* `Confined.executeNext`: a round leaves one of the ids without a job;
* `drainFrom_rounds`: so how many rounds are allowed does not matter, once there are enough.
-/

namespace WorkQueue.Scheduler

open Runs (Preserves)

variable {W J α : Type} {ids : Finset JobId} {live : Live (Scheduler J)}

/-! ## Where there are jobs -/

/-- Jobs are stored and in the cache under ids of a set only. -/
structure JobsConfined (ids : Finset JobId) (jobs : JobStore J) (t : Table) : Prop where
  space_eq : jobs.space = jobsSpace
  stored : ∀ id : JobId, (jobsSpace.view t id.bytes).isSome → id ∈ ids
  cached : ∀ id job, jobs.cache.find? id = some job → id ∈ ids

/-- A scheduler is sited, and there are jobs under ids of a set only. -/
structure Confined (ids : Finset JobId) (live : Live (Scheduler J)) : Prop where
  sited : Sited live
  jobs : JobsConfined ids live.memory.jobs live.store.table

theorem JobsConfined.of_view {jobs : JobStore J} {t t' : Table} (h : JobsConfined ids jobs t)
    (hv : jobsSpace.view t' = jobsSpace.view t) : JobsConfined ids jobs t' :=
  ⟨h.space_eq, by rw [hv]; exact h.stored, h.cached⟩

/-- The ids under which there is a job, stored or in the cache. -/
def jobIds (live : Live (Scheduler J)) : Finset JobId :=
  ((jobsSpace.entries [] live.store.table).filterMap fun e => JobId.ofBytes? e.1).toFinset ∪
    live.memory.jobs.cache.keys.toFinset

theorem mem_jobIds {id : JobId} :
    id ∈ jobIds live ↔ (jobsSpace.view live.store.table id.bytes).isSome ∨
      (live.memory.jobs.cache.find? id).isSome := by
  rw [jobIds, Finset.mem_union, List.mem_toFinset, List.mem_toFinset, Cache.isSome_find?_iff,
    List.mem_filterMap]
  refine or_congr_left ⟨?_, fun h => ?_⟩
  · rintro ⟨e, he, hid⟩
    have hread : JobId.ofBytes e.1 = .ok id := by rw [JobId.ofBytes, hid]
    rw [← eq_bytes_of_ofBytes hread, (Namespace.mem_entries.mp he).2]
    rfl
  · obtain ⟨value, hvalue⟩ := Option.isSome_iff_exists.mp h
    exact ⟨(id.bytes, value), Namespace.mem_entries.mpr ⟨List.nil_prefix, hvalue⟩,
      JobId.ofBytes?_bytes id⟩

theorem Sited.confined (h : Sited live) : Confined (jobIds live) live :=
  ⟨h, h.places.jobs, fun _ hid => mem_jobIds.mpr (.inl hid),
    fun _ _ hf => mem_jobIds.mpr (.inr (Option.isSome_iff_exists.mpr ⟨_, hf⟩))⟩

/-- There are fewer ids under which there are jobs than rounds are allowed. -/
theorem Sited.card_jobIds_lt (h : Sited live) : (jobIds live).card < roundLimit live := by
  let stored := (jobsSpace.entries [] live.store.table).filterMap fun e => JobId.ofBytes? e.1
  let cached := live.memory.jobs.cache.keys
  have hstored : stored.length ≤ (live.store.table.scan live.memory.jobs.space.lead).length := by
    refine (List.length_filterMap_le _ _).trans (Nat.le_of_eq ?_)
    rw [Namespace.entries, List.length_map, h.places.jobs, Namespace.key, List.append_nil]
  have hcached : cached.length = live.memory.jobs.cache.size := List.length_map _
  have hunion : (jobIds live).card ≤ _ := Finset.card_union_le stored.toFinset cached.toFinset
  have hs := stored.toFinset_card_le
  have hc := cached.toFinset_card_le
  rw [roundLimit]
  omega

theorem Sited.exists_confined (h : Sited live) :
    ∃ ids : Finset JobId, Confined ids live ∧ ids.card < roundLimit live :=
  ⟨jobIds live, h.confined, h.card_jobIds_lt⟩

/-! ## One job less -/

/-- What comes of looking a job up where jobs are confined. -/
def JobsConfined.Found (ids : Finset JobId) (id : JobId) (s : Store)
    (x : EStateM.Result Error (Live (JobStore J)) J) : Prop :=
  ∃ jobs, JobsConfined ids jobs s.table ∧
    ((∃ job, x = .ok job ⟨jobs, s⟩ ∧ id ∈ ids) ∨ ∃ e, x = .error e ⟨jobs, s⟩)

theorem JobsConfined.fetch {jobs : JobStore J} {s : Store} (h : JobsConfined ids jobs s.table)
    (id : JobId) : JobsConfined.Found ids id s (JobStore.fetch id ⟨jobs, s⟩) := by
  simp only [JobStore.fetch, LiveM.renew, Runs.bind_apply, h.space_eq, Namespace.get_run]
  cases hv : jobsSpace.view s.table id.bytes with
  | none => exact ⟨jobs, h, .inr ⟨_, rfl⟩⟩
  | some bytes =>
    simp only
    cases jobs.parse bytes with
    | error e => exact ⟨jobs, h, .inr ⟨e, rfl⟩⟩
    | ok job =>
      have hid : id ∈ ids := h.stored id (by rw [hv]; rfl)
      refine ⟨_, ?_, .inl ⟨job, rfl, hid⟩⟩
      split
      · refine ⟨rfl, h.stored, fun id' job' hf => ?_⟩
        rcases Cache.find?_put hf with ⟨rfl, -⟩ | ⟨-, hf⟩
        · exact hid
        · exact h.cached id' job' hf
      · exact h

theorem JobsConfined.get {jobs : JobStore J} {s : Store} (h : JobsConfined ids jobs s.table)
    (id : JobId) : JobsConfined.Found ids id s (JobStore.get id ⟨jobs, s⟩) := by
  simp only [JobStore.get, Runs.bind_apply, LiveM.memory]
  split
  · have hused : JobsConfined ids { jobs with cache := (jobs.cache.get id).2 } s.table :=
      ⟨h.space_eq, h.stored, fun id' job hf =>
        h.cached id' job ((Cache.find?_get jobs.cache id id').symm.trans hf)⟩
    simp only [Runs.bind_apply, LiveM.update]
    cases hf : (jobs.cache.get id).1 with
    | none => exact hused.fetch id
    | some job =>
      rw [Cache.get_fst] at hf
      exact ⟨_, hused, .inl ⟨job, rfl, h.cached id job hf⟩⟩
  · exact h.fetch id

/-- A job that is taken out is neither stored nor in the cache. -/
theorem JobsConfined.delete {jobs : JobStore J} {t : Table} (h : JobsConfined ids jobs t)
    (id : JobId) {ops : Batch} (hops : pendingSpace.Holds ops) :
    JobsConfined (ids.erase id) (jobs.forget id) (Batch.apply (jobs.stageDelete id :: ops) t) := by
  refine ⟨h.space_eq, fun other hother => ?_, fun other job hf => ?_⟩
  · rw [JobStore.stageDelete, h.space_eq, view_jobs_delete hops] at hother
    split at hother
    · cases hother
    · rename_i hne
      exact Finset.mem_erase.mpr ⟨fun he => hne (congrArg JobId.bytes he), h.stored other hother⟩
  · rw [JobStore.forget, Cache.find?_remove] at hf
    split at hf
    · cases hf
    · rename_i hne
      exact Finset.mem_erase.mpr ⟨hne, h.cached other job hf⟩

namespace Confined

/-- A job that is found is one of those. -/
theorem getJob (h : Confined ids live) (id : JobId) :
    ∃ live', Confined ids live' ∧ live'.store = live.store ∧
      ((∃ job, Scheduler.getJob id live = .ok job live' ∧ id ∈ ids) ∨
        ∃ e, Scheduler.getJob id live = .error e live') := by
  obtain ⟨jobs, hjobs, hfound⟩ := h.jobs.get id
  refine ⟨⟨{ live.memory with jobs }, live.store⟩,
    ⟨h.sited.with_jobs hjobs.space_eq _ live.memory.pending.count, hjobs⟩, rfl, ?_⟩
  simp only [Scheduler.getJob, onJobs, LiveM.onPart]
  rcases hfound with ⟨job, hok, hid⟩ | ⟨e, herr⟩
  · rw [hok]
    exact .inl ⟨job, rfl, hid⟩
  · rw [herr]
    exact .inr ⟨e, rfl⟩

/-- The first key of the queue is taken out; jobs stay where they are. -/
theorem pop (h : Confined ids live) : Confined ids (Runs.final (onRunnable IdSet.pop live)) := by
  cases hpop : onRunnable IdSet.pop live with
  | error e failed =>
    obtain rfl := pop_error hpop
    exact h
  | ok key popped =>
    rcases pop_ok hpop with rfl | hleaves
    · exact h
    · obtain ⟨value, seq, -, -, rfl⟩ := hleaves.removed
      refine ⟨h.sited.of_store _, h.jobs.of_view ?_⟩
      have hholds := OrderedSet.holds_removal live.memory.runnable.order seq key
      rw [h.sited.queue] at hholds
      rw [Runs.final_ok, Store.table_after]
      exact Namespace.view_apply (Part.apart_of_rank_ne (a := .runnable) (b := .jobs) (by decide))
        hholds _

/-- A dequeue that succeeds leaves one of the ids without a job. -/
theorem removeRunnable (h : Confined ids live) {job : J} {live' : Live (Scheduler J)}
    (hrun : Scheduler.removeRunnable live = .ok job live') :
    ∃ id ∈ ids, Confined (ids.erase id) live' := by
  rw [removeRunnable_eq] at hrun
  obtain ⟨key, popped, hpop, hread⟩ := Runs.bind_eq_ok.mp hrun
  have hpopped := h.pop
  rw [hpop, Runs.final_ok] at hpopped
  obtain ⟨id, mid, hid, hlook⟩ := Runs.bind_eq_ok.mp hread
  obtain ⟨rfl, -⟩ := Runs.ofExcept_eq_ok.mp hid
  obtain ⟨job', found, hget, hdrop⟩ := Runs.bind_eq_ok.mp hlook
  obtain ⟨found', hfound', -, ⟨job'', hok, hmem⟩ | ⟨e, herr⟩⟩ := hpopped.getJob id
  · cases (afterDequeue_ok hok).symm.trans hget
    rw [dropJob_run] at hdrop
    split at hdrop
    · cases hdrop
    · cases hdrop
      have hplaces := hfound'.sited.places
      have hops := holds_stageDecrement found.memory.pending
      rw [hplaces.pending] at hops
      have hforget : (found.memory.jobs.forget id).space = jobsSpace := hplaces.jobs
      refine ⟨id, hmem, hfound'.sited.with_jobs hforget _ _, ?_⟩
      rw [Store.table_after]
      exact hfound'.jobs.delete id hops
  · cases (afterDequeue_error herr).symm.trans hget

/-- Emptying a bucket leaves jobs where they are. -/
theorem removeDependents (h : Confined ids live) (dependency : JobId) :
    Confined ids (Runs.final (Scheduler.removeDependents dependency live)) := by
  obtain ⟨hd, honly⟩ := inBucket_withBucket (OrderedSet.steady_takeAll JobId.ofBytes)
    live.store.table ⟨live.memory.dependents, live.store⟩ ⟨h.sited.buckets, .refl _ _⟩
  rw [Scheduler.removeDependents, onDependents, final_onPart]
  exact ⟨h.sited.with_dependents hd _, h.jobs.of_view (honly.view .jobs (by simp [Part.rank]))⟩

/-- Queueing an id leaves jobs where they are. -/
theorem addRunnable (h : Confined ids live) (id : JobId) :
    Confined ids (Runs.final (Scheduler.addRunnable id live)) := by
  have hsited := sited_onRunnable (sited_push id).discard live h.sited
  have hsteady := OrderedSet.steady_put id.bytes
  rw [← Scheduler.addRunnable, addRunnable_run] at hsited
  rw [addRunnable_run]
  cases hput : live.memory.runnable.order.put id.bytes live.store with
  | error e t =>
    obtain rfl := hsteady.error hput
    exact h
  | ok r t =>
    obtain ⟨-, batch, hbatch, htable⟩ := hsteady.inside hput
    rw [hput] at hsited
    rw [h.sited.queue] at hbatch
    refine ⟨hsited, h.jobs.of_view ?_⟩
    rw [Runs.final_ok, htable]
    exact Namespace.view_apply (Part.apart_of_rank_ne (a := .runnable) (b := .jobs) (by decide))
      hbatch _

end Confined

theorem confined_getJob (id : JobId) : Preserves (Confined ids) (getJob (J := J) id) := by
  intro live h
  obtain ⟨live', hlive', -, ⟨job, hok, -⟩ | ⟨e, herr⟩⟩ := h.getJob id
  · rw [hok]
    exact hlive'
  · rw [herr]
    exact hlive'

theorem confined_release (runner : Runner W J) (taken : List JobId) :
    Preserves (fun s => Confined ids s.2) (release runner taken) := by
  refine .forM (fun id => ?_) taken
  have hworld : Preserves (fun s => Confined ids s.2) (DrainM.world (W := W) (J := J)) :=
    fun _ h => h
  refine (preserves_onQueue (confined_getJob id)).bind fun job => hworld.bind fun w => ?_
  refine (Preserves.ofExcept _).bind fun missing => ?_
  split
  · exact preserves_onQueue fun live h => h.addRunnable id
  · exact .pure _

/-! ## Rounds -/

section Rounds

variable [Job J] {runner : Runner W J} {limit : Option Nat} {s t : W × Live (Scheduler J)}

/-- A round that succeeds leaves one of the ids without a job. -/
theorem Confined.executeNext (h : Confined ids s.2)
    (hrun : Scheduler.executeNext runner s = .ok ⟨⟩ t) :
    ∃ id ∈ ids, Confined (ids.erase id) t.2 := by
  obtain ⟨w, live⟩ := s
  rw [executeNext_run] at hrun
  cases hremove : Scheduler.removeRunnable live with
  | error e u =>
    rw [hremove] at hrun
    cases hrun
  | ok job u =>
    obtain ⟨id, hid, hu⟩ := h.removeRunnable hremove
    refine ⟨id, hid, ?_⟩
    simp only [hremove] at hrun
    cases hexecute : runner.execute job w with
    | error e w' =>
      rw [hexecute] at hrun
      cases hrun
    | ok _ w' =>
      simp only [hexecute] at hrun
      have hv := hu.removeDependents (Job.id job)
      cases htake : Scheduler.removeDependents (Job.id job) u with
      | error e v =>
        rw [htake] at hrun
        cases hrun
      | ok taken v =>
        rw [htake] at hv
        simp only [htake] at hrun
        exact (confined_release runner taken).of_ok (s := (w', v)) hv hrun

/-- How many rounds are allowed does not matter, once there are more than jobs. -/
theorem drainFrom_rounds (h : Confined ids s.2) {rounds rounds' : Nat} (hr : ids.card < rounds)
    (hr' : ids.card < rounds') (executed : Nat) :
    drainFrom runner limit rounds executed s = drainFrom runner limit rounds' executed s := by
  -- Each round that goes on leaves fewer ids with jobs.
  induction rounds generalizing ids rounds' executed s with
  | zero => omega
  | succ rounds ih =>
    obtain ⟨w, live⟩ := s
    obtain ⟨more, rfl⟩ : ∃ more, rounds' = more + 1 := ⟨rounds' - 1, by omega⟩
    rw [drainFrom_succ, drainFrom_succ]
    split
    · rfl
    obtain ⟨runnable, hrunnable⟩ := hasRunnable_run live
    rw [hrunnable]
    cases runnable with
    | false => rfl
    | true =>
      simp only
      cases hnext : Scheduler.executeNext runner (w, live) with
      | error e u => rfl
      | ok _ u =>
        obtain ⟨id, hid, hu⟩ := h.executeNext hnext
        have hcard := Finset.card_erase_of_mem hid
        have hpos := Finset.card_pos.mpr ⟨id, hid⟩
        exact ih hu (by omega) (by omega) (executed + 1)

end Rounds

end WorkQueue.Scheduler
