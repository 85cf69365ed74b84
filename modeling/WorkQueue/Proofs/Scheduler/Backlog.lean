import Mathlib.Data.List.Nodup
import WorkQueue.Proofs.Scheduler.Lined

/-!
# A queue of ids

A scheduler without dependencies is a queue of ids: a `Backlog` has a list of ids, and the jobs that
are stored are those, and wait to be executed in that order. New jobs go to the end
(`Backlog.push`), a drain executes from the front on (`Backlog.drain`), and what is asked of the
scheduler is answered from the list.
-/

namespace WorkQueue

namespace Books

variable {J : Type} [Job J]

/-- The stored jobs are those in the queue, which are the ones given, and no more than so many were
ever put there. -/
structure InLine (b : Books J) (ids : List JobId) (n : Nat) : Prop where
  members : b.queue.members = ids
  stored : ∀ id, (b.job? id).isSome = decide (id ∈ ids)
  pending : b.pending = ids.length
  puts_le : b.queue.puts ≤ n
  length_le : ids.length ≤ n

namespace InLine

variable {b : Books J} {id : JobId} {ids : List JobId} {n : Nat}

theorem empty (n : Nat) : (Books.empty : Books J).InLine [] n :=
  ⟨rfl, fun _ => rfl, rfl, Nat.zero_le n, Nat.zero_le n⟩

theorem push (h : b.InLine ids n) {job : J} (hnew : Job.id job ∉ ids) :
    ((b.put job).enqueue (Job.id job)).InLine (ids ++ [Job.id job]) (n + 1) := by
  have hadd : (b.queue.add (Job.id job)) = ⟨ids ++ [Job.id job], b.queue.puts + 1⟩ := by
    rw [Roll.add_of_not_mem (h.members ▸ hnew), h.members]
  refine ⟨congrArg Roll.members hadd, fun id => ?_, ?_, ?_, ?_⟩
  · show ((b.put job).job? id).isSome = _
    rw [job?_put]
    by_cases he : id = Job.id job
    · simp [he]
    · rw [if_neg he, h.stored]
      simp [he]
  · show b.pending + 1 = _
    rw [h.pending, List.length_append, List.length_singleton]
  · have hputs := h.puts_le
    show (b.queue.add (Job.id job)).puts ≤ _
    rw [hadd]
    exact Nat.succ_le_succ hputs
  · have hlength := h.length_le
    rw [List.length_append, List.length_singleton]
    omega

theorem take {rest : List JobId} (h : b.InLine (id :: rest) n) (hnodup : (id :: rest).Nodup) :
    (b.dequeue.drop id).InLine rest n := by
  refine ⟨?_, fun other => ?_, ?_, h.puts_le, ?_⟩
  · show b.queue.members.tail = rest
    rw [h.members]
    rfl
  · rw [job?_drop]
    show (if other = id then none else b.job? other).isSome = _
    by_cases he : other = id
    · rw [if_pos he, he]
      simpa using (List.nodup_cons.mp hnodup).1
    · rw [if_neg he, h.stored]
      simp [he]
  · show b.pending - 1 = _
    rw [h.pending]
    rfl
  · have hlength := h.length_le
    rw [List.length_cons] at hlength
    omega

end InLine

end Books

namespace Scheduler

open Log (Condition)

variable {J : Type} [Job J]

theorem length_le_scan {t : Table} {ids : List JobId} (hnodup : ids.Nodup)
    (h : ∀ id ∈ ids, (jobsSpace.view t id.bytes).isSome) :
    ids.length ≤ (t.scan jobsSpace.lead).length := by
  have hinj : Function.Injective fun id : JobId => jobsSpace.key id.bytes := fun _ _ he =>
    JobId.ext (Namespace.key_inj.mp he)
  have hsubset : (ids.map fun id => jobsSpace.key id.bytes) ⊆
      (t.scan jobsSpace.lead).map (·.1) := by
    intro key hkey
    obtain ⟨id, hid, rfl⟩ := List.mem_map.mp hkey
    obtain ⟨value, hvalue⟩ := Option.isSome_iff_exists.mp (h id hid)
    exact List.mem_map.mpr ⟨_, Table.mem_scan.mpr ⟨List.prefix_append _ _, hvalue⟩, rfl⟩
  have hlen := (hnodup.map hinj).length_le_of_subset hsubset
  rwa [List.length_map, List.length_map] at hlen

/-- A scheduler keeps jobs in a log, all of them in the queue, in the order of the given ids. No
more than `n` ids were put into the queue. -/
def Backlog (parse : Parser J) (c : Condition) (path : String) (location : Location)
    (others : FileTree) (ids : List JobId) (n : Nat) (live : Live (Scheduler J)) : Prop :=
  ∃ b : Books J, Lined parse c path location others b live ∧ b.InLine ids n

namespace Backlog

variable {parse : Parser J} {c c' : Condition} {path : String} {location : Location}
  {others : FileTree} {ids : List JobId} {n : Nat} {live : Live (Scheduler J)}

theorem idle (h : Backlog parse c path location others ids n live) :
    Idle c path location others live.store := by
  obtain ⟨b, hlined, -⟩ := h
  exact hlined.idle

theorem nodup (h : Backlog parse c path location others ids n live) : ids.Nodup := by
  obtain ⟨b, hlined, hin⟩ := h
  exact hin.members ▸ hlined.filed.queue.nodup

theorem length_le (h : Backlog parse c path location others ids n live) : ids.length ≤ n := by
  obtain ⟨b, -, hin⟩ := h
  exact hin.length_le

theorem mono (h : Backlog parse c path location others ids n live) {m : Nat} (hm : n ≤ m) :
    Backlog parse c path location others ids m live := by
  obtain ⟨b, hlined, hin⟩ := h
  exact ⟨b, hlined, hin.members, hin.stored, hin.pending, Nat.le_trans hin.puts_le hm,
    Nat.le_trans hin.length_le hm⟩

theorem hasJob (h : Backlog parse c path location others ids n live) (id : JobId) :
    Scheduler.hasJob id live = .ok (decide (id ∈ ids)) live := by
  obtain ⟨b, hlined, hin⟩ := h
  rw [hlined.hasJob, hin.stored]

theorem hasRunnable (h : Backlog parse c path location others ids n live) :
    Scheduler.hasRunnable live = .ok (!ids.isEmpty) live := by
  obtain ⟨b, hlined, hin⟩ := h
  rw [hlined.hasRunnable, hin.members]

theorem runnableIds (h : Backlog parse c path location others ids n live) :
    Scheduler.runnableIds live = .ok ids live := by
  obtain ⟨b, hlined, hin⟩ := h
  rw [hlined.runnableIds, hin.members]

theorem pendingCount (h : Backlog parse c path location others ids n live) :
    Scheduler.pendingCount live = .ok (.ofNat ids.length) live := by
  obtain ⟨b, hlined, hin⟩ := h
  rw [hlined.pendingCount, hin.pending]

theorem missingIds (h : Backlog parse c path location others ids n live) :
    Scheduler.missingIds live = .ok [] live := by
  obtain ⟨b, hlined, -⟩ := h
  exact hlined.missingIds

theorem missingCount (h : Backlog parse c path location others ids n live) :
    Scheduler.missingCount live = .ok 0 live := by
  obtain ⟨b, hlined, -⟩ := h
  exact hlined.missingCount

/-- The number of pending jobs is stored, so there is something to compact. -/
theorem snapshot_ne_nil (h : Backlog parse c path location others ids n live) :
    ¬ (Store.snapshot live.store.table).isEmpty = true := by
  obtain ⟨b, hlined, -⟩ := h
  have hmem := Table.mem_entries.mpr hlined.filed.pending
  intro hempty
  rw [List.isEmpty_iff, Store.snapshot, List.map_eq_nil_iff] at hempty
  rw [hempty] at hmem
  cases hmem

/-- A new job is stored, and queued after the others. -/
theorem push (h : Backlog parse c path location others ids n live) {job : J}
    (hjob : parse (Job.bytes job) = .ok job) (hc : c.Writes (filing job) c')
    (hnew : Job.id job ∉ ids) (hroom : n + 1 < UInt64.size) :
    ∃ mid live', Scheduler.putJob job live = .ok () mid ∧
      Scheduler.addRunnable (Job.id job) mid = .ok () live' ∧
      Backlog parse c' path location others (ids ++ [Job.id job]) (n + 1) live' := by
  obtain ⟨b, hlined, hin⟩ := h
  have hputs := hin.puts_le
  have hlength := hin.length_le
  obtain ⟨mid, hput, hmid⟩ := hlined.putJob hjob hc (by rw [hin.pending]; omega)
  obtain ⟨live', hadd, hlive'⟩ := hmid.addRunnable (Job.id job)
    (show b.queue.puts + 1 < UInt64.size by omega)
  exact ⟨mid, live', hput, hadd, _, hlive', hin.push hnew⟩

/-- The first job is executed and leaves the queue. -/
theorem executeNext {W : Type} {id : JobId}
    (h : Backlog parse c path location others (id :: ids) n live) {runner : Runner W J}
    {record : W → JobId → W}
    (hexecute : ∀ job w, runner.execute job w = .ok () (record w (Job.id job))) (w : W) :
    ∃ live', Scheduler.executeNext runner (w, live) = .ok () (record w id, live') ∧
      Backlog parse c path location others ids n live' := by
  have hnodup := h.nodup
  obtain ⟨b, hlined, hin⟩ := h
  have hstored : (b.job? id).isSome = true := by
    rw [hin.stored]
    simp
  obtain ⟨job, hjob⟩ := Option.isSome_iff_exists.mp hstored
  obtain ⟨-, rfl⟩ := Books.mem_of_job? hjob
  obtain ⟨live', hnext, hlive'⟩ := hlined.executeNext hin.members hjob (hexecute job w)
  exact ⟨live', hnext, _, hlive', hin.take hnodup⟩

/-- How many jobs are executed when some were before. -/
def quota (limit : Option Nat) (executed : Nat) (ids : List JobId) : Nat :=
  limit.elim ids.length fun l => min (l - executed) ids.length

/-- The jobs are executed from the first on, in more rounds than there are jobs. -/
theorem drainFrom {W : Type} {runner : Runner W J} {record : W → JobId → W}
    (hexecute : ∀ job w, runner.execute job w = .ok () (record w (Job.id job)))
    (limit : Option Nat) :
    ∀ (ids : List JobId) (rounds executed : Nat) (w : W) (live : Live (Scheduler J)),
      Backlog parse c path location others ids n live → ids.length < rounds →
      ∃ k live', Scheduler.drainFrom runner limit rounds executed (w, live) =
          .ok k ((ids.take (quota limit executed ids)).foldl record w, live') ∧
        Backlog parse c path location others (ids.drop (quota limit executed ids)) n live' := by
  intro ids
  induction ids with
  | nil =>
    intro rounds executed w live h hrounds
    obtain ⟨rounds, rfl⟩ := Nat.exists_eq_add_one_of_ne_zero (Nat.ne_of_gt hrounds)
    rw [drainFrom_succ, h.hasRunnable, List.take_nil, List.drop_nil]
    split <;> exact ⟨executed, live, rfl, h⟩
  | cons id rest ih =>
    intro rounds executed w live h hrounds
    rw [List.length_cons] at hrounds
    obtain ⟨rounds, rfl⟩ :=
      Nat.exists_eq_add_one_of_ne_zero (Nat.ne_of_gt (Nat.zero_lt_of_lt hrounds))
    rw [drainFrom_succ, h.hasRunnable]
    split
    · rename_i hreached
      have hquota : quota limit executed (id :: rest) = 0 := by
        cases limit with
        | none => cases hreached
        | some l =>
          have hl : l ≤ executed := by simpa using hreached
          simp [quota, Nat.sub_eq_zero_of_le hl]
      rw [hquota]
      exact ⟨executed, live, rfl, h⟩
    · rename_i hleft
      have hquota : quota limit executed (id :: rest) = quota limit (executed + 1) rest + 1 := by
        cases limit with
        | none => rfl
        | some l =>
          have hl : executed < l := by simpa using hleft
          simp only [quota, Option.elim, List.length_cons]
          omega
      obtain ⟨mid, hnext, hmid⟩ := h.executeNext hexecute w
      obtain ⟨k, live', hdrain, hlive'⟩ :=
        ih rounds (executed + 1) (record w id) mid hmid (by omega)
      rw [hquota, List.take_succ_cons, List.drop_succ_cons, List.foldl_cons]
      refine ⟨k, live', ?_, hlive'⟩
      simp only [List.isEmpty_cons, Bool.not_false, hnext, hdrain]

/-- There are rounds enough for the whole queue. -/
theorem drain {W : Type} {runner : Runner W J} {record : W → JobId → W}
    (h : Backlog parse c path location others ids n live)
    (hexecute : ∀ job w, runner.execute job w = .ok () (record w (Job.id job)))
    (limit : Option Nat) (w : W) :
    ∃ k live', Scheduler.drain runner limit (w, live) =
        .ok k ((ids.take (limit.elim ids.length (min · ids.length))).foldl record w, live') ∧
      Backlog parse c path location others
        (ids.drop (limit.elim ids.length (min · ids.length))) n live' := by
  refine drainFrom hexecute limit ids _ 0 w live h ?_
  have hnodup := h.nodup
  obtain ⟨b, hlined, hin⟩ := h
  have hscan := length_le_scan (t := live.store.table) hnodup fun id hid => by
    rw [hlined.filed.jobs, Option.isSome_map, hin.stored]
    simpa using hid
  show ids.length < roundLimit live
  rw [roundLimit, hlined.placed.jobs.space_eq]
  omega

theorem clear (h : Backlog parse c path location others ids n live)
    (hc : c.Writes (clearing live.store.table) c') :
    ∃ live', Scheduler.clear live = .ok () live' ∧
      Backlog parse c' path location others [] n live' := by
  obtain ⟨b, hlined, -⟩ := h
  obtain ⟨live', hclear, hlive'⟩ := hlined.clear hc
  exact ⟨live', hclear, _, hlive', .empty n⟩

end Backlog

end Scheduler

end WorkQueue
