import WorkQueue.Proofs.Scheduler.Remembered
import WorkQueue.Scheduler.JobStore

/-!
# What use leaves of a cache

However the stored jobs and the buckets are used, they keep their namespace, the capacity of their
cache, and whether it is in use. `blank` is just that: the part with an empty cache and no metrics.

* `JobStore.blank_get`, `JobStore.blank_remember`: the stored jobs;
* `Dependents.blank_withBucket`: any action on a bucket.
-/

namespace WorkQueue

open Runs (Preserves)

namespace Cache

variable {α β : Type}

/-- The cache without metrics. -/
def unmetered (c : Cache α β) : Cache α β := { c with metrics := none }

theorem get_unmetered [DecidableEq α] (c : Cache α β) (key : α) :
    c.unmetered.get key = ((c.get key).1, (c.get key).2.unmetered) := by
  have hfind : c.unmetered.find? key = c.find? key := rfl
  rw [get, get, hfind]
  cases c.find? key <;> rfl

theorem flush_get [DecidableEq α] (c : Cache α β) (key : α) :
    (c.get key).2.flush.unmetered = c.flush.unmetered := by
  rw [get]
  cases c.find? key <;> rfl

end Cache

namespace JobStore

variable {J : Type}

/-- The stored jobs, without the metrics of their cache. -/
def unmetered (s : JobStore J) : JobStore J := { s with cache := s.cache.unmetered }

/-- The stored jobs, with an empty cache that has no metrics. -/
def blank (s : JobStore J) : JobStore J := s.flush.unmetered

theorem blank_remember [Job J] (s : JobStore J) (job : J) : (s.remember job).blank = s.blank := by
  rw [remember]
  split <;> rfl

variable {b : JobStore J}

theorem blank_fetch (id : JobId) :
    Preserves (fun part : Live (JobStore J) => part.memory.blank = b) (fetch id) := by
  intro part h
  simp only [fetch, LiveM.renew, Runs.bind_apply, Namespace.get_run]
  cases part.memory.space.view part.store.table id.bytes with
  | none => exact h
  | some bytes =>
    simp only
    cases part.memory.parse bytes with
    | error e => exact h
    | ok job =>
      simp only [Runs.ofExcept_ok, Runs.pure_apply, Runs.final_ok]
      split <;> exact h

theorem blank_get (id : JobId) :
    Preserves (fun part : Live (JobStore J) => part.memory.blank = b) (get id) := by
  intro part h
  simp only [get, Runs.bind_apply, LiveM.memory]
  split
  · have hused : { part.memory with cache := (part.memory.cache.get id).2 }.blank = b := by
      rw [← h, blank, blank, unmetered, unmetered, flush, flush, Cache.flush_get]
    simp only [Runs.bind_apply, LiveM.update]
    cases (part.memory.cache.get id).1 with
    | none => exact blank_fetch id _ hused
    | some job => exact hused
  · exact blank_fetch id part h

end JobStore

namespace Dependents

/-- The jobs that wait, without the metrics of their cache. -/
def unmetered (d : Dependents) : Dependents := { d with buckets := d.buckets.unmetered }

/-- The jobs that wait, with an empty cache that has no metrics. -/
def blank (d : Dependents) : Dependents := d.flush.unmetered

theorem Remembers.blank_eq {d d' : Dependents} {dependency : JobId} {bucket : Option OrderedSet}
    (h : Remembers d d' dependency bucket) : d'.blank = d.blank := by
  obtain ⟨space, ⟨entries, capacity, metrics⟩, caching⟩ := d'
  obtain rfl := h.space_eq
  obtain rfl := h.caching_eq
  obtain rfl := h.capacity_eq
  rfl

theorem blank_withBucket {α : Type} {b : Dependents} (dependency : JobId)
    (action : OrderedSet → StoreM (α × OrderedSet)) :
    Preserves (fun part : Live Dependents => part.memory.blank = b)
      (withBucket dependency action) := by
  rintro ⟨d, s⟩ rfl
  have hacts := withBucket_acts d dependency action s
  rw [Acts] at hacts
  split at hacts
  · obtain ⟨d', hx, hd⟩ := hacts
    rw [hx]
    exact hd.blank_eq
  · split at hacts <;> obtain ⟨d', hx, hd⟩ := hacts <;> rw [hx] <;> exact hd.blank_eq

end Dependents

end WorkQueue
