import WorkQueue.Proofs.Cache
import WorkQueue.Proofs.OrderedSet.Runs
import WorkQueue.Scheduler.Dependents

/-!
# Remembered buckets

An action on a bucket of `Dependents` is run with the bucket that is remembered, or else with the
one that is loaded for it (`usedBucket`). `withBucket_acts` says what comes of it in memory and
store, and what is remembered then (`Remembers`). Nothing is supposed of the entries of the store.
-/

namespace WorkQueue.Dependents

open OrderedSet (stored)

variable {α : Type} {d d' : Dependents} {dependency : JobId} {bucket : OrderedSet} {s : Store}

/-- The bucket that an action on it is run with: the remembered one, or the one that is loaded. -/
def usedBucket (d : Dependents) (dependency : JobId) (t : Table) : Except Error OrderedSet :=
  match if d.caching then d.buckets.find? dependency else none with
  | some bucket => .ok bucket
  | none => stored (d.bucketSpace dependency) t

/-- If a remembered bucket is the stored one, then that is used. -/
theorem usedBucket_eq_stored {t : Table}
    (h : d.caching = true → ∀ b, d.buckets.find? dependency = some b →
      stored (d.bucketSpace dependency) t = .ok b) :
    d.usedBucket dependency t = stored (d.bucketSpace dependency) t := by
  rw [usedBucket]
  split
  · rename_i b hfound
    split at hfound
    · rename_i hcaching
      exact (h hcaching b hfound).symm
    · cases hfound
  · rfl

/-- What may be remembered after an action on one bucket: of it the given one, and other buckets as
they were remembered before. -/
structure Remembers (d d' : Dependents) (dependency : JobId) (bucket : Option OrderedSet) :
    Prop where
  space_eq : d'.space = d.space
  caching_eq : d'.caching = d.caching
  capacity_eq : d'.buckets.capacity = d.buckets.capacity
  found : d.caching = true → ∀ k b, d'.buckets.find? k = some b →
    (k = dependency ∧ some b = bucket) ∨ (k ≠ dependency ∧ d.buckets.find? k = some b)

theorem Remembers.of_not_caching (h : ¬ d.caching = true) (dependency : JobId)
    (bucket : Option OrderedSet) : Remembers d d dependency bucket :=
  ⟨rfl, rfl, rfl, fun hcaching => absurd hcaching h⟩

/-- What comes of an action on a bucket. An error leaves the bucket as it was, if there is one. -/
def Acts (d : Dependents) (dependency : JobId) (action : OrderedSet → StoreM (α × OrderedSet))
    (s : Store) (x : EStateM.Result Error (Live Dependents) α) : Prop :=
  match d.usedBucket dependency s.table with
  | .error e => ∃ d', x = .error e ⟨d', s⟩ ∧ Remembers d d' dependency none
  | .ok bucket => match action bucket s with
    | .ok (a, bucket') t => ∃ d', x = .ok a ⟨d', t⟩ ∧ Remembers d d' dependency (some bucket')
    | .error e t => ∃ d', x = .error e ⟨d', t⟩ ∧ Remembers d d' dependency (some bucket)

/-- Once the bucket is remembered, the one after the action takes its place. -/
theorem acts_held (hused : d.usedBucket dependency s.table = .ok bucket)
    (h : Remembers d d' dependency (some bucket))
    (action : OrderedSet → StoreM (α × OrderedSet)) :
    Acts d dependency action s ((do
      let r ← LiveM.onStore (action bucket)
      LiveM.update fun d => { d with buckets := d.buckets.revise dependency r.2 }
      return r.1 : LiveM Dependents α) ⟨d', s⟩) := by
  simp only [Acts, hused, Runs.bind_apply, LiveM.onStore]
  cases action bucket s with
  | error e t => exact ⟨d', rfl, h⟩
  | ok r t =>
    refine ⟨_, rfl, h.space_eq, h.caching_eq, h.capacity_eq, fun hcaching k b hk => ?_⟩
    rcases Cache.find?_revise hk with ⟨he, rfl⟩ | ⟨hne, hk⟩
    · exact .inl ⟨he, rfl⟩
    · exact .inr ((h.found hcaching k b hk).resolve_left fun hsame => hne hsame.1)

/-- An action on a bucket does the same whether the bucket is remembered, is loaded and remembered,
or is not to be remembered. -/
theorem withBucket_acts (d : Dependents) (dependency : JobId)
    (action : OrderedSet → StoreM (α × OrderedSet)) (s : Store) :
    Acts d dependency action s (withBucket dependency action ⟨d, s⟩) := by
  by_cases hcaching : d.caching = true
  · simp only [withBucket, Runs.bind_apply, LiveM.memory, if_pos hcaching, LiveM.update]
    cases hget : (d.buckets.get dependency).1 with
    | some b =>
      rw [Cache.get_fst] at hget
      have hused : Remembers d { d with buckets := (d.buckets.get dependency).2 } dependency
          (some b) := by
        refine ⟨rfl, rfl, d.buckets.capacity_get dependency, fun _ k b' hk => ?_⟩
        rw [Cache.find?_get] at hk
        by_cases he : k = dependency
        · subst he
          exact .inl ⟨rfl, hk.symm.trans hget⟩
        · exact .inr ⟨he, hk⟩
      exact acts_held (by simp only [usedBucket, if_pos hcaching, hget]) hused action
    | none =>
      rw [Cache.get_fst] at hget
      have hload : d.usedBucket dependency s.table =
          stored (d.bucketSpace dependency) s.table := by
        simp only [usedBucket, if_pos hcaching, hget]
      simp only [Runs.bind_apply, LiveM.onStore, OrderedSet.load_run]
      cases hstored : stored (d.bucketSpace dependency) s.table with
      | error e =>
        simp only [Acts, hload, hstored]
        refine ⟨_, rfl, rfl, rfl, d.buckets.capacity_get dependency, fun _ k b hk => ?_⟩
        rw [Cache.find?_get] at hk
        refine .inr ⟨?_, hk⟩
        rintro rfl
        cases hget.symm.trans hk
      | ok b =>
        have hput : Remembers d
            { d with buckets := (d.buckets.get dependency).2.put dependency b } dependency
            (some b) := by
          refine ⟨rfl, rfl, d.buckets.capacity_get dependency, fun _ k b' hk => ?_⟩
          rcases Cache.find?_put hk with ⟨he, rfl⟩ | ⟨hne, hk⟩
          · exact .inl ⟨he, rfl⟩
          · exact .inr ⟨hne, (Cache.find?_get _ _ _).symm.trans hk⟩
        exact acts_held (hload.trans hstored) hput action
  · have hload : d.usedBucket dependency s.table = stored (d.bucketSpace dependency) s.table := by
      simp only [usedBucket, if_neg hcaching]
    simp only [withBucket, Runs.bind_apply, LiveM.memory, if_neg hcaching, LiveM.onStore,
      OrderedSet.load_run, Acts, hload]
    cases stored (d.bucketSpace dependency) s.table with
    | error e => exact ⟨d, rfl, .of_not_caching hcaching _ _⟩
    | ok b =>
      simp only [Runs.ofExcept_ok]
      cases action b s with
      | error e t => exact ⟨d, rfl, .of_not_caching hcaching _ _⟩
      | ok r t => exact ⟨d, rfl, .of_not_caching hcaching _ _⟩

/-- What an action on a bucket gives is what it gives for the bucket that is used. -/
theorem outcome_withBucket (d : Dependents) (dependency : JobId)
    (action : OrderedSet → StoreM (α × OrderedSet)) (s : Store) :
    Runs.outcome (withBucket dependency action ⟨d, s⟩) =
      (d.usedBucket dependency s.table).bind fun bucket =>
        (Runs.outcome (action bucket s)).map Prod.fst := by
  have hacts := withBucket_acts d dependency action s
  rw [Acts] at hacts
  cases hused : d.usedBucket dependency s.table with
  | error e =>
    rw [hused] at hacts
    obtain ⟨d', hx, -⟩ := hacts
    rw [hx]
    rfl
  | ok bucket =>
    simp only [hused] at hacts
    show _ = (Runs.outcome (action bucket s)).map Prod.fst
    cases haction : action bucket s with
    | error e t | ok r t =>
      rw [haction] at hacts
      obtain ⟨d', hx, -⟩ := hacts
      rw [hx]
      rfl

end WorkQueue.Dependents
