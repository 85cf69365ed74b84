import WorkQueue.Proofs.Job.Canonical
import WorkQueue.Proofs.Scheduler.Release

/-!
# Refusals

`Error.refused` is what an executor gives. The verbs of a scheduler do not end in such an error,
whatever the store holds (the lemmas `neverRefuses_*`), so a drain that does has it from the
executor, for a job that was handed to it (`drain_refused`).
-/

namespace WorkQueue

/-- Whether an error is one that executors give. -/
def Error.isRefusal : Error → Bool
  | .refused _ => true
  | _ => false

namespace Scheduler

open OrderedSet (listed stored)

open Runs (Raises)

variable {σ τ W J α : Type}

/-- An action does not end in a refusal. -/
def NeverRefuses (x : EStateM Error σ α) : Prop := Raises (·.isRefusal = false) x

/-! ## Reading bytes -/

theorem readSeq_error {value : Bytes} {e : Error} (h : OrderedSet.readSeq value = .error e) :
    e.isRefusal = false := by
  rw [OrderedSet.readSeq] at h
  split at h <;> cases h
  rfl

theorem ofBytes_error {bytes : Bytes} {e : Error} (h : JobId.ofBytes bytes = .error e) :
    e.isRefusal = false := by
  rw [JobId.ofBytes] at h
  split at h <;> cases h
  rfl

theorem parse_error {bytes : Bytes} {e : Error} (h : LinkedJob.parse bytes = .error e) :
    e.isRefusal = false := by
  obtain ⟨-, rfl⟩ | ⟨_, _, -, -, rfl⟩ := LinkedJob.parse_eq_error_iff.mp h
  all_goals rfl

/-! ## Ordered sets -/

theorem neverRefuses_load (space : Namespace) : NeverRefuses (OrderedSet.load space) := by
  intro s e t h
  rw [OrderedSet.load_run, stored] at h
  split at h
  · cases h
  · rename_i value _
    cases hseq : OrderedSet.readSeq value with
    | error e' =>
      rw [hseq] at h
      cases h
      exact readSeq_error hseq
    | ok seq =>
      rw [hseq] at h
      cases h

theorem neverRefuses_head (set : OrderedSet) : NeverRefuses set.head := by
  intro s e t h
  rw [OrderedSet.head_run] at h
  split at h <;> cases h
  rfl

theorem neverRefuses_put (set : OrderedSet) (member : Bytes) : NeverRefuses (set.put member) := by
  intro s e t h
  rw [OrderedSet.put_run] at h
  split at h
  · cases h
  · split at h <;> cases h
    rfl

theorem neverRefuses_delete (set : OrderedSet) (member : Bytes) :
    NeverRefuses (set.delete member) := by
  intro s e t h
  rw [OrderedSet.delete_run] at h
  split at h
  · cases h
  · split at h
    · rename_i hseq
      cases h
      exact readSeq_error hseq
    · split at h <;> cases h
      rfl

theorem neverRefuses_takeAll (set : OrderedSet) : NeverRefuses (set.takeAll JobId.ofBytes) := by
  intro s e t h
  have hmapM : NeverRefuses ((listed set.space s.table).mapM fun e =>
      (MonadExcept.ofExcept (JobId.ofBytes e.2) : StoreM JobId)) :=
    .mapM (fun _ => .ofExcept fun _ => ofBytes_error) _
  rw [OrderedSet.takeAll_run] at h
  split at h
  · rename_i e' hconvert
    cases h
    exact hmapM s e s (by rw [Runs.mapM_ofExcept, hconvert])
  · split at h
    · cases h
    · split at h <;> cases h
      rfl

/-! ## Verbs -/

theorem NeverRefuses.onStore {x : StoreM α} (h : NeverRefuses x) :
    NeverRefuses (LiveM.onStore x : LiveM σ α) := by
  intro live e live' hx
  rw [LiveM.onStore] at hx
  cases hs : x live.store with
  | ok a t =>
    rw [hs] at hx
    cases hx
  | error e' t =>
    rw [hs] at hx
    cases hx
    exact h _ _ _ hs

theorem NeverRefuses.onPart {part : σ → τ} {restore : σ → τ → σ} {x : LiveM τ α}
    (h : NeverRefuses x) : NeverRefuses (LiveM.onPart part restore x) := by
  intro live e live' hx
  rw [LiveM.onPart] at hx
  cases hs : x ⟨part live.memory, live.store⟩ with
  | ok a t =>
    rw [hs] at hx
    cases hx
  | error e' t =>
    rw [hs] at hx
    cases hx
    exact h _ _ _ hs

theorem neverRefuses_addRunnable (id : JobId) :
    NeverRefuses (addRunnable id : LiveM (Scheduler J) Unit) := by
  intro live e live' h
  rw [addRunnable_run] at h
  cases hput : live.memory.runnable.order.put id.bytes live.store with
  | ok r t =>
    rw [hput] at h
    cases h
  | error e' t =>
    rw [hput] at h
    cases h
    exact neverRefuses_put _ _ _ _ _ hput

theorem neverRefuses_withBucket (dependency : JobId)
    {action : OrderedSet → StoreM (α × OrderedSet)} (h : ∀ bucket, NeverRefuses (action bucket)) :
    NeverRefuses (Dependents.withBucket dependency action) := by
  have hmemory : NeverRefuses (LiveM.memory : LiveM Dependents Dependents) := nofun
  have hupdate : ∀ f : Dependents → Dependents, NeverRefuses (LiveM.update f) := nofun
  refine hmemory.bind fun d => ?_
  split
  · refine (hupdate _).bind fun _ => ?_
    split
    · exact (h _).onStore.bind fun _ => (hupdate _).bind fun _ => .pure _
    · refine (neverRefuses_load _).onStore.bind fun bucket => (hupdate _).bind fun _ => ?_
      exact (h _).onStore.bind fun _ => (hupdate _).bind fun _ => .pure _
  · exact NeverRefuses.onStore <| (neverRefuses_load _).bind fun _ => (h _).bind fun _ => .pure _

theorem neverRefuses_removeDependents (dependency : JobId) :
    NeverRefuses (removeDependents dependency : LiveM (Scheduler J) (List JobId)) := by
  rw [removeDependents, onDependents]
  exact (neverRefuses_withBucket dependency neverRefuses_takeAll).onPart

theorem neverRefuses_removeRunnable : NeverRefuses (removeRunnable : LiveM (Scheduler J) J) := by
  have hmemory : NeverRefuses (LiveM.memory : LiveM IdSet IdSet) := nofun
  have hpop : NeverRefuses IdSet.pop := hmemory.bind fun s => NeverRefuses.onStore <|
    (neverRefuses_head _).bind fun head => (neverRefuses_delete _ _).discard.bind fun _ => .pure _
  rw [removeRunnable_eq]
  refine (NeverRefuses.onPart hpop).bind fun key => ?_
  refine (Raises.ofExcept fun _ => ofBytes_error).bind fun id => ?_
  -- From here on all errors are those of a dequeue.
  refine Raises.bind (fun live e live' h => ?_) fun job => fun live e live' h => ?_
  · cases hget : getJob id live with
    | ok job t => cases (afterDequeue_ok hget).symm.trans h
    | error e' t =>
      cases (afterDequeue_error hget).symm.trans h
      cases e' <;> rfl
  · rw [dropJob_run] at h
    split at h <;> cases h
    rfl

/-! ## Draining -/

variable {parse : Parser J} {runner : Runner W J}

/-- A release ends in a refusal only if a job cannot be parsed for it, or what the job misses cannot
be told for it. -/
theorem Placed.release_not_refused {w : W} {live : Live (Scheduler J)} (h : Placed parse live)
    (hparse : ∀ bytes e, parse bytes = .error e → e.isRefusal = false)
    (hmissing : ∀ w job e, runner.missing w job = .error e → e.isRefusal = false)
    {taken : List JobId} {e : Error} {t : W × Live (Scheduler J)}
    (hrun : Scheduler.release runner taken (w, live) = .error e t) : e.isRefusal = false := by
  obtain ⟨done, x, rest, ⟨w', mid⟩, -, hdone, hfail⟩ := release_eq_error hrun
  have hmid : Placed parse mid := (preserves_release runner done).of_ok h hdone
  obtain ⟨found, hget, -, -⟩ := hmid.getJob x
  rw [releaseOne_run, hget] at hfail
  cases hjob : storedJob parse mid.store.table x with
  | error e' =>
    rw [hjob] at hfail
    cases hfail
    rw [storedJob] at hjob
    split at hjob
    · cases hjob
      rfl
    · exact hparse _ _ hjob
  | ok job =>
    simp only [hjob, Runs.ofExcept_ok] at hfail
    cases hwaits : runner.missing w' job with
    | error e' =>
      rw [hwaits] at hfail
      cases hfail
      exact hmissing _ _ _ hwaits
    | ok waits =>
      cases waits with
      | cons d rest =>
        rw [hwaits] at hfail
        cases hfail
      | nil =>
        rw [hwaits] at hfail
        cases hadd : Scheduler.addRunnable x found with
        | ok _ u => simp [hadd] at hfail
        | error e' u =>
          simp only [hadd] at hfail
          cases hfail
          exact neverRefuses_addRunnable _ _ _ _ hadd

/-- A job is handed to the executor in a world: after complete rounds, a drain takes it out. -/
def Handed [Job J] (runner : Runner W J) (s : W × Live (Scheduler J)) (job : J) (w : W) : Prop :=
  ∃ live live', Rounds runner s (w, live) ∧ removeRunnable live = .ok job live'

/-- A refusal that a drain ends in has been given by the executor, for a job that was handed to
it. -/
theorem drain_refused [Job J] {s t : W × Live (Scheduler J)} (h : Placed parse s.2)
    (hparse : ∀ bytes e, parse bytes = .error e → e.isRefusal = false)
    (hmissing : ∀ w job e, runner.missing w job = .error e → e.isRefusal = false)
    {limit : Option Nat} {e : Error} (he : e.isRefusal = true)
    (hrun : drain runner limit s = .error e t) :
    ∃ job w w', Handed runner s job w ∧ runner.execute job w = .error e w' := by
  obtain ⟨⟨w, live⟩, hrounds, hnext⟩ := drainFrom_eq_error hrun
  have hlive : Placed parse live := h.rounds hrounds
  rw [executeNext_run] at hnext
  cases hremove : removeRunnable live with
  | error e' v =>
    rw [hremove] at hnext
    cases hnext
    cases he.symm.trans (neverRefuses_removeRunnable _ _ _ hremove)
  | ok job v =>
    simp only [hremove] at hnext
    have hv := preserves_removeRunnable.of_ok hlive hremove
    cases hexecute : runner.execute job w with
    | error e' w' =>
      rw [hexecute] at hnext
      cases hnext
      exact ⟨job, w, w', ⟨live, v, hrounds, hremove⟩, hexecute⟩
    | ok _ w' =>
      simp only [hexecute] at hnext
      cases htake : removeDependents (Job.id job) v with
      | error e' u =>
        rw [htake] at hnext
        cases hnext
        cases he.symm.trans (neverRefuses_removeDependents _ _ _ _ htake)
      | ok taken u =>
        rw [htake] at hnext
        have hu := (preserves_removeDependents _).of_ok hv htake
        cases he.symm.trans (hu.release_not_refused hparse hmissing hnext)

end Scheduler

end WorkQueue
