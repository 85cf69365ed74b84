import WorkQueue.Proofs.Scheduler.Reached
import WorkQueue.Proofs.Scheduler.Standing
import WorkQueue.Proofs.Scheduler.Twins

/-!
# A fresh start

Once everything was taken out of a scheduler, nobody can tell it from one that is opened on a store
without entries: the two are `Twins` (`Standing.twins`). So, whatever the scheduler was put through
before (`clear_fresh`),

* of its own entries only the number of pending jobs remains, and it is zero;
* entries of others stay as they are;
* in every later session it gives the replies of a new scheduler, and leaves the same entries.
-/

namespace WorkQueue.Scheduler

open BigEndian (encodeWord)

variable {J : Type} {parse : Parser J} {options : Options}

/-! ## Memory -/

/-- Clearing leaves in memory what opening puts there. -/
theorem Standing.unmetered_emptied {live : Live (Scheduler J)} (h : Standing parse options live) :
    (emptied live.memory).unmetered = blank parse options := by
  have hplaces := h.held.inPlace
  have hrunnable : (emptied live.memory).runnable = (blank parse options).runnable := by
    rw [emptied, hplaces.runnable, blank]
  have hmissing : (emptied live.memory).missing = (blank parse options).missing := by
    rw [emptied, hplaces.missing, blank]
  have hpending : (emptied live.memory).pending = (blank parse options).pending := by
    show Counter.mk live.memory.pending.space 0 = ⟨pendingSpace, 0⟩
    rw [hplaces.pending]
  show Scheduler.mk _ _ _ _ _ = Scheduler.mk _ _ _ _ _
  rw [Scheduler.mk.injEq]
  exact ⟨h.jobs, h.dependents, hrunnable, hmissing, hpending⟩

/-- What a scheduler that is opened on a store without entries has in memory. -/
theorem unmetered_of_load {metrics : Option (CacheMetrics × CacheMetrics)} {store t : Store}
    {scheduler : Scheduler J} (hempty : store.table = .empty)
    (hload : load parse options metrics store = .ok scheduler t) :
    scheduler.unmetered = blank parse options := by
  obtain ⟨pending, s₁, hpending, hrest⟩ := Runs.bind_eq_ok.mp hload
  obtain ⟨runnable, s₂, hrunnable, hrest'⟩ := Runs.bind_eq_ok.mp hrest
  obtain ⟨missing, s₃, hmissing, hlast⟩ := Runs.bind_eq_ok.mp hrest'
  obtain ⟨rfl, hr⟩ := load_set hrunnable
  obtain ⟨rfl, hm⟩ := load_set hmissing
  rw [load_count_empty _ hempty] at hpending
  split at hpending <;> cases hpending
  -- Neither set has a tail among the entries.
  have hset : ∀ part : Part, part.Of [] → part ≠ .pending → ∀ set : IdSet,
      SetAgrees part.space set (store.after firstBatch).table →
      set = ⟨part.space, ⟨part.space, 0⟩⟩ := by
    intro part hpart hne set hagrees
    have hview := view_firstBatch hashed_nil hpart hne OrderedSet.tailKey
    have hstored := hagrees.order
    rw [Store.table_after, hempty, OrderedSet.stored, hview] at hstored
    obtain ⟨space, order⟩ := set
    obtain rfl : space = part.space := hagrees.space_eq
    cases hstored
    rfl
  obtain rfl := hset .runnable trivial (by decide) runnable hr
  obtain rfl := hset .missing trivial (by decide) missing hm
  obtain ⟨caching, jobsCapacity, dependentsCapacity, metricsName⟩ := options
  cases caching <;> cases hlast <;> rfl

/-! ## Entries -/

/-- Of the entries of the scheduler only the number of pending jobs remains. -/
theorem CountAlone.get?_owned {t : Table} (h : CountAlone t) {key : Bytes}
    (hkey : owned key = true) :
    (Batch.apply (clearing t) t).get? key =
      if key = pendingSpace.key Counter.key then some (encodeWord 0) else none := by
  rw [get?_clearing]
  split
  · rfl
  · rename_i hne
    split
    · rfl
    · rename_i hout
      obtain ⟨lead, hlead, hprefix⟩ := owned_iff.mp hkey
      have hpending : pendingSpace.lead <+: key := by
        simp only [Part.leads, List.mem_cons, List.not_mem_nil, or_false] at hlead
        rcases hlead with rfl | rfl | rfl | rfl | rfl
        · exact absurd ⟨jobsSpace, by simp [sweptSpaces], hprefix⟩ hout
        · exact hprefix
        · exact absurd ⟨runnableSpace, by simp [sweptSpaces], hprefix⟩ hout
        · exact absurd ⟨missingSpace, by simp [sweptSpaces], hprefix⟩ hout
        · exact absurd ⟨dependentsSpace, by simp [sweptSpaces], hprefix⟩ hout
      obtain ⟨rest, rfl⟩ := hpending
      exact h rest fun he => hne (he ▸ rfl)

/-- The first batch stores the number of pending jobs and nothing else. -/
theorem get?_firstBatch (key : Bytes) :
    (Batch.apply firstBatch .empty).get? key =
      if key = pendingSpace.key Counter.key then some (encodeWord 0) else none :=
  Table.get?_put .empty _ _ key

/-- Keys outside of the five namespaces keep their values. -/
theorem get?_clearing_of_not_owned (t : Table) {key : Bytes} (hkey : owned key = false) :
    (Batch.apply (clearing t) t).get? key = t.get? key := by
  refine Batch.get?_apply_of_not_mem fun op hop he => ?_
  rw [← he, owned_clearing t op hop] at hkey
  cases hkey

/-- A scheduler from which everything was taken out, and one that is opened on a store without
entries, which grants as many writes as there were before. -/
theorem Standing.twins {live : Live (Scheduler J)} (h : Standing parse options live)
    {metrics : Option (CacheMetrics × CacheMetrics)} {store t : Store} {fresh : Scheduler J}
    (hempty : store.table = .empty) (hleft : store.writesLeft = live.store.writesLeft)
    (hload : load parse options metrics store = .ok fresh t) :
    Twins ⟨emptied live.memory, live.store.after (clearing live.store.table)⟩ ⟨fresh, t⟩ := by
  refine ⟨h.held.sited.emptied _, sited_of_load hload, ?_⟩
  have hmemory : (emptied live.memory).unmetered = fresh.unmetered :=
    h.unmetered_emptied.trans (unmetered_of_load hempty hload).symm
  obtain rfl := store_of_load hempty hload
  have htable : (Batch.apply (clearing live.store.table) live.store.table).narrow owned =
      (Batch.apply firstBatch store.table).narrow owned := by
    refine Table.ext_get? fun key => ?_
    rw [Table.get?_narrow, Table.get?_narrow, hempty, get?_firstBatch]
    split
    · rename_i hkey
      exact h.alone.get?_owned hkey
    · rfl
  have hstore : (live.store.after (clearing live.store.table)).narrow owned =
      (store.after firstBatch).narrow owned := by
    rw [Store.narrow, Store.narrow, Store.table_after, Store.table_after, Store.writesLeft_after,
      Store.writesLeft_after, htable, hleft]
  rw [seen, shown, shown, hmemory, hstore]

/-! ## Clearing -/

variable [Job J]

/-- Clearing is a fresh start, whatever the scheduler was put through before. Of its own entries
only the number of pending jobs remains, and entries outside of its namespaces stay as they are. A
scheduler with the same options that is opened on a store without entries, which grants as many
writes, gives the same replies in every later session and leaves the same entries of its own. -/
theorem clear_fresh {metrics : Option (CacheMetrics × CacheMetrics)} {store t : Store}
    {scheduler : Scheduler J} (hload : load parse options metrics store = .ok scheduler t)
    (halone : CountAlone store.table) {earlier : List (Move J)} {trace : List (Exchange J)}
    {live cleared : Live (Scheduler J)}
    (hplay : Move.playAll parse earlier ⟨scheduler, t⟩ = .ok trace live)
    (hclear : clear live = .ok () cleared) :
    (∀ lead ∈ Part.leads, ∀ key value, lead <+: key →
      (cleared.store.table.get? key = some value ↔
        key = pendingSpace.key Counter.key ∧ value = encodeWord 0)) ∧
    (∀ key, (∀ lead ∈ Part.leads, ¬ lead <+: key) →
      cleared.store.table.get? key = live.store.table.get? key) ∧
    ∀ (empty : Store) (metrics' : Option (CacheMetrics × CacheMetrics)), empty.table = .empty →
      empty.writesLeft = live.store.writesLeft →
      ∃ fresh u, load parse (earlier.foldl Move.setting options) metrics' empty = .ok fresh u ∧
        ∀ later, ∃ trace₁ live₁ trace₂ live₂,
          Move.playAll parse later cleared = .ok trace₁ live₁ ∧
          Move.playAll parse later ⟨fresh, u⟩ = .ok trace₂ live₂ ∧
          trace₁.map (·.reply) = trace₂.map (·.reply) ∧
          ∀ lead ∈ Part.leads, ∀ key, lead <+: key →
            live₁.store.table.get? key = live₂.store.table.get? key := by
  obtain ⟨_, _, hplay', hstanding⟩ := (standing_of_load halone hload).playAll earlier
  cases hplay.symm.trans hplay'
  have hcleared := standing_clear.of_ok hstanding hclear
  rw [hstanding.held.inPlace.clear_run] at hclear
  split at hclear
  · cases hclear
  rename_i hgranted
  cases hclear
  refine ⟨fun lead hlead key value hprefix => ?_, fun key hout => ?_,
    fun empty metrics' hempty hleft => ?_⟩
  · rw [Store.table_after, hstanding.alone.get?_owned (owned_iff.mpr ⟨lead, hlead, hprefix⟩)]
    split
    · rename_i hkey
      simp [hkey, eq_comm]
    · rename_i hkey
      simp [hkey]
  · have hkey : owned key = false := by
      rw [Bool.eq_false_iff]
      intro howned
      obtain ⟨lead, hlead, hprefix⟩ := owned_iff.mp howned
      exact hout lead hlead hprefix
    rw [Store.table_after, get?_clearing_of_not_owned _ hkey]
  · obtain ⟨fresh, u, hfresh⟩ := load_of_granted parse hempty (hleft ▸ hgranted)
      (earlier.foldl Move.setting options) metrics'
    refine ⟨fresh, u, hfresh, fun later => ?_⟩
    have htwins := hstanding.twins hempty hleft hfresh
    obtain ⟨trace₁, live₁, hplay₁, -⟩ := hcleared.playAll later
    obtain ⟨trace₂, live₂, hplay₂, hreplies, htwins'⟩ := htwins.playAll hplay₁
    exact ⟨trace₁, live₁, trace₂, live₂, hplay₁, hplay₂, hreplies.symm, fun lead hlead key hkey =>
      htwins'.get?_eq (owned_iff.mpr ⟨lead, hlead, hkey⟩)⟩

/-- A store that holds an entry of someone else. -/
def sharedStore : Store := ⟨Table.empty.put [7] [7], .empty, none, none⟩

theorem countAlone_sharedStore : CountAlone sharedStore.table := by
  intro key _
  have hlen : pendingSpace.lead.length = 32 :=
    Part.length_of_mem_leads _ (by simp [Part.leads])
  have hne : pendingSpace.key key ≠ [7] := fun he => by
    have hlength := congrArg List.length he
    simp only [Namespace.key, List.length_append, hlen, List.length_singleton] at hlength
    omega
  exact (Table.get?_put .empty [7] [7] _).trans (if_neg hne)

/-- A job waits for one that has left the queue and is still stored, since a write was refused. -/
def abandonedSession : List (Move LinkedJob) :=
  [.ask ⟨.putJob forerunner, trivial⟩, .ask ⟨.putJob follower, trivial⟩,
    .ask ⟨.addDependency (Job.id forerunner) (Job.id follower), trivial⟩,
    .ask ⟨.addRunnable (Job.id forerunner), trivial⟩, .ask ⟨.addMissing [Job.id follower], trivial⟩,
    .grant (some 1), .ask ⟨.removeRunnable, trivial⟩, .grant (some 5), .disableCaching]

/-- Nothing of the refused dequeue is left, and the other entry is. The new scheduler starts with
the caches given up, on a store that grants as many writes. -/
theorem clear_fresh_abandoned : ∃ scheduler t trace live cleared fresh u,
    load LinkedJob.parse ⟨true, 4, 4, ""⟩ none sharedStore = .ok scheduler t ∧
    CountAlone sharedStore.table ∧
    Move.playAll LinkedJob.parse abandonedSession ⟨scheduler, t⟩ = .ok trace live ∧
    clear live = .ok () cleared ∧
    cleared.store.table.get? (pendingSpace.key Counter.key) = some (encodeWord 0) ∧
    cleared.store.table.get? [7] = some [7] ∧
    load LinkedJob.parse ⟨false, 4, 4, ""⟩ none ⟨.empty, .empty, none, some 5⟩ = .ok fresh u ∧
    ∀ later, ∃ trace₁ live₁ trace₂ live₂,
      Move.playAll LinkedJob.parse later cleared = .ok trace₁ live₁ ∧
      Move.playAll LinkedJob.parse later ⟨fresh, u⟩ = .ok trace₂ live₂ ∧
      trace₁.map (·.reply) = trace₂.map (·.reply) ∧
      ∀ lead ∈ Part.leads, ∀ key, lead <+: key →
        live₁.store.table.get? key = live₂.store.table.get? key := by
  have hrun : (match load LinkedJob.parse ⟨true, 4, 4, ""⟩ none sharedStore with
    | .error _ _ => none
    | .ok scheduler t => match Move.playAll LinkedJob.parse abandonedSession ⟨scheduler, t⟩ with
      | .error _ _ => none
      | .ok _ live => match clear live with
        | .error _ _ => none
        | .ok _ _ => some (live.store.writesLeft, live.store.table.get? [7])) =
      some (some 5, some [7]) := by decide +kernel
  split at hrun
  · cases hrun
  rename_i scheduler t hload
  split at hrun
  · cases hrun
  rename_i trace live hplay
  split at hrun
  · cases hrun
  rename_i cleared hclear
  obtain ⟨hleft, hother⟩ := Prod.mk.inj (Option.some.inj hrun)
  obtain ⟨hown, hothers, hnew⟩ := clear_fresh hload countAlone_sharedStore hplay hclear
  obtain ⟨fresh, u, hfresh, hlater⟩ :=
    hnew ⟨.empty, .empty, none, some 5⟩ none rfl hleft.symm
  have hpending := (hown pendingSpace.lead (by simp [Part.leads]) (pendingSpace.key Counter.key) _
    (List.prefix_append _ _)).mpr ⟨rfl, rfl⟩
  have hout : ∀ lead ∈ Part.leads, ¬ lead <+: ([7] : Bytes) := by decide +kernel
  exact ⟨scheduler, t, trace, live, cleared, fresh, u, hload, countAlone_sharedStore, hplay, hclear,
    hpending, (hothers [7] hout).trans hother, hfresh, hlater⟩

end WorkQueue.Scheduler
