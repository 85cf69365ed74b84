import WorkQueue.Proofs.Scheduler.Blind
import WorkQueue.Proofs.Scheduler.Entries

/-!
# What verbs write

All that a verb can do to the store of a scheduler, said once: ids are added to a set (`Added`), or
members are taken out of one (`Taken`), a bucket is emptied, a job is stored or taken out (`Edit`), or
everything is taken out. Every exchange of a session does one of these (`Recalls.attempt`), whatever
comes of it. That all entries can be read is kept by each of them, and so by a session
(`playAll_recalls`).
-/

namespace WorkQueue.Scheduler

open BigEndian (encodeWord)
open OrderedSet (indexKey indexed listed stored)
open Runs (final mapState)

variable {J α : Type} {ids : List JobId} {part : Part} {s t u : Store}

/-! ## Sets -/

/-- Ids that a set did not have are added to it, one after the other. -/
inductive Added (part : Part) : List JobId → Store → Store → Prop
  | nil (s : Store) : Added part [] s s
  | cons {s t : Store} {set : OrderedSet} {id : JobId} {new : List JobId}
      (hstored : stored part.space s.table = .ok set)
      (hnew : indexed part.space s.table id.bytes = false)
      (hrest : Added part new (s.after (set.additions id.bytes)) t) : Added part (id :: new) s t

theorem Added.trans {new new' : List JobId} (h : Added part new s t) (h' : Added part new' t u) :
    Added part (new ++ new') s u := by
  induction h with
  | nil => exact h'
  | cons hstored hnew _ ih => exact .cons hstored hnew (ih h')

/-- Members of a set are taken out of it, one after the other. -/
inductive Taken (part : Part) : Store → Store → Prop
  | nil (s : Store) : Taken part s s
  | cons {s t : Store} {set : OrderedSet} {seq : UInt64} {member : Bytes}
      (hstored : stored part.space s.table = .ok set)
      (hindex : part.space.view s.table (indexKey member) = some (encodeWord seq))
      (hrest : Taken part (s.after (set.removal seq member)) t) : Taken part s t

theorem Taken.trans (h : Taken part s t) (h' : Taken part t u) : Taken part s u := by
  induction h with
  | nil => exact h'
  | cons hstored hindex _ ih => exact .cons hstored hindex (ih h')

theorem readSeq_eq_ok {value : Bytes} {seq : UInt64} (h : OrderedSet.readSeq value = .ok seq) :
    value = encodeWord seq := by
  have hcount : Counter.readCount value = .ok seq := by
    cases hw : BigEndian.decodeWord? value with
    | none =>
      rw [OrderedSet.readSeq, hw] at h
      cases h
    | some word =>
      rw [OrderedSet.readSeq, hw] at h
      rw [Counter.readCount, hw]
      exact h
  exact readCount_eq_ok hcount

/-- An action on a set that cannot be read does nothing. -/
theorem final_onSet_of_error {space : Namespace} {e : Error}
    (h : stored space s.table = .error e) (action : OrderedSet → StoreM (α × OrderedSet)) :
    final (Plain.onSet space action s) = s := by
  rw [Plain.onSet, Runs.bind_apply, OrderedSet.load_run, h]
  rfl

theorem added_put (part : Part) (id : JobId) (s : Store) :
    ∃ new, new.length ≤ 1 ∧
      Added part new s (final (Plain.onSet part.space (·.put id.bytes) s)) := by
  cases hstored : stored part.space s.table with
  | error e => exact ⟨[], by simp, by rw [final_onSet_of_error hstored]; exact .nil s⟩
  | ok set =>
    rw [onSet_run hstored, Runs.bind_apply, OrderedSet.put_run,
      OrderedSet.space_of_stored hstored]
    split
    · rename_i hput
      split at hput
      · cases hput
        exact ⟨[], by simp, .nil s⟩
      · rename_i hnew
        split at hput <;> cases hput
        exact ⟨[id], by simp, .cons hstored (by simpa using hnew) (.nil _)⟩
    · rename_i hput
      split at hput
      · cases hput
      · split at hput <;> cases hput
        exact ⟨[], by simp, .nil s⟩

theorem added_addMissing (new : List JobId) (s : Store) :
    ∃ added, added.length ≤ new.length ∧
      Added .missing added s (final (Plain.addMissing new s)) := by
  induction new generalizing s with
  | nil => exact ⟨[], by simp, .nil s⟩
  | cons id rest ih =>
    obtain ⟨first, hfirst, hadded⟩ := added_put .missing id s
    rw [Plain.addMissing, Runs.forM_cons_apply, Runs.discard_apply]
    change Added .missing first s (final (Plain.onSet missingSpace (·.put id.bytes) s)) at hadded
    cases hput : Plain.onSet missingSpace (·.put id.bytes) s with
    | error e t =>
      rw [hput] at hadded
      exact ⟨first, by simp; omega, hadded⟩
    | ok b t =>
      rw [hput] at hadded
      obtain ⟨others, hothers, hrest⟩ := ih t
      exact ⟨first ++ others, by simp; omega, hadded.trans hrest⟩

theorem taken_delete (part : Part) {set : OrderedSet}
    (hstored : stored part.space s.table = .ok set) (member : Bytes) :
    Taken part s (final (set.delete member s)) := by
  rw [OrderedSet.delete_run, OrderedSet.space_of_stored hstored]
  cases hindex : part.space.view s.table (indexKey member) with
  | none => exact .nil s
  | some value =>
    cases hseq : OrderedSet.readSeq value with
    | error e =>
      simp only [hseq]
      exact .nil s
    | ok seq =>
      obtain rfl := readSeq_eq_ok hseq
      simp only [hseq]
      split
      · exact .nil s
      · exact .cons hstored hindex (.nil _)

theorem taken_removeMissing (gone : List JobId) (s : Store) :
    Taken .missing s (final (Plain.removeMissing gone s)) := by
  induction gone generalizing s with
  | nil => exact .nil s
  | cons id rest ih =>
    rw [Plain.removeMissing, Runs.forM_cons_apply, Runs.discard_apply]
    cases hstored : stored missingSpace s.table with
    | error e =>
      rw [Plain.onSet, Runs.bind_apply, OrderedSet.load_run, hstored]
      exact .nil s
    | ok set =>
      rw [onSet_run hstored]
      have htaken := taken_delete .missing hstored id.bytes
      simp only [Runs.bind_apply]
      cases hdelete : set.delete id.bytes s with
      | error e t =>
        rw [hdelete] at htaken
        exact htaken
      | ok b t =>
        rw [hdelete] at htaken
        exact htaken.trans (ih t)

theorem taken_pop (s : Store) : Taken .runnable s (final (Plain.pop s)) := by
  cases hstored : stored runnableSpace s.table with
  | error e => rw [Plain.pop, final_onSet_of_error hstored]; exact .nil s
  | ok set =>
    rw [Plain.pop, onSet_run hstored, Runs.bind_apply, Plain.takeHead_run]
    cases (listed set.space s.table).map (·.2) with
    | nil => exact .nil s
    | cons key rest =>
      have htaken := taken_delete .runnable hstored key
      simp only
      cases hdelete : set.delete key s <;> rw [hdelete] at htaken <;> exact htaken

/-! ## Edits -/

/-- Operations that store a number of jobs. -/
def Counts (ops : Batch) : Prop :=
  ∀ op ∈ ops, ∃ count, op = pendingSpace.stagePut Counter.key (encodeWord count)

theorem Counts.holds {ops : Batch} (h : Counts ops) : pendingSpace.Holds ops := by
  intro op hop
  obtain ⟨count, rfl⟩ := h op hop
  exact ⟨_, rfl⟩

theorem Counts.enters {ops : Batch} (h : Counts ops) : Enters ids ops := by
  intro key value hop
  obtain ⟨count, he⟩ := h _ hop
  obtain ⟨rfl, rfl⟩ := Operation.put.inj he
  exact ⟨.pending, trivial, _, rfl, rfl, count, rfl⟩

theorem counts_stageIncrement {c : Counter} (h : c.space = pendingSpace) :
    Counts c.stageIncrement.2 := by
  intro op hop
  rw [List.mem_singleton.mp hop, Counter.stage, h]
  exact ⟨_, rfl⟩

theorem counts_stageDecrement {c : Counter} (h : c.space = pendingSpace) :
    Counts c.stageDecrement.2 := by
  unfold Counter.stageDecrement
  split
  · exact nofun
  · intro op hop
    rw [List.mem_singleton.mp hop, Counter.stage, h]
    exact ⟨_, rfl⟩

/-- What a verb can do to the store, other than to take everything out. At most so many ids are
added. -/
inductive Edit (ids : List JobId) (room : Nat) (s t : Store) : Prop
  | adds (part : Part) (hpart : part.Of ids) (hset : part.IsSet) (new : List JobId)
      (hroom : new.length ≤ room) (h : Added part new s t)
  | takes (h : Taken .missing s t)
  | empties (dependency : JobId) (hid : dependency ∈ ids) (set : OrderedSet)
      (hstored : stored (bucketSpace dependency) s.table = .ok set)
      (h : t = s.after (set.removals (listed (bucketSpace dependency) s.table)))
  | stores (id : JobId) (bytes : Bytes) (ops : Batch) (hops : Counts ops)
      (h : t = s.after (jobsSpace.stagePut id.bytes bytes :: ops))
  | dequeues (mid : Store) (hmid : Taken .runnable s mid) (h : t = mid ∨
      ∃ id : JobId, ∃ ops, Counts ops ∧ t = mid.after (jobsSpace.stageDelete id.bytes :: ops))

theorem Edit.refl (room : Nat) (s : Store) : Edit ids room s s := .takes (.nil s)

/-- How many ids a verb may add to a set. -/
def Verb.room (verb : Verb J) : Nat :=
  match verb.1 with
  | .addRunnable _ | .addDependency _ _ => 1
  | .addMissing missing => missing.length
  | _ => 0

/-- An action on one part writes what it would write without memory. -/
theorem store_onPart {σ τ : Type} {get : σ → τ} {restore : σ → τ → σ} {x : LiveM τ α} {y : StoreM α}
    {live : Live σ} (h : mapState Live.store (x ⟨get live.memory, live.store⟩) = y live.store) :
    (final (LiveM.onPart get restore x live)).store = final (y live.store) := by
  rw [final_onPart, ← h, Runs.final_mapState]

section Verbs

variable {live : Live (Scheduler J)}

theorem Held.edit_addRunnable (h : Held live) (id : JobId) :
    Edit ids 1 live.store (final (addRunnable id live)).store := by
  have hlocal : Local [] .runnable (SetAgrees runnableSpace) (discard (IdSet.push id))
      (Plain.addRunnable id) := (local_push .runnable trivial id).discard
  obtain ⟨new, hlen, hadded⟩ := added_put .runnable id live.store
  refine .adds .runnable trivial trivial new hlen ?_
  rw [addRunnable, onRunnable, store_onPart (hlocal _ h.runnable).1, Plain.addRunnable,
    Runs.discard_apply]
  change Added .runnable new _ (final (Plain.onSet runnableSpace (·.put id.bytes) live.store))
    at hadded
  cases hput : Plain.onSet runnableSpace (·.put id.bytes) live.store <;> rw [hput] at hadded <;>
    exact hadded

theorem Held.edit_addMissing (h : Held live) (missing : List JobId) :
    Edit ids missing.length live.store (final (addMissing missing live)).store := by
  have hlocal : Local [] .missing (SetAgrees missingSpace) (IdSet.pushAll missing)
      (Plain.addMissing missing) := .forM (fun id => (local_push .missing trivial id).discard) missing
  obtain ⟨new, hlen, hadded⟩ := added_addMissing missing live.store
  refine .adds .missing trivial trivial new hlen ?_
  rwa [addMissing, onMissing, store_onPart (hlocal _ h.missing).1]

theorem Held.edit_removeMissing (h : Held live) (missing : List JobId) :
    Edit ids 0 live.store (final (removeMissing missing live)).store := by
  have hlocal : Local [] .missing (SetAgrees missingSpace) (IdSet.eraseAll missing)
      (Plain.removeMissing missing) :=
    .forM (fun id => (local_erase .missing trivial id).discard) missing
  rw [removeMissing, onMissing, store_onPart (hlocal _ h.missing).1]
  exact .takes (taken_removeMissing missing live.store)

theorem Recalls.edit_addDependency (hids : Hashed ids) (h : Recalls ids live) {dependency : JobId}
    (hid : dependency ∈ ids) (dependent : JobId) :
    Edit ids 1 live.store (final (addDependency dependency dependent live)).store := by
  have hlocal : Local ids (.bucket dependency) (BucketsAgree ids)
      (Dependents.add dependency dependent) (Plain.addDependency dependency dependent) :=
    (local_withBucket hids hid (OrderedSet.steady_put dependent.bytes)).discard
  obtain ⟨new, hlen, hadded⟩ := added_put (.bucket dependency) dependent live.store
  refine .adds (.bucket dependency) hid trivial new hlen ?_
  rw [addDependency, onDependents, store_onPart (hlocal _ h.buckets).1, Plain.addDependency,
    Runs.discard_apply]
  change Added _ new _ (final (Plain.onSet (bucketSpace dependency) (·.put dependent.bytes)
    live.store)) at hadded
  cases hput : Plain.onSet (bucketSpace dependency) (·.put dependent.bytes) live.store <;>
    rw [hput] at hadded <;> exact hadded

theorem Recalls.edit_removeDependents (hids : Hashed ids) (h : Recalls ids live)
    {dependency : JobId} (hid : dependency ∈ ids) :
    Edit ids 0 live.store (final (removeDependents dependency live)).store := by
  have hlocal : Local ids (.bucket dependency) (BucketsAgree ids)
      (Dependents.removeAll dependency) (Plain.removeDependents dependency) :=
    local_withBucket hids hid (OrderedSet.steady_takeAll JobId.ofBytes)
  rw [removeDependents, onDependents, store_onPart (hlocal _ h.buckets).1, Plain.removeDependents]
  cases hstored : stored (bucketSpace dependency) live.store.table with
  | error e => rw [final_onSet_of_error hstored]; exact .refl _ _
  | ok set =>
    rw [onSet_run hstored, Runs.bind_apply, OrderedSet.takeAll_run,
      OrderedSet.space_of_stored hstored]
    cases (listed (bucketSpace dependency) live.store.table).mapM fun e => JobId.ofBytes e.2 with
    | error e => exact .refl _ _
    | ok taken =>
      simp only
      split
      · rename_i htake
        split at htake
        · cases htake
          exact .refl _ _
        · split at htake <;> cases htake
          exact .empties dependency hid set hstored rfl
      · rename_i htake
        split at htake
        · cases htake
        · split at htake <;> cases htake
          exact .refl _ _

theorem Held.edit_putJob [Job J] (h : Held live) (job : J) :
    Edit ids 0 live.store (final (Scheduler.putJob job live)).store := by
  rw [putJob_run]
  split
  · exact .refl _ _
  · refine .stores (Job.id job) (Job.bytes job) _ (counts_stageIncrement h.pending.space_eq) ?_
    rw [JobStore.stagePut, h.jobs.space_eq]
    rfl

/-- Looking a job up leaves the store as it is. -/
theorem Held.getJob_eq (h : Held live) (id : JobId) :
    ∃ live', Held live' ∧ live'.store = live.store ∧
      ((∃ job, getJob id live = .ok job live') ∨ ∃ e, getJob id live = .error e live') := by
  obtain ⟨jobs, hjobs, hfound⟩ := h.jobs.get id
  refine ⟨⟨{ live.memory with jobs }, live.store⟩,
    ⟨hjobs, h.dependents, h.runnable, h.missing, h.pending⟩, rfl, ?_⟩
  simp only [getJob, onJobs, LiveM.onPart]
  rcases hfound with ⟨job, hok, -⟩ | ⟨e, herr⟩
  · rw [hok]
    exact .inl ⟨job, rfl⟩
  · rw [herr]
    exact .inr ⟨e, rfl⟩

theorem Held.edit_removeRunnable (h : Held live) :
    Edit ids 0 live.store (final (Scheduler.removeRunnable live)).store := by
  have hlocal : Local [] .runnable (SetAgrees runnableSpace) IdSet.pop Plain.pop := local_pop
  have htaken := taken_pop live.store
  rw [← store_onPart (hlocal ⟨live.memory.runnable, live.store⟩ h.runnable).1] at htaken
  change Taken .runnable live.store (final (onRunnable IdSet.pop live)).store at htaken
  rw [removeRunnable_eq, Runs.bind_apply]
  cases hpop : onRunnable IdSet.pop live with
  | error e mid =>
    rw [hpop] at htaken
    exact .dequeues mid.store htaken (.inl rfl)
  | ok key mid =>
    rw [hpop] at htaken
    have hmid := (still_pop.of_ok h.still hpop).held
    simp only [Runs.bind_apply]
    cases JobId.ofBytes key with
    | error e => exact .dequeues mid.store htaken (.inl rfl)
    | ok id =>
      simp only [Runs.ofExcept_ok]
      obtain ⟨live', hlive', hstore, ⟨job, hok⟩ | ⟨e, herr⟩⟩ := hmid.getJob_eq id
      · rw [afterDequeue_ok hok]
        simp only
        rw [dropJob_run]
        split
        · exact .dequeues mid.store htaken (.inl hstore)
        · refine .dequeues mid.store htaken (.inr ⟨id, _,
            counts_stageDecrement hlive'.pending.space_eq, ?_⟩)
          rw [JobStore.stageDelete, hlive'.jobs.space_eq, hstore]
          rfl
      · rw [afterDequeue_error herr]
        exact .dequeues mid.store htaken (.inl hstore)

/-! ## Exchanges -/

section Exchanges

variable [Job J]

/-- A verb ends as the action does whose value it dresses as a reply. -/
theorem Verb.final_run {x : LiveM (Scheduler J) α} (f : α → Reply J) {verb : Verb J}
    (hverb : verb.1.perform = DrainM.onQueue do return f (← x)) (live : Live (Scheduler J)) :
    final (verb.run live) = final (x live) := by
  rw [Verb.run_eq hverb, Runs.bind_apply]
  cases x live <;> rfl

/-- What a verb does to the store, unless it is to take everything out. -/
theorem Recalls.edit (hids : Hashed ids) (h : Recalls ids live) {verb : Verb J}
    (hb : verb.1.buckets ⊆ ids) (hclear : verb.1 ≠ .clear) :
    Edit ids verb.room live.store (final (verb.run live)).store := by
  by_cases hreads : verb.Reads
  · have hsame : (final (verb.run live)).store = live.store :=
      Verb.preserves_of_reads hreads (P := fun l => l.store = live.store) live rfl
    rw [hsame]
    exact .refl _ _
  obtain ⟨command, hverb⟩ := verb
  cases command with
  | putJob job =>
    rw [Verb.final_run (fun _ => .done) rfl]
    exact h.held.edit_putJob job
  | getJob id =>
    rw [Verb.final_run .job rfl]
    obtain ⟨live', -, hstore, ⟨job, hok⟩ | ⟨e, herr⟩⟩ := h.held.getJob_eq id
    · rw [hok, Runs.final_ok, hstore]
      exact .refl _ _
    · rw [herr, Runs.final_error, hstore]
      exact .refl _ _
  | addRunnable id =>
    rw [Verb.final_run (fun _ => .done) rfl]
    exact h.held.edit_addRunnable id
  | removeRunnable =>
    rw [Verb.final_run .job rfl]
    exact h.held.edit_removeRunnable
  | addDependency dependency dependent =>
    rw [Verb.final_run (fun _ => .done) rfl]
    exact h.edit_addDependency hids (hb (List.mem_singleton_self _)) dependent
  | removeDependents dependency =>
    rw [Verb.final_run .ids rfl]
    exact h.edit_removeDependents hids (hb (List.mem_singleton_self _))
  | addMissing missing =>
    rw [Verb.final_run (fun _ => .done) rfl]
    exact h.held.edit_addMissing missing
  | removeMissing missing =>
    rw [Verb.final_run (fun _ => .done) rfl]
    exact h.held.edit_removeMissing missing
  | clear => exact absurd rfl hclear
  | disableCaching => exact hverb.elim
  | execute runner limit => exact hverb.elim
  | _ => exact absurd trivial hreads

/-- All that an exchange can do to the store. -/
inductive Exchange.Writes (ids : List JobId) (x : Exchange J) : Prop
  | edits (hclears : x.clears = false) (h : Edit ids x.verb.room x.before x.after)
  | clears (hclears : x.clears = true)
      (h : x.after = x.before.after (clearing x.before.table))

theorem Recalls.attempt (hids : Hashed ids) (h : Recalls ids live) {verb : Verb J}
    (hb : verb.1.buckets ⊆ ids) :
    ∃ x live', verb.attempt live = .ok x live' ∧ Recalls ids live' ∧ x.before = live.store ∧
      x.after = live'.store ∧ x.Writes ids := by
  have hfinal := (blind_verb hids hb live _ h h.buckets).1
  by_cases hclear : verb.1 = .clear
  · obtain ⟨command, hverb⟩ := verb
    obtain rfl : command = .clear := hclear
    have hrun : Verb.run (J := J) ⟨.clear, trivial⟩ =
        (do Scheduler.clear; return .done) := Verb.run_eq rfl
    rw [Verb.attempt]
    rw [hrun, Runs.bind_apply, h.held.inPlace.clear_run] at hfinal ⊢
    by_cases hw : live.store.writesLeft = some 0
    · rw [if_pos hw]
      exact ⟨_, live, rfl, h, rfl, rfl, .edits rfl (.refl _ _)⟩
    · rw [if_neg hw] at hfinal ⊢
      exact ⟨_, _, rfl, hfinal, rfl, rfl, .clears rfl rfl⟩
  · have hedit := h.edit hids hb hclear
    have hclears : ∀ before reply after, (Exchange.mk verb before reply after).clears = false := by
      intro before reply after
      obtain ⟨command, hverb⟩ := verb
      cases command with
      | clear => exact absurd rfl hclear
      | _ => rfl
    rw [Verb.attempt]
    cases hrun : verb.run live <;> rw [hrun] at hfinal hedit <;>
      exact ⟨_, _, rfl, hfinal, rfl, rfl, .edits (hclears _ _ _) hedit⟩

variable {parse : Parser J}

/-- Every session is carried out. What holds of the exchanges and the table in the beginning, and
after each exchange if it did before, holds in the end. -/
theorem Recalls.playAll (hids : Hashed ids) {P : List (Exchange J) → Table → Prop}
    (hP : ∀ trace (x : Exchange J), P trace x.before.table → x.Writes ids →
      P (trace ++ [x]) x.after.table)
    (h : Recalls ids live) (trace : List (Exchange J)) (htrace : P trace live.store.table)
    {moves : List (Move J)} (hb : moves.flatMap Move.buckets ⊆ ids) :
    ∃ xs live', Move.playAll parse moves live = .ok xs live' ∧ Recalls ids live' ∧
      P (trace ++ xs) live'.store.table := by
  induction moves generalizing live trace with
  | nil => exact ⟨[], live, rfl, h, by rwa [List.append_nil]⟩
  | cons move rest ih =>
    rw [List.flatMap_cons, List.append_subset] at hb
    obtain ⟨first, mid, hfirst, hmid, hmid'⟩ : ∃ xs mid, move.play parse live = .ok xs mid ∧
        Recalls ids mid ∧ P (trace ++ xs) mid.store.table := by
      cases move with
      | ask verb =>
        obtain ⟨x, mid, hattempt, hmid, hbefore, hafter, hwrites⟩ := h.attempt hids hb.1
        refine ⟨[x], mid, ?_, hmid, hafter ▸ hP trace x (hbefore ▸ htrace) hwrites⟩
        rw [Move.play, Runs.bind_of_ok hattempt]
        rfl
      | grant left => exact ⟨[], _, rfl, h.withWrites left, by rwa [List.append_nil]⟩
      | disableCaching =>
        have hfinal := (blind_disableCaching live _ h h.buckets).1
        exact ⟨[], _, rfl, hfinal, by rwa [List.append_nil]⟩
      | reopen options metrics =>
        obtain ⟨scheduler, hload⟩ : ∃ scheduler : Scheduler J,
            load parse options metrics live.store = .ok scheduler live.store :=
          load_of_agrees h.held.pending h.held.runnable h.held.missing options metrics
        have hcoherent : Coherent ids parse ⟨scheduler, live.store⟩ := coherent_of_load hload
        refine ⟨[], ⟨scheduler, live.store⟩, ?_, hcoherent.recalls, by rwa [List.append_nil]⟩
        rw [Move.play, Runs.bind_of_ok (restart_run hload)]
        rfl
    obtain ⟨others, live', hothers, hlive', hlive''⟩ := ih hmid (trace ++ first) hmid' hb.2
    refine ⟨first ++ others, live', ?_, hlive', by rwa [← List.append_assoc]⟩
    rw [Move.playAll, Runs.bind_of_ok hfirst, Runs.bind_of_ok hothers]
    rfl

end Exchanges

end Verbs

/-! ## All entries can be read -/

theorem Entries.added (hpart : part.Of ids) (hset : part.IsSet) {new : List JobId}
    (h : Added part new s t) (hs : Entries ids s.table) : Entries ids t.table := by
  induction h with
  | nil => exact hs
  | cons hstored _ _ ih =>
    refine ih ?_
    rw [Store.table_after]
    exact hs.apply (enters_additions hpart hset (OrderedSet.space_of_stored hstored) _)

theorem Entries.taken (h : Taken part s t) (hs : Entries ids s.table) : Entries ids t.table := by
  induction h with
  | nil => exact hs
  | cons _ _ _ ih =>
    refine ih ?_
    rw [Store.table_after]
    exact hs.apply nofun

theorem Entries.edit {room : Nat} (h : Edit ids room s t) (hs : Entries ids s.table) :
    Entries ids t.table := by
  cases h with
  | adds part hpart hset new hroom h => exact .added hpart hset h hs
  | takes h => exact .taken h hs
  | empties dependency hid set hstored h =>
    rw [h, Store.table_after]
    exact hs.apply (enters_of_deletes (OrderedSet.Lists.isPut_removals set _))
  | stores id bytes ops hops h =>
    rw [h, Store.table_after]
    have hjob : Part.Allows .jobs id.bytes bytes := ⟨id, rfl⟩
    exact hs.apply ((enters_singleton .jobs trivial hjob).append hops.enters)
  | dequeues mid hmid h =>
    have hmid' := hs.taken hmid
    rcases h with rfl | ⟨id, ops, hops, rfl⟩
    · exact hmid'
    · rw [Store.table_after]
      have hdelete : Enters ids [jobsSpace.stageDelete id.bytes] := nofun
      exact hmid'.apply (hdelete.append hops.enters)

theorem enters_clearing (t : Table) : Enters ids (clearing t) := by
  have hcleared : ∀ space, Enters ids (cleared space t) := by
    refine fun space => enters_of_deletes fun op hop => ?_
    obtain ⟨e, -, rfl⟩ := List.mem_map.mp hop
    rfl
  have hzero : Part.Allows .pending Counter.key (encodeWord 0) := ⟨rfl, 0, rfl⟩
  exact ((((hcleared _).append (hcleared _)).append (hcleared _)).append (hcleared _)).append
    (enters_singleton .pending trivial hzero)

theorem Entries.exchange {x : Exchange J} (h : x.Writes ids) (hs : Entries ids x.before.table) :
    Entries ids x.after.table := by
  cases h with
  | edits _ h => exact .edit h hs
  | clears _ h =>
    rw [h, Store.table_after]
    exact hs.apply (enters_clearing _)

theorem entries_firstBatch : Entries ids (Batch.apply firstBatch .empty) :=
  entries_empty.apply (enters_singleton .pending trivial ⟨rfl, 0, rfl⟩)

/-- Whatever is asked of a scheduler that was opened on a store without entries, it has in memory what
the store has, and all that the store has can be read. -/
theorem playAll_recalls [Job J] {parse : Parser J} {options : Options}
    {metrics : Option (CacheMetrics × CacheMetrics)} {store t : Store} {scheduler : Scheduler J}
    (hempty : store.table = .empty) (hload : load parse options metrics store = .ok scheduler t)
    (hids : Hashed ids) {moves : List (Move J)} (hb : moves.flatMap Move.buckets ⊆ ids) :
    ∃ trace live, Move.playAll parse moves ⟨scheduler, t⟩ = .ok trace live ∧ Recalls ids live ∧
      Entries ids live.store.table := by
  have hcoherent : Coherent ids parse ⟨scheduler, t⟩ := coherent_of_load hload
  have hentries : Entries ids t.table := by
    rw [store_of_load hempty hload, Store.table_after, hempty]
    exact entries_firstBatch
  exact hcoherent.recalls.playAll hids (P := fun _ => Entries ids)
    (fun _ _ hs hx => Entries.exchange hx hs) [] hentries hb

end WorkQueue.Scheduler
