import WorkQueue.Proofs.Scheduler.Reached
import WorkQueue.Proofs.Scheduler.Sessions

/-!
# What is not seen of a session

A session of a scheduler is mirrored by one of a scheduler without memory (`Plain.playAll`): there,
giving up the caches and opening again do nothing at all. Both give the same replies and write the
same, so nobody sees

* whether caches are in use, how large they are and when they are given up (`caching_unseen`);
* whether and when the scheduler is opened again on its store (`restarts_unseen`).

Nothing is supposed of what the store held in the beginning, except that a scheduler can be opened
on it.
-/

namespace WorkQueue.Scheduler

open Runs (Preserves)

variable {J : Type} {ids : List JobId} {parse : Parser J}

/-! ## Sessions without memory -/

namespace Plain

variable [Job J]

/-- What the plain verbs give on a command. -/
def answer (parse : Parser J) : Command Unit J → StoreM (Reply J)
  | .putJob job => do putJob job; return .done
  | .hasJob id => do return .flag (← hasJob id)
  | .getJob id => do return .job (← getJob parse id)
  | .addRunnable id => do addRunnable id; return .done
  | .hasRunnable => do return .flag (← hasRunnable)
  | .runnableIds => do return .ids (← runnableIds)
  | .removeRunnable => do return .job (← removeRunnable parse)
  | .addDependency dependency dependent => do addDependency dependency dependent; return .done
  | .removeDependents dependency => do return .ids (← removeDependents dependency)
  | .addMissing ids => do addMissing ids; return .done
  | .removeMissing ids => do removeMissing ids; return .done
  | .missingIds => do return .ids (← missingIds)
  | .missingCount => do return .count (← missingCount)
  | .pendingCount => do return .count (← pendingCount).toNat
  | .clear => do clear; return .done
  | .disableCaching | .execute _ _ => return .done

/-- Carries out a verb, whatever comes of it. -/
def attempt (parse : Parser J) (verb : Verb J) : StoreM (Exchange J) := fun s =>
  match answer parse verb.1 s with
  | .ok reply t => .ok ⟨verb, s, .ok reply, t⟩ t
  | .error e t => .ok ⟨verb, s, .error e, t⟩ t

/-- Carries out a move. -/
def play (parse : Parser J) : Move J → StoreM (List (Exchange J))
  | .ask verb => return [← attempt parse verb]
  | .grant left => fun s => .ok [] { s with writesLeft := left }
  | .disableCaching | .reopen _ _ => return []

/-- Carries out moves, one after the other. -/
def playAll (parse : Parser J) : List (Move J) → StoreM (List (Exchange J))
  | [] => return []
  | move :: rest => return (← play parse move) ++ (← playAll parse rest)

theorem play_ok (parse : Parser J) (move : Move J) (s : Store) :
    ∃ trace t, play parse move s = .ok trace t := by
  cases move with
  | ask verb =>
    rw [play, Runs.bind_apply, attempt]
    cases answer parse verb.1 s <;> exact ⟨_, _, rfl⟩
  | _ => exact ⟨_, _, rfl⟩

/-- A session without memory never ends with an error. -/
theorem playAll_ok (parse : Parser J) (moves : List (Move J)) (s : Store) :
    ∃ trace t, playAll parse moves s = .ok trace t := by
  induction moves generalizing s with
  | nil => exact ⟨_, _, rfl⟩
  | cons move rest ih =>
    obtain ⟨first, mid, hfirst⟩ := play_ok parse move s
    obtain ⟨others, t, hothers⟩ := ih mid
    refine ⟨first ++ others, t, ?_⟩
    rw [playAll, Runs.bind_of_ok hfirst, Runs.bind_of_ok hothers]
    rfl

/-- Moves that do nothing without memory can be left out. -/
theorem playAll_filter (parse : Parser J) {keep : Move J → Bool}
    (h : ∀ move, keep move = false → play parse move = pure []) (moves : List (Move J)) :
    playAll parse (moves.filter keep) = playAll parse moves := by
  induction moves with
  | nil => rfl
  | cons move rest ih =>
    cases hkeep : keep move with
    | true => rw [List.filter_cons_of_pos hkeep, playAll, playAll, ih]
    | false =>
      rw [List.filter_cons_of_neg (by simp [hkeep]), ih, playAll, h move hkeep]
      simp

end Plain

/-! ## Sessions in memory -/

theorem mirrors_clear : Mirrors ids parse clear Plain.clear := by
  intro live hc
  have hplace := hc.placed.inPlace
  have hplain : Plain.clear live.store =
      Store.write (clearing live.store.table) live.store := rfl
  rw [hplace.clear_run, hplain, Store.write_eq]
  by_cases hw : live.store.writesLeft = some 0
  · rw [if_pos hw, if_pos hw]
    exact ⟨rfl, hc⟩
  rw [if_neg hw, if_neg hw]
  obtain ⟨hrunnable, hmissing, hpending⟩ :=
    hplace.emptied_agrees (bare_clearing live.store.table)
  rw [← Store.table_after] at hrunnable hmissing hpending
  exact ⟨rfl, emptied_jobsAgree hc.jobs, ⟨hplace.dependents, fun _ k bucket hf =>
    absurd (hf.symm.trans (Cache.find?_flush _ k)) (Option.some_ne_none bucket)⟩,
    hrunnable, hmissing, hpending⟩

/-- Opening the scheduler again does nothing that can be seen. -/
theorem mirrors_restart (options : Options) (metrics : Option (CacheMetrics × CacheMetrics)) :
    Mirrors ids parse (restart parse options metrics) (pure ()) := by
  intro live hc
  obtain ⟨scheduler, hload, hc'⟩ := load_of_coherent hc options metrics
  rw [restart_run hload]
  exact ⟨rfl, hc'⟩

section Verbs

variable [Job J]

/-- A verb that gives what an action gives, dressed as a reply. -/
theorem Mirrors.verb {α : Type} {x : LiveM (Scheduler J) α} {y : StoreM α}
    (h : Mirrors ids parse x y) (f : α → Reply J) {verb : Verb J}
    (hverb : verb.1.perform = DrainM.onQueue do return f (← x)) :
    Mirrors ids parse verb.run (do return f (← y)) := by
  rw [Verb.run_eq hverb]
  exact h.map f

/-- Every verb gives what the plain verb gives. -/
theorem mirrors_verb (hids : Hashed ids) {verb : Verb J} (hf : verb.1.Faithful parse)
    (hb : verb.1.buckets ⊆ ids) : Mirrors ids parse verb.run (Plain.answer parse verb.1) := by
  obtain ⟨command, hverb⟩ := verb
  cases command with
  | putJob job => exact (mirrors_putJob hids hf).verb (fun _ => .done) rfl
  | hasJob id => exact (mirrors_hasJob id).verb .flag rfl
  | getJob id => exact (mirrors_getJob hids id).verb .job rfl
  | addRunnable id => exact (mirrors_addRunnable hids id).verb (fun _ => .done) rfl
  | hasRunnable => exact mirrors_hasRunnable.verb .flag rfl
  | runnableIds => exact mirrors_runnableIds.verb .ids rfl
  | removeRunnable => exact (mirrors_removeRunnable hids).verb .job rfl
  | addDependency dependency dependent =>
    have hid : dependency ∈ ids := hb (List.mem_singleton_self _)
    exact (mirrors_addDependency hids hid dependent).verb (fun _ => .done) rfl
  | removeDependents dependency =>
    have hid : dependency ∈ ids := hb (List.mem_singleton_self _)
    exact (mirrors_removeDependents hids hid).verb .ids rfl
  | addMissing missing => exact (mirrors_addMissing hids missing).verb (fun _ => .done) rfl
  | removeMissing missing => exact (mirrors_removeMissing hids missing).verb (fun _ => .done) rfl
  | missingIds => exact mirrors_missingIds.verb .ids rfl
  | missingCount => exact mirrors_missingCount.verb .count rfl
  | pendingCount => exact mirrors_pendingCount.verb (fun count => .count count.toNat) rfl
  | clear => exact mirrors_clear.verb (fun _ => .done) rfl
  | disableCaching => exact hverb.elim
  | execute runner limit => exact hverb.elim

theorem mirrors_attempt {verb : Verb J}
    (h : Mirrors ids parse verb.run (Plain.answer parse verb.1)) :
    Mirrors ids parse verb.attempt (Plain.attempt parse verb) := by
  intro live hc
  obtain ⟨hr, hc'⟩ := h live hc
  rw [Verb.attempt, Plain.attempt, ← hr]
  cases hrun : verb.run live <;> rw [hrun] at hc' <;> exact ⟨rfl, hc'⟩

theorem mirrors_play (hids : Hashed ids) {move : Move J} (hf : move.Faithful parse)
    (hb : move.buckets ⊆ ids) : Mirrors ids parse (move.play parse) (Plain.play parse move) := by
  cases move with
  | ask verb => exact (mirrors_attempt (mirrors_verb hids hf hb)).map fun exchange => [exchange]
  | grant left =>
    exact fun live hc => ⟨rfl, hc.jobs, hc.dependents, hc.runnable, hc.missing, hc.pending⟩
  | disableCaching => exact mirrors_disableCaching.map fun _ => []
  | reopen options metrics => exact (mirrors_restart options metrics).map fun _ => []

/-- A session in memory is mirrored by one without. -/
theorem mirrors_playAll (hids : Hashed ids) {moves : List (Move J)}
    (hf : ∀ move ∈ moves, move.Faithful parse) (hb : moves.flatMap Move.buckets ⊆ ids) :
    Mirrors ids parse (Move.playAll parse moves) (Plain.playAll parse moves) := by
  induction moves with
  | nil => exact fun live hc => ⟨rfl, hc⟩
  | cons move rest ih =>
    rw [List.flatMap_cons, List.append_subset] at hb
    have hmove := mirrors_play hids (hf move List.mem_cons_self) hb.1
    have hrest := ih (fun m hm => hf m (List.mem_cons_of_mem _ hm)) hb.2
    exact hmove.bind fun trace => hrest.map fun others => trace ++ others

end Verbs

/-! ## Caches that have been given up -/

section Uncached

variable {α : Type}

/-- No cached jobs, and none to come. -/
def JobsUncached (jobs : JobStore J) : Prop := jobs.caching = false ∧ jobs.cache.entries = []

/-- No remembered buckets, and none to come. -/
def BucketsUncached (d : Dependents) : Prop := d.caching = false ∧ d.buckets.entries = []

/-- Both caches are empty and are not in use. -/
def Uncached (live : Live (Scheduler J)) : Prop :=
  JobsUncached live.memory.jobs ∧ BucketsUncached live.memory.dependents

theorem uncached_getJob (id : JobId) : Preserves Uncached (getJob (J := J) id) := by
  rintro live ⟨hjobs, hdependents⟩
  have hget : Runs.final (JobStore.get id ⟨live.memory.jobs, live.store⟩) =
      ⟨live.memory.jobs, live.store⟩ := by
    simp only [JobStore.get, JobStore.fetch, LiveM.renew, LiveM.memory, Runs.bind_apply, hjobs.1,
      Bool.false_eq_true, if_false, Namespace.get_run]
    cases live.memory.jobs.space.view live.store.table id.bytes with
    | none => rfl
    | some bytes => cases hparse : live.memory.jobs.parse bytes <;> simp [hparse]
  rw [getJob, onJobs, final_onPart, hget]
  exact ⟨hjobs, hdependents⟩

theorem uncached_withBucket (dependency : JobId) (action : OrderedSet → StoreM (α × OrderedSet)) :
    Preserves (fun part => BucketsUncached part.memory)
      (Dependents.withBucket dependency action) := by
  intro part hpart
  have hrun : Dependents.withBucket dependency action part =
      LiveM.onStore (Plain.onSet (part.memory.bucketSpace dependency) action) part := by
    simp only [Dependents.withBucket, Runs.bind_apply, LiveM.memory, hpart.1, Bool.false_eq_true,
      if_false]
    rfl
  rw [hrun, final_onStore]
  exact hpart

theorem uncached_onDependents {x : LiveM Dependents α}
    (h : Preserves (fun part => BucketsUncached part.memory) x) :
    Preserves Uncached (onDependents x : LiveM (Scheduler J) α) := by
  rintro live ⟨hjobs, hdependents⟩
  rw [onDependents, final_onPart]
  exact ⟨hjobs, h ⟨live.memory.dependents, live.store⟩ hdependents⟩

theorem uncached_onRunnable (x : LiveM IdSet α) :
    Preserves Uncached (onRunnable x : LiveM (Scheduler J) α) := by
  intro live hlive
  rw [onRunnable, final_onPart]
  exact hlive

theorem uncached_onMissing (x : LiveM IdSet α) :
    Preserves Uncached (onMissing x : LiveM (Scheduler J) α) := by
  intro live hlive
  rw [onMissing, final_onPart]
  exact hlive

theorem uncached_dropJob (id : JobId) (a : α) :
    Preserves Uncached (dropJob id a : LiveM (Scheduler J) α) := by
  rintro live ⟨⟨hcaching, hentries⟩, hdependents⟩
  rw [dropJob_run]
  split
  · exact ⟨⟨hcaching, hentries⟩, hdependents⟩
  · have hforget : (live.memory.jobs.forget id).cache.entries = [] := by
      simp [JobStore.forget, Cache.remove, Cache.replace, Cache.others, hentries]
    exact ⟨⟨hcaching, hforget⟩, hdependents⟩

theorem uncached_removeRunnable : Preserves Uncached (removeRunnable (J := J)) := by
  refine (uncached_onRunnable IdSet.pop).bind fun key => ?_
  refine (Preserves.ofExcept _).bind fun id => ?_
  refine (preserves_afterDequeue (uncached_getJob id) id).bind fun job => ?_
  exact uncached_dropJob id job

theorem uncached_clear : Preserves Uncached (clear (J := J)) := by
  intro live hlive
  rw [clear_run]
  split
  · exact hlive
  · have hflush : Preserves Uncached (LiveM.update fun s : Scheduler J =>
        { s with jobs := s.jobs.flush, dependents := s.dependents.flush }) :=
      fun _ h => ⟨⟨h.1.1, rfl⟩, h.2.1, rfl⟩
    have hreset : Preserves Uncached (LiveM.update fun s : Scheduler J =>
        { s with pending := { s.pending with count := 0 } }) := fun _ h => h
    have hrest : Preserves Uncached (afterDeletions (J := J)) :=
      hflush.bind fun _ => (uncached_onRunnable _).bind fun _ =>
        (uncached_onMissing _).bind fun _ => hreset
    exact hrest _ hlive

variable [Job J]

theorem uncached_putJob (job : J) : Preserves Uncached (putJob job) := by
  rintro live ⟨⟨hcaching, hentries⟩, hdependents⟩
  rw [putJob_run]
  split
  · exact ⟨⟨hcaching, hentries⟩, hdependents⟩
  · have hremember : live.memory.jobs.remember job = live.memory.jobs := by
      rw [JobStore.remember, if_neg (by simp [hcaching])]
    refine ⟨?_, hdependents⟩
    show JobsUncached (live.memory.jobs.remember job)
    rw [hremember]
    exact ⟨hcaching, hentries⟩

/-- No verb takes a cache into use again. -/
theorem uncached_verb (verb : Verb J) : Preserves Uncached verb.run := by
  by_cases hreads : verb.Reads
  · exact Verb.preserves_of_reads hreads
  obtain ⟨command, hverb⟩ := verb
  refine Verb.preserves ?_
  cases command with
  | putJob job => exact preserves_onQueue ((uncached_putJob job).bind fun _ => .pure _)
  | getJob id => exact preserves_onQueue ((uncached_getJob id).bind fun _ => .pure _)
  | addRunnable id => exact preserves_onQueue ((uncached_onRunnable _).bind fun _ => .pure _)
  | removeRunnable => exact preserves_onQueue (uncached_removeRunnable.bind fun _ => .pure _)
  | addDependency dependency dependent =>
    exact preserves_onQueue ((uncached_onDependents (uncached_withBucket dependency _).discard).bind
      fun _ => .pure _)
  | removeDependents dependency =>
    exact preserves_onQueue ((uncached_onDependents (uncached_withBucket dependency _)).bind
      fun _ => .pure _)
  | addMissing ids => exact preserves_onQueue ((uncached_onMissing _).bind fun _ => .pure _)
  | removeMissing ids => exact preserves_onQueue ((uncached_onMissing _).bind fun _ => .pure _)
  | clear => exact preserves_onQueue (uncached_clear.bind fun _ => .pure _)
  | disableCaching => exact hverb.elim
  | execute runner limit => exact hverb.elim
  | _ => exact absurd trivial hreads

theorem uncached_play {move : Move J} (h : move.isReopen = false) :
    Preserves Uncached (move.play parse) := by
  cases move with
  | ask verb =>
    have hattempt : Preserves Uncached verb.attempt := fun live hlive => by
      rw [Verb.final_attempt]
      exact uncached_verb verb live hlive
    exact hattempt.bind fun _ => .pure _
  | grant left => exact fun _ h => h
  | disableCaching => exact Preserves.bind (fun _ _ => ⟨⟨rfl, rfl⟩, rfl, rfl⟩) fun _ => .pure _
  | reopen options metrics => cases h

theorem uncached_playAll {moves : List (Move J)} (h : ∀ move ∈ moves, move.isReopen = false) :
    Preserves Uncached (Move.playAll parse moves) := by
  induction moves with
  | nil => exact fun _ h => h
  | cons move rest ih =>
    refine (uncached_play (h move List.mem_cons_self)).bind fun _ => ?_
    exact (ih fun m hm => h m (List.mem_cons_of_mem _ hm)).bind fun _ => .pure _

/-- Once the caches have been given up they stay empty as long as the scheduler lives. -/
theorem uncached_of_disabled {earlier later : List (Move J)}
    (h : ∀ move ∈ later, move.isReopen = false) {live live' : Live (Scheduler J)}
    {trace : List (Exchange J)}
    (hplay : Move.playAll parse (earlier ++ .disableCaching :: later) live = .ok trace live') :
    Uncached live' := by
  induction earlier generalizing live trace with
  | nil =>
    obtain ⟨_, mid, hfirst, hrest⟩ := Runs.bind_eq_ok.mp hplay
    have hmid : Uncached mid := by
      cases hfirst
      exact ⟨⟨rfl, rfl⟩, rfl, rfl⟩
    exact ((uncached_playAll h).bind fun _ => .pure _).of_ok hmid hrest
  | cons move rest ih =>
    obtain ⟨_, mid, -, hrest⟩ := Runs.bind_eq_ok.mp hplay
    obtain ⟨others, live'', hothers, hlast⟩ := Runs.bind_eq_ok.mp hrest
    cases hlast
    exact ih hothers

end Uncached

/-! ## What is not seen -/

/-- Moves that were there before or use no bucket lead to no other buckets. -/
theorem buckets_subset {moves moves' : List (Move J)}
    (h : ∀ move ∈ moves', move ∈ moves ∨ move.buckets = []) :
    moves'.flatMap Move.buckets ⊆ moves.flatMap Move.buckets := by
  intro id hid
  obtain ⟨move, hmove, hid⟩ := List.mem_flatMap.mp hid
  rcases h move hmove with hmem | hnone
  · exact List.mem_flatMap.mpr ⟨move, hmem, hid⟩
  · rw [hnone] at hid
    cases hid

/-- Opening a scheduler writes the same whatever caches it is to have. -/
theorem load_options {options : Options} {metrics : Option (CacheMetrics × CacheMetrics)}
    {store t : Store} {scheduler : Scheduler J}
    (h : load parse options metrics store = .ok scheduler t) (options' : Options)
    (metrics' : Option (CacheMetrics × CacheMetrics)) :
    ∃ scheduler' : Scheduler J, load parse options' metrics' store = .ok scheduler' t := by
  obtain ⟨pending, s₁, hpending, hrest⟩ := Runs.bind_eq_ok.mp h
  obtain ⟨runnable, s₂, hrunnable, hrest'⟩ := Runs.bind_eq_ok.mp hrest
  obtain ⟨missing, s₃, hmissing, hlast⟩ := Runs.bind_eq_ok.mp hrest'
  obtain rfl : t = s₃ := by split at hlast <;> cases hlast <;> rfl
  have hpending' : Counter.load pendingSpace (JobStore.new jobsSpace parse
      (.new options'.jobsCapacity (metrics'.map (·.1)))) store = .ok pending s₁ := hpending
  rw [load, Runs.bind_of_ok hpending', Runs.bind_of_ok hrunnable, Runs.bind_of_ok hmissing]
  split <;> exact ⟨_, rfl⟩

variable [Job J]

/-- A session and its mirror, from any scheduler that has been opened. -/
theorem playAll_of_load {options : Options} {metrics : Option (CacheMetrics × CacheMetrics)}
    {store t : Store} {scheduler : Scheduler J}
    (h : load parse options metrics store = .ok scheduler t) (hids : Hashed ids)
    {moves : List (Move J)} (hf : ∀ move ∈ moves, move.Faithful parse)
    (hb : moves.flatMap Move.buckets ⊆ ids) {trace : List (Exchange J)} {u : Store}
    (hplain : Plain.playAll parse moves t = .ok trace u) :
    ∃ live, Move.playAll parse moves ⟨scheduler, t⟩ = .ok trace live ∧ live.store = u := by
  obtain ⟨live, hplay, hstore, -⟩ :=
    (mirrors_playAll hids hf hb).of_ok (coherent_of_load h) hplain
  exact ⟨live, hplay, hstore⟩

/-- Two sessions in which the caches are set up in different ways and are given up at different
times give the same replies and leave the same store after each verb. Caches that have been given up
stay empty. -/
theorem caching_unseen {options : Options} {metrics : Option (CacheMetrics × CacheMetrics)}
    {store t : Store} {scheduler : Scheduler J}
    (hload : load parse options metrics store = .ok scheduler t) {moves moves' : List (Move J)}
    (hsame : moves.filter (!·.isDisabling) = moves'.filter (!·.isDisabling))
    (hfaithful : ∀ move ∈ moves, move.Faithful parse)
    (hhashed : Hashed (moves.flatMap Move.buckets)) (options' : Options)
    (metrics' : Option (CacheMetrics × CacheMetrics)) :
    ∃ scheduler' trace live live',
      load parse options' metrics' store = .ok scheduler' t ∧
      Move.playAll parse moves ⟨scheduler, t⟩ = .ok trace live ∧
      Move.playAll parse moves' ⟨scheduler', t⟩ = .ok trace live' ∧
      live.store = live'.store ∧
      ∀ earlier later, moves = earlier ++ .disableCaching :: later →
        (∀ move ∈ later, move.isReopen = false) → Uncached live := by
  obtain ⟨scheduler', hload'⟩ := load_options hload options' metrics'
  obtain ⟨trace, u, hplain⟩ := Plain.playAll_ok parse moves t
  have hunseen : ∀ move : Move J, (!move.isDisabling) = false →
      Plain.play parse move = pure [] ∧ move.Faithful parse ∧ move.buckets = [] := by
    intro move hmove
    cases move with
    | disableCaching => exact ⟨rfl, trivial, rfl⟩
    | _ => cases hmove
  have hplain' : Plain.playAll parse moves' t = .ok trace u := by
    rw [← Plain.playAll_filter parse (fun m hm => (hunseen m hm).1) moves', ← hsame,
      Plain.playAll_filter parse fun m hm => (hunseen m hm).1, hplain]
  -- A move of the other session is one of this session, or gives up the caches.
  have hseen : ∀ move ∈ moves', move ∈ moves ∨ (!move.isDisabling) = false := by
    intro move hmove
    cases hkeep : !move.isDisabling with
    | false => exact .inr rfl
    | true =>
      have hmem : move ∈ moves'.filter (!·.isDisabling) := List.mem_filter.mpr ⟨hmove, hkeep⟩
      rw [← hsame] at hmem
      exact .inl (List.mem_filter.mp hmem).1
  have hfaithful' : ∀ move ∈ moves', move.Faithful parse := fun move hmove =>
    (hseen move hmove).elim (hfaithful move) fun h => (hunseen move h).2.1
  have hbuckets' : moves'.flatMap Move.buckets ⊆ moves.flatMap Move.buckets :=
    buckets_subset fun move hmove => (hseen move hmove).imp_right fun h => (hunseen move h).2.2
  obtain ⟨live, hplay, hstore⟩ :=
    playAll_of_load hload hhashed hfaithful (List.Subset.refl _) hplain
  obtain ⟨live', hplay', hstore'⟩ :=
    playAll_of_load hload' hhashed hfaithful' hbuckets' hplain'
  refine ⟨scheduler', trace, live, live', hload', hplay, hplay', hstore.trans hstore'.symm, ?_⟩
  intro earlier later hmoves hlife
  rw [hmoves] at hplay
  exact uncached_of_disabled hlife hplay

/-- The store refuses to let `forerunner` go once it has left the queue, and the scheduler is opened
again before writes are granted. -/
def refusedSession : List (Move LinkedJob) :=
  [.ask ⟨.putJob forerunner, trivial⟩, .ask ⟨.putJob follower, trivial⟩,
    .ask ⟨.addDependency (Job.id forerunner) (Job.id follower), trivial⟩,
    .ask ⟨.addRunnable (Job.id forerunner), trivial⟩, .grant (some 1),
    .ask ⟨.removeRunnable, trivial⟩, .reopen ⟨true, 4, 4, ""⟩ none, .ask ⟨.clear, trivial⟩,
    .grant none, .disableCaching, .ask ⟨.getJob (Job.id follower), trivial⟩,
    .ask ⟨.removeDependents (Job.id forerunner), trivial⟩]

theorem faithful_refusedSession : ∀ move ∈ refusedSession, move.Faithful LinkedJob.parse := by
  have hfore := LinkedJob.parse_encode forerunner (by decide)
  have hfollow := LinkedJob.parse_encode follower (by decide)
  simp only [refusedSession, List.forall_mem_cons]
  exact ⟨hfore, hfollow, trivial, trivial, trivial, trivial, trivial, trivial, trivial, trivial,
    trivial, trivial, nofun⟩

theorem caching_unseen_refusedSession : ∃ scheduler t scheduler' trace live live',
    load LinkedJob.parse ⟨true, 4, 4, ""⟩ none (.volatile .empty) = .ok scheduler t ∧
    load LinkedJob.parse ⟨false, 0, 0, ""⟩ none (.volatile .empty) = .ok scheduler' t ∧
    Move.playAll LinkedJob.parse refusedSession ⟨scheduler, t⟩ = .ok trace live ∧
    Move.playAll LinkedJob.parse (refusedSession.filter (!·.isDisabling)) ⟨scheduler', t⟩ =
      .ok trace live' ∧
    live.store = live'.store ∧ Uncached live := by
  have hnone : (Store.volatile .empty).table = .empty := rfl
  obtain ⟨scheduler, t, hload⟩ := load_of_empty LinkedJob.parse hnone rfl ⟨true, 4, 4, ""⟩ none
  have hsame : refusedSession.filter (!·.isDisabling) =
      (refusedSession.filter (!·.isDisabling)).filter (!·.isDisabling) := by simp
  obtain ⟨scheduler', trace, live, live', hload', hplay, hplay', hstore, hempty⟩ :=
    caching_unseen hload hsame faithful_refusedSession (by decide +kernel) ⟨false, 0, 0, ""⟩ none
  refine ⟨scheduler, t, scheduler', trace, live, live', hload, hload', hplay, hplay', hstore, ?_⟩
  exact hempty (refusedSession.take 9) (refusedSession.drop 10) rfl (by decide)

/-- Whenever the scheduler of a session is opened again on its store, it can be, and the session
gives the same replies and leaves the same store after each verb as without. -/
theorem restarts_unseen {options : Options} {metrics : Option (CacheMetrics × CacheMetrics)}
    {store t : Store} {scheduler : Scheduler J}
    (hload : load parse options metrics store = .ok scheduler t) {moves : List (Move J)}
    (hfaithful : ∀ move ∈ moves, move.Faithful parse)
    (hhashed : Hashed (moves.flatMap Move.buckets)) :
    ∃ trace live live',
      Move.playAll parse moves ⟨scheduler, t⟩ = .ok trace live ∧
      Move.playAll parse (moves.filter (!·.isReopen)) ⟨scheduler, t⟩ = .ok trace live' ∧
      live.store = live'.store := by
  obtain ⟨trace, u, hplain⟩ := Plain.playAll_ok parse moves t
  have hunseen : ∀ move : Move J, (!move.isReopen) = false → Plain.play parse move = pure [] := by
    intro move hmove
    cases move with
    | reopen options metrics => rfl
    | _ => cases hmove
  have hplain' : Plain.playAll parse (moves.filter (!·.isReopen)) t = .ok trace u := by
    rw [Plain.playAll_filter parse hunseen, hplain]
  have hkept : ∀ move ∈ moves.filter (!·.isReopen), move ∈ moves := fun _ h =>
    (List.mem_filter.mp h).1
  obtain ⟨live, hplay, hstore⟩ :=
    playAll_of_load hload hhashed hfaithful (List.Subset.refl _) hplain
  obtain ⟨live', hplay', hstore'⟩ := playAll_of_load hload hhashed
    (fun m hm => hfaithful m (hkept m hm)) (buckets_subset fun m hm => .inl (hkept m hm)) hplain'
  exact ⟨trace, live, live', hplay, hplay', hstore.trans hstore'.symm⟩

/-- The refusal is seen, and the opening after it is not. -/
theorem restarts_unseen_refusedSession : ∃ scheduler t trace live live',
    load LinkedJob.parse ⟨true, 4, 4, ""⟩ none (.volatile .empty) = .ok scheduler t ∧
    Move.playAll LinkedJob.parse refusedSession ⟨scheduler, t⟩ = .ok trace live ∧
    Move.playAll LinkedJob.parse (refusedSession.filter (!·.isReopen)) ⟨scheduler, t⟩ =
      .ok trace live' ∧
    live.store = live'.store ∧
    ∃ x ∈ trace, x.reply = .error (.dequeue (Job.id forerunner) (.file .writeRefused)) := by
  have hnone : (Store.volatile .empty).table = .empty := rfl
  obtain ⟨scheduler, t, hload⟩ := load_of_empty LinkedJob.parse hnone rfl ⟨true, 4, 4, ""⟩ none
  obtain ⟨trace, live, live', hplay, hplay', hstore⟩ :=
    restarts_unseen hload faithful_refusedSession (by decide +kernel)
  have hrefused : (match load LinkedJob.parse ⟨true, 4, 4, ""⟩ none (.volatile .empty) with
    | .error _ _ => false
    | .ok scheduler t => match Move.playAll LinkedJob.parse refusedSession ⟨scheduler, t⟩ with
      | .error _ _ => false
      | .ok trace _ => trace.any fun x => match x.reply with
        | .error e => e == .dequeue (Job.id forerunner) (.file .writeRefused)
        | .ok _ => false) = true := by decide +kernel
  simp only [hload, hplay, List.any_eq_true] at hrefused
  obtain ⟨x, hx, hreply⟩ := hrefused
  refine ⟨scheduler, t, trace, live, live', hload, hplay, hplay', hstore, x, hx, ?_⟩
  cases hr : x.reply with
  | ok reply =>
    rw [hr] at hreply
    cases hreply
  | error e =>
    rw [hr] at hreply
    rw [eq_of_beq hreply]

end WorkQueue.Scheduler
