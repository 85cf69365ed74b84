import WorkQueue.Proofs.Scheduler.Seen

/-!
# Schedulers that look the same

Two sited schedulers of which the same is seen are `Twins`. They need not have the same metrics, nor
be kept in the same store: only the entries of the scheduler count. Twins answer every session
alike, and remain twins (`Twins.playAll`).
-/

namespace WorkQueue.Scheduler

open Runs (Preserves mapState)

variable {J : Type}

/-- Two sited schedulers of which the same is seen. -/
structure Twins (live live' : Live (Scheduler J)) : Prop where
  left : Sited live
  right : Sited live'
  seen_eq : seen live = seen live'

namespace Twins

variable {live live' : Live (Scheduler J)} {parse : Parser J}

/-- The stores of twins agree on the keys of the scheduler. -/
theorem get?_eq (h : Twins live live') {key : Bytes} (hkey : owned key = true) :
    live.store.table.get? key = live'.store.table.get? key := by
  have htable : live.store.table.narrow owned = live'.store.table.narrow owned :=
    congrArg (fun l : Live (Scheduler J) => l.store.table) h.seen_eq
  have hget := congrArg (fun t => t.get? key) htable
  simpa only [Table.get?_narrow, if_pos hkey] using hget

theorem load (h : Twins live live') {options : Options}
    {metrics : Option (CacheMetrics × CacheMetrics)} {scheduler : Scheduler J} {t : Store}
    (hload : load parse options metrics live.store = .ok scheduler t) :
    ∃ t', Scheduler.load parse options metrics live'.store = .ok scheduler t' ∧
      Twins ⟨scheduler, t⟩ ⟨scheduler, t'⟩ := by
  have hstore : live.store.narrow owned = live'.store.narrow owned :=
    congrArg Live.store h.seen_eq
  have hrun := inward_load parse options metrics live.store trivial
  rw [hstore, ← inward_load parse options metrics live'.store trivial, hload] at hrun
  cases hload' : Scheduler.load parse options metrics live'.store with
  | error e t' =>
    rw [hload'] at hrun
    cases hrun
  | ok scheduler' t' =>
    rw [hload'] at hrun
    obtain ⟨rfl, ht⟩ := EStateM.Result.ok.inj hrun
    exact ⟨t', rfl, sited_of_load hload, sited_of_load hload',
      congrArg (fun store => (⟨scheduler.unmetered, store⟩ : Live (Scheduler J))) ht⟩

variable [Job J]

/-- Twins give the same reply, and remain twins. -/
theorem attempt (h : Twins live live') (verb : Verb J) :
    ∃ x x' u u', verb.attempt live = .ok x u ∧ verb.attempt live' = .ok x' u' ∧
      x.reply = x'.reply ∧ Twins u u' := by
  have hsited : Preserves Sited verb.run := Verb.preserves (sited_perform verb.1)
  have hu := hsited live h.left
  have hu' := hsited live' h.right
  have hrun : mapState seen (verb.run live) = mapState seen (verb.run live') := by
    rw [commutes_verb verb live h.left, commutes_verb verb live' h.right, h.seen_eq]
  rw [Verb.attempt, Verb.attempt]
  cases hl : verb.run live <;> cases hl' : verb.run live' <;> rw [hl] at hu hrun <;>
    rw [hl'] at hu' hrun
  · obtain ⟨rfl, hseen⟩ := EStateM.Result.ok.inj hrun
    exact ⟨_, _, _, _, rfl, rfl, rfl, hu, hu', hseen⟩
  · cases hrun
  · cases hrun
  · obtain ⟨rfl, hseen⟩ := EStateM.Result.error.inj hrun
    exact ⟨_, _, _, _, rfl, rfl, rfl, hu, hu', hseen⟩

theorem play (h : Twins live live') {move : Move J} {trace : List (Exchange J)}
    {u : Live (Scheduler J)} (hplay : move.play parse live = .ok trace u) :
    ∃ trace' u', move.play parse live' = .ok trace' u' ∧
      trace'.map (·.reply) = trace.map (·.reply) ∧ Twins u u' := by
  cases move with
  | ask verb =>
    obtain ⟨x, x', u₁, u', hx, hx', hreply, hu⟩ := h.attempt verb
    rw [Move.play, Runs.bind_of_ok hx] at hplay
    cases hplay
    rw [Move.play, Runs.bind_of_ok hx']
    exact ⟨_, _, rfl, by simp only [List.map_cons, List.map_nil, hreply], hu⟩
  | grant left =>
    cases hplay
    have hseen := congrArg (fun l : Live (Scheduler J) => l.withWrites left) h.seen_eq
    exact ⟨_, _, rfl, rfl, h.left.of_store _, h.right.of_store _, hseen⟩
  | disableCaching =>
    cases hplay
    have hseen := congrArg (fun l => Runs.final (Scheduler.disableCaching l)) h.seen_eq
    exact ⟨_, _, rfl, rfl, sited_disableCaching live h.left, sited_disableCaching live' h.right,
      hseen⟩
  | reopen options metrics =>
    cases hload : Scheduler.load parse options metrics live.store with
    | error e t =>
      have hrestart : restart parse options metrics live = .error e ⟨live.memory, t⟩ := by
        rw [restart, LiveM.renew, Runs.bind_of_error hload]
      rw [Move.play, Runs.bind_of_error hrestart] at hplay
      cases hplay
    | ok scheduler t =>
      obtain ⟨t', hload', htwins⟩ := h.load hload
      rw [Move.play, Runs.bind_of_ok (restart_run hload)] at hplay
      cases hplay
      refine ⟨[], _, ?_, rfl, htwins⟩
      rw [Move.play, Runs.bind_of_ok (restart_run hload')]
      rfl

/-- Twins answer a session alike, and remain twins. -/
theorem playAll (h : Twins live live') {moves : List (Move J)} {trace : List (Exchange J)}
    {u : Live (Scheduler J)} (hplay : Move.playAll parse moves live = .ok trace u) :
    ∃ trace' u', Move.playAll parse moves live' = .ok trace' u' ∧
      trace'.map (·.reply) = trace.map (·.reply) ∧ Twins u u' := by
  induction moves generalizing live live' trace with
  | nil =>
    cases hplay
    exact ⟨[], live', rfl, rfl, h⟩
  | cons move rest ih =>
    obtain ⟨first, mid, hfirst, hothers⟩ := Runs.bind_eq_ok.mp hplay
    obtain ⟨others, last, hothers, hlast⟩ := Runs.bind_eq_ok.mp hothers
    cases hlast
    obtain ⟨first', mid', hfirst', hreplies, hmid⟩ := h.play hfirst
    obtain ⟨others', u', hothers', hreplies', hu⟩ := ih hmid hothers
    refine ⟨first' ++ others', u', ?_, ?_, hu⟩
    · rw [Move.playAll, Runs.bind_of_ok hfirst', Runs.bind_of_ok hothers']
      rfl
    · rw [List.map_append, List.map_append, hreplies, hreplies']

end Twins

end WorkQueue.Scheduler
