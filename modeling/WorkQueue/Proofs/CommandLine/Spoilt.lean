import WorkQueue.Proofs.CommandLine.Invocations

/-!
# Runs after a record that is too long

A run does not see that it writes a record that is too long: it tells what it does as a turn. The
runs after it find the log to be corrupt, whatever they are to do, and leave it as it is
(`outcomes_spoilt`). So the bound of `outcomes_agree` on what is written at once cannot be left out:
a file of 4294967163 bytes is pushed, and the queue that it is in cannot be asked for
(`outcomes_disagree_longFile`).

* `outcomes_corrupt`: runs on a log that is corrupt.
-/

namespace WorkQueue

namespace Invocation

variable {path : String} {location : Location}

/-- Runs on a corrupt log tell that it is, and nothing else. -/
theorem outcomes_corrupt {damage : Damage} {bytes : Option Bytes}
    (hcorrupt : ∀ files, FileTree.Reaches files path location → files.bytes? location = bytes →
      Store.openLog path files = .error (.corrupt damage) files) :
    ∀ invocations : List Invocation, (∀ i ∈ invocations, i.Usual path) →
      (∀ i, invocations.head? = some i →
        FileTree.Reaches i.files path location ∧ i.files.bytes? location = bytes) →
      invocations.IsChain (Follows path location) →
      ∀ i ∈ invocations, i.outcome = ⟨[], some (.store path (.corrupt damage))⟩
  | [], _, _, _ => List.forall_mem_nil _
  | i :: rest, husual, hfinds, hfollows => by
    obtain ⟨hreaches, hbytes⟩ := hfinds i rfl
    have h := husual i List.mem_cons_self
    have hrun : run i.args i.files = (⟨[], some (.store path (.corrupt damage))⟩, i.files) := by
      rw [run_eq i.args h.config h.db h.dryRun h.unconfigured, hcorrupt i.files hreaches hbytes]
    have hafter : i.after = i.files := congrArg Prod.snd hrun
    -- The files are as they were, so the next run finds the same log.
    have hfinds' : ∀ j, rest.head? = some j →
        FileTree.Reaches j.files path location ∧ j.files.bytes? location = bytes := by
      intro j hj
      have hnext := hfollows.rel_head? hj
      exact ⟨hnext.reaches (hafter ▸ hreaches), hnext.bytes.trans (hafter ▸ hbytes)⟩
    exact List.forall_mem_cons.mpr ⟨congrArg Prod.fst hrun, outcomes_corrupt hcorrupt rest
      (fun j hj => husual j (List.mem_cons_of_mem _ hj)) hfinds' hfollows.tail⟩

/-- Up to the run that spoils the log, runs tell what the turns of a queue tell. The log is corrupt
for all runs after it, in one place. -/
theorem outcomes_spoilt {before after : List Invocation} {i : Invocation}
    (husual : ∀ j ∈ before ++ i :: after, j.Usual path)
    (hbegins : ∀ j, (before ++ i :: after).head? = some j → j.Begins path location)
    (hfollows : (before ++ i :: after).IsChain (Follows path location))
    (hframed : ∀ j ∈ before, (j.turn path).Framed (j.start path).table)
    (hspoils : (i.turn path).Brings (i.start path).table (Turn.left (before.map (turn path)) [])
      .spoilt)
    (hroom : Turn.allPushes ((before ++ [i]).map (turn path)) < UInt64.size) :
    (before ++ [i]).map outcome = Turn.playAll ((before ++ [i]).map (turn path)) [] ∧
      ∃ damage, ∀ j ∈ after, j.outcome = ⟨[], some (.store path (.corrupt damage))⟩ := by
  have hpushes : Turn.allPushes ((before ++ [i]).map (turn path)) =
      Turn.allPushes (before.map (turn path)) + (i.turn path).pushes := by
    rw [List.map_append, Turn.allPushes_append]
    rfl
  rw [hpushes] at hroom
  obtain ⟨hagree, -, hfinds⟩ := outcomes_before before [] 0
    (fun j hj => husual j (List.mem_append_left _ hj)) (fun j hj => (hbegins j hj).finds) hfollows
    hframed (by omega)
  obtain ⟨store, files, hopen, hsettled⟩ := hfinds i rfl
  obtain ⟨houtcome, -, store', hafter, hsettled'⟩ :=
    turn_run (husual i (List.mem_append_right _ List.mem_cons_self)) hopen hsettled hspoils
      (by omega)
  refine ⟨?_, ?_⟩
  · rw [List.map_append, List.map_append, Turn.playAll_append, hagree]
    simp only [List.map_cons, List.map_nil, Turn.playAll, houtcome]
  · obtain ⟨damage, hcorrupt⟩ := hsettled'.idle.kept.corrupt
    have hnext : (i :: after).IsChain (Follows path location) := hfollows.right_of_append
    refine ⟨damage, outcomes_corrupt hcorrupt after (fun j hj => husual j
      (List.mem_append_right _ (List.mem_cons_of_mem _ hj))) (fun j hj => ?_) hnext.tail⟩
    exact (hnext.rel_head? hj).log hafter hsettled'.idle.kept

/-! ## A file that is too long -/

/-- A run that pushes one file on a log that is not there. -/
def pushingOne (bytes : Bytes) : Invocation where
  files := ⟨[(["job"], .file bytes)]⟩
  args := ⟨none, some "queue.db", none, false, .push ["job"]⟩

variable {bytes : Bytes}

/-- The store that the run opens. -/
def openedOne (bytes : Bytes) : Store :=
  ⟨.empty, ⟨[(["queue.db"], .file []), (["job"], .file bytes)]⟩, some ⟨"queue.db", ["queue.db"], 0⟩,
    none⟩

theorem openLog_pushingOne (bytes : Bytes) :
    Store.openLog "queue.db" (pushingOne bytes).files =
      .ok (openedOne bytes) (openedOne bytes).files := by
  with_unfolding_all rfl

theorem usual_pushingOne (bytes : Bytes) : (pushingOne bytes).Usual "queue.db" :=
  ⟨rfl, rfl, rfl, by with_unfolding_all rfl⟩

theorem begins_pushingOne (bytes : Bytes) : (pushingOne bytes).Begins "queue.db" ["queue.db"] :=
  ⟨_, _, _, openLog_pushingOne bytes, rfl, rfl, rfl⟩

theorem settled_openedOne (bytes : Bytes) :
    Settled .whole "queue.db" ["queue.db"] [] 0 (openedOne bytes) := by
  obtain ⟨store, files, hopen, hsettled⟩ := (begins_pushingOne bytes).finds
  rw [openLog_pushingOne] at hopen
  cases hopen
  exact hsettled

/-- The file that is pushed is not the log. -/
theorem turn_pushingOne (bytes : Bytes) :
    (pushingOne bytes).turn "queue.db" = .push [("job", .ok bytes)] := by
  obtain ⟨live, -, hsame, -, -, hleaves, -⟩ :=
    run_opened (usual_pushingOne bytes) (openLog_pushingOne bytes) (settled_openedOne bytes)
  have hbeside : ¬ (openedOne bytes).files.LeadsTo "job" ["queue.db"] := by
    rintro ⟨node, hfind⟩
    have hjob : (openedOne bytes).files.find "job" = .ok (["job"], .file bytes) := by
      with_unfolding_all rfl
    have hlocation : ["job"] = ["queue.db"] :=
      congrArg Prod.fst (Except.ok.inj (hjob.symm.trans hfind))
    exact absurd hlocation (by decide)
  have hread : live.store.files.read "job" = .ok bytes := by
    rw [hsame.read hbeside]
    with_unfolding_all rfl
  have hnone : ([] : List String).forM Verb.pushFile (deskOf [] live) =
      .ok ⟨⟩ (deskOf [] live) := rfl
  have hcontents : (pushingOne bytes).contents [] ["job"] = [("job", .ok bytes)] := by
    rw [contents_cons hleaves hnone, hread]
    rfl
  exact congrArg Turn.push hcontents

theorem pushes_pushingOne (bytes : Bytes) : ((pushingOne bytes).turn "queue.db").pushes = 1 := by
  rw [turn_pushingOne]
  rfl

/-- A payload that is as long as a multiple of `lengthLimit` is announced to be empty. -/
theorem overlong_filing (h : Log.lengthLimit ∣ bytes.length + 133) :
    Log.Overlong (Scheduler.filing (RawJob.mk bytes)) := by
  have hlength := Scheduler.length_payload_filing (RawJob.mk bytes)
  have hframed : ¬ Log.Framed (Scheduler.filing (RawJob.mk bytes)) := by
    rw [Log.Framed, hlength]
    exact Nat.not_lt.mpr (Nat.le_of_dvd (Nat.succ_pos _) h)
  refine ⟨hframed, Log.not_sound_of_put rfl hframed ?_⟩
  rw [hlength]
  exact Nat.mod_eq_zero_of_dvd h

/-- A file of such a length spoils the log. -/
theorem brings_pushingOne (h : Log.lengthLimit ∣ bytes.length + 133) :
    ((pushingOne bytes).turn "queue.db").Brings ((pushingOne bytes).start "queue.db").table []
      .spoilt := by
  rw [turn_pushingOne]
  refine ⟨.spoilt, ?_, rfl⟩
  rw [Turn.Pushes, if_neg List.not_mem_nil]
  exact .overlong (overlong_filing h)

/-- A run that pushes one file, and a run that asks for the queue. -/
def pushThenStats (bytes : Bytes) : List Invocation :=
  [pushingOne bytes, (pushingOne bytes).next (.stats false)]

theorem turns_pushThenStats (bytes : Bytes) :
    (pushThenStats bytes).map (turn "queue.db") = [.push [("job", .ok bytes)], .stats false] :=
  congrArg (fun turn : Turn => [turn, .stats false]) (turn_pushingOne bytes)

theorem usual_pushThenStats (h : Log.lengthLimit ∣ bytes.length + 133) :
    ∀ i ∈ pushThenStats bytes, i.Usual "queue.db" := by
  have hroom : 0 + ((pushingOne bytes).turn "queue.db").pushes < UInt64.size := by
    rw [pushes_pushingOne]
    decide
  have hsame := sameBut_after_push (usual_pushingOne bytes) rfl (openLog_pushingOne bytes)
    (settled_openedOne bytes) (brings_pushingOne h) hroom
  have hbeside : ¬ (openedOne bytes).files.LeadsTo Config.standardPath ["queue.db"] := by
    rintro ⟨node, hfind⟩
    have hnone : (openedOne bytes).files.find Config.standardPath = .error .noSuchFile := by
      with_unfolding_all rfl
    cases hnone.symm.trans hfind
  have hunconfigured : (pushingOne bytes).after.has Config.standardPath = false := by
    rw [FileTree.has, hsame.find hbeside]
    with_unfolding_all rfl
  exact List.forall_mem_cons.mpr ⟨usual_pushingOne bytes,
    List.forall_mem_singleton.mpr ⟨rfl, rfl, rfl, hunconfigured⟩⟩

/-- A file of 4294967163 bytes is pushed, and the run that comes next tells that the log is
corrupt, where a queue would tell that there is one job. -/
theorem outcomes_disagree_longFile :
    (∀ i ∈ pushThenStats (List.replicate 4294967163 0), i.Usual "queue.db") ∧
    (pushingOne (List.replicate 4294967163 0)).Begins "queue.db" ["queue.db"] ∧
    (pushThenStats (List.replicate 4294967163 0)).IsChain (Follows "queue.db" ["queue.db"]) ∧
    (∃ damage, (pushThenStats (List.replicate 4294967163 0)).map outcome =
      [⟨[(Job.id (RawJob.mk (List.replicate 4294967163 0))).toHex], none⟩,
        ⟨[], some (.store "queue.db" (.corrupt damage))⟩]) ∧
    Turn.playAll ((pushThenStats (List.replicate 4294967163 0)).map (turn "queue.db")) [] =
      [⟨[(Job.id (RawJob.mk (List.replicate 4294967163 0))).toHex], none⟩,
        ⟨["pending jobs:  1", "runnable jobs: 1", "missing IDs:   0"], none⟩] := by
  have hlength : Log.lengthLimit ∣ (List.replicate 4294967163 (0 : UInt8)).length + 133 := by
    rw [List.length_replicate]
    decide
  -- Only the length of the file matters from here on.
  generalize List.replicate 4294967163 (0 : UInt8) = bytes at hlength ⊢
  have husual := usual_pushThenStats hlength
  have hfollows : (pushThenStats bytes).IsChain (Follows "queue.db" ["queue.db"]) :=
    .cons_cons (follows_next _ _ _ _) (.singleton _)
  have hbegins : ∀ i, (pushThenStats bytes).head? = some i → i.Begins "queue.db" ["queue.db"] :=
    fun i hi => Option.some.inj hi ▸ begins_pushingOne bytes
  have hroom : Turn.allPushes ([pushingOne bytes].map (turn "queue.db")) < UInt64.size := by
    rw [List.map_singleton, Turn.allPushes, Turn.allPushes, pushes_pushingOne]
    decide
  obtain ⟨hfirst, damage, hrest⟩ := @outcomes_spoilt "queue.db" ["queue.db"] []
    [(pushingOne bytes).next (.stats false)] (pushingOne bytes) husual hbegins hfollows
    (List.forall_mem_nil _) (brings_pushingOne hlength) hroom
  have htold : (pushingOne bytes).outcome = ⟨[(Job.id (RawJob.mk bytes)).toHex], none⟩ := by
    rw [List.nil_append, List.map_singleton, List.map_singleton, turn_pushingOne] at hfirst
    exact (List.cons.inj hfirst).1
  refine ⟨husual, begins_pushingOne bytes, hfollows, ⟨damage, ?_⟩, ?_⟩
  · rw [pushThenStats, List.map_cons, List.map_singleton, htold,
      hrest _ (List.mem_singleton_self _)]
  · rw [turns_pushThenStats]
    simp only [Turn.playAll, Turn.play, Turn.pushAll, Turn.told, Turn.enqueue, List.not_mem_nil,
      if_false, List.nil_append, List.length_singleton, List.append_nil, Bool.false_eq_true]
    have hone : toString 1 = "1" := by decide
    rw [hone]
    rfl

end Invocation

end WorkQueue
