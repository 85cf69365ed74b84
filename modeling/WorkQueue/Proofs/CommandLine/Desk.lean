import WorkQueue.Proofs.CommandLine.Turns
import WorkQueue.Proofs.Scheduler.Backlog

/-!
# Verbs at a desk

What the parts of a run do at a desk whose worker serves a `Backlog`: the lines that they print are
those of the turn, and the ids of the backlog change as the turn has it. A worker answers with what
the scheduler gives (`RunM.ask_of_ok`), so each verb is read off the backlog.

* `Verb.pushFile_run`, `Verb.pushFile_unreadable`: one file of a push;
* `Verb.drain_run`: a drain tells the first ids, in order;
* `Verb.tellStats_run`, `Verb.tellMetrics_run`, `Verb.compactLog_run`, `Verb.compactLog_refused`:
  what leaves the ids alone.

A push and a compaction also say which condition the log is in afterwards, whose records may be too
long then.
-/

namespace WorkQueue

open Scheduler (Backlog)

/-- A desk with some lines printed and a worker that serves. -/
def deskOf (lines : List String) (live : Live (Scheduler RawJob)) : Desk :=
  (lines, ⟨.serving live.memory, live.store⟩)

/-- How a verb ends with the outcome given, after the lines printed before. -/
def endsWith (lines : List String) (o : Outcome) (live : Live (Scheduler RawJob)) :
    EStateM.Result Failure Desk Unit :=
  match o.failure with
  | none => .ok () (deskOf (lines ++ o.output) live)
  | some failure => .error failure (deskOf (lines ++ o.output) live)

namespace RunM

theorem say_run (line : String) (lines : List String) (live : Live (Scheduler RawJob)) :
    say line (deskOf lines live) = .ok () (deskOf (lines ++ [line]) live) := rfl

theorem ask_of_ok {α : Type} {command : Command (List String) RawJob}
    {x : LiveM (Scheduler RawJob) α} {f : α → Reply RawJob}
    (hcommand : command.perform = DrainM.onQueue do return f (← x)) {lines : List String}
    {live live' : Live (Scheduler RawJob)} {a : α} (hx : x live = .ok a live') :
    ask command (deskOf lines live) = .ok (f a) (deskOf lines live') := by
  have hrun : (do return f (← x) : LiveM (Scheduler RawJob) (Reply RawJob)) live =
      .ok (f a) live' := by
    rw [Runs.bind_of_ok hx]
    rfl
  simp only [ask, Worker.serve, deskOf, hcommand, DrainM.onQueue_apply, hrun]

theorem sayAll_run (texts : List String) (lines : List String)
    (live : Live (Scheduler RawJob)) :
    texts.forM say (deskOf lines live) = .ok ⟨⟩ (deskOf (lines ++ texts) live) := by
  induction texts generalizing lines with
  | nil =>
    rw [List.append_nil]
    rfl
  | cons text rest ih =>
    rw [Runs.forM_cons_apply, say_run]
    simp only [ih, List.append_assoc, List.singleton_append]

end RunM

namespace Verb

open RunM

variable {c c' : Log.Condition} {path : String} {location : Location} {others : FileTree}
  {ids : List JobId} {n : Nat} {live : Live (Scheduler RawJob)} {lines : List String}
  {name : String}

/-! ### Pushing -/

theorem ask_hasJob (h : Backlog RawJob.parse c path location others ids n live)
    (lines : List String) (id : JobId) : ask (.hasJob id) (deskOf lines live) =
      .ok (.flag (decide (id ∈ ids))) (deskOf lines live) :=
  ask_of_ok (f := .flag) rfl (h.hasJob id)

theorem pushFile_unreadable {cause : FileError}
    (hread : live.store.files.read name = .error cause) :
    pushFile name (deskOf lines live) = .error (.jobFile name cause) (deskOf lines live) := by
  have hfiles : (deskOf lines live).2.store.files.read name = .error cause := hread
  simp only [pushFile, Runs.bind_apply, Runs.get_apply, hfiles]
  rfl

theorem pushFile_run {bytes : Bytes} (h : Backlog RawJob.parse c path location others ids n live)
    (hread : live.store.files.read name = .ok bytes) (hc : Turn.Pushes c ids bytes c')
    (hroom : n + 1 < UInt64.size) (lines : List String) :
    ∃ live', pushFile name (deskOf lines live) =
        .ok () (deskOf (lines ++ [Turn.told ids (Job.id (RawJob.mk bytes))]) live') ∧
      Backlog RawJob.parse c' path location others (Turn.enqueue ids (Job.id (RawJob.mk bytes)))
        (n + 1) live' := by
  have hfiles : (deskOf lines live).2.store.files.read name = .ok bytes := hread
  have hask := ask_hasJob h lines (Job.id (RawJob.mk bytes))
  by_cases hknown : Job.id (RawJob.mk bytes) ∈ ids
  · rw [decide_eq_true hknown] at hask
    rw [Turn.Pushes, if_pos hknown] at hc
    subst hc
    rw [Turn.told, Turn.enqueue, if_pos hknown, if_pos hknown]
    refine ⟨live, ?_, h.mono (Nat.le_succ n)⟩
    simp only [pushFile, Runs.bind_apply, Runs.get_apply, hfiles, hask]
    rfl
  · rw [decide_eq_false hknown] at hask
    rw [Turn.Pushes, if_neg hknown] at hc
    rw [Turn.told, Turn.enqueue, if_neg hknown, if_neg hknown]
    have hparse : RawJob.parse (Job.bytes (RawJob.mk bytes)) = .ok (RawJob.mk bytes) := rfl
    obtain ⟨mid, live', hput, hadd, hlive'⟩ := h.push hparse hc hknown hroom
    have hput' : ask (.putJob (RawJob.mk bytes)) (deskOf lines live) =
        .ok .done (deskOf lines mid) := ask_of_ok (f := fun _ => .done) rfl hput
    have hadd' : ask (.addRunnable (Job.id (RawJob.mk bytes))) (deskOf lines mid) =
        .ok .done (deskOf lines live') := ask_of_ok (f := fun _ => .done) rfl hadd
    refine ⟨live', ?_, hlive'⟩
    simp only [pushFile, Runs.bind_apply, Runs.get_apply, hfiles, hask, hput', hadd']
    rfl

/-! ### The other verbs -/

theorem askCount_of_ok {command : Command (List String) RawJob} {live' : Live (Scheduler RawJob)}
    {count : Nat} (h : ask command (deskOf lines live) = .ok (.count count) (deskOf lines live')) :
    askCount command (deskOf lines live) = .ok count (deskOf lines live') := by
  rw [askCount, Runs.bind_of_ok h]
  rfl

theorem askIds_of_ok {command : Command (List String) RawJob} {live' : Live (Scheduler RawJob)}
    {found : List JobId}
    (h : ask command (deskOf lines live) = .ok (.ids found) (deskOf lines live')) :
    askIds command (deskOf lines live) = .ok found (deskOf lines live') := by
  rw [askIds, Runs.bind_of_ok h]
  rfl

theorem tellStats_run (h : Backlog RawJob.parse c path location others ids n live)
    (hroom : n < UInt64.size) (lines : List String) :
    tellStats (deskOf lines live) = .ok () (deskOf (lines ++ [s!"pending jobs:  {ids.length}",
      s!"runnable jobs: {ids.length}", "missing IDs:   0"]) live) := by
  have hlength : (UInt64.ofNat ids.length).toNat = ids.length :=
    UInt64.toNat_ofNat_of_lt' (Nat.lt_of_le_of_lt h.length_le hroom)
  have hpending : ∀ lines, askCount .pendingCount (deskOf lines live) =
      .ok ids.length (deskOf lines live) := by
    intro lines
    have hask : ask .pendingCount (deskOf lines live) =
        .ok (.count (UInt64.ofNat ids.length).toNat) (deskOf lines live) :=
      ask_of_ok (f := fun count : UInt64 => .count count.toNat) rfl h.pendingCount
    rw [hlength] at hask
    exact askCount_of_ok hask
  have hrunnable : ∀ lines, askIds .runnableIds (deskOf lines live) =
      .ok ids (deskOf lines live) := fun lines =>
    askIds_of_ok (ask_of_ok (f := .ids) rfl h.runnableIds)
  have hmissing : ∀ lines, askCount .missingCount (deskOf lines live) =
      .ok 0 (deskOf lines live) := fun lines =>
    askCount_of_ok (ask_of_ok (f := .count) rfl h.missingCount)
  simp only [tellStats, Runs.bind_apply, hpending, say_run, hrunnable, hmissing, List.append_assoc,
    List.cons_append, List.nil_append]
  rfl

/-- The caches of a scheduler were not used. -/
def Unused (scheduler : Scheduler RawJob) : Prop :=
  scheduler.jobs.cache.metrics = some Turn.newMetrics.1 ∧
    scheduler.dependents.buckets.metrics = some Turn.newMetrics.2

theorem tellMetrics_run (h : Unused live.memory) :
    tellMetrics Turn.newRegistry (deskOf lines live) =
      .ok ⟨⟩ (deskOf (lines ++ Turn.newRegistry.exposition) live) := by
  have hpublish : live.memory.publish Turn.newRegistry = Turn.newRegistry := by
    rw [Scheduler.publish, h.1, h.2]
    decide +kernel
  have hrun : tellMetrics Turn.newRegistry (deskOf lines live) =
      (live.memory.publish Turn.newRegistry).exposition.forM say (deskOf lines live) := rfl
  rw [hrun, hpublish, sayAll_run]

theorem drain_run (h : Backlog RawJob.parse c path location others ids n live)
    (limit : Option Nat) (lines : List String) :
    ∃ count live', ask (.execute printer limit) (deskOf lines live) = .ok (.count count)
        (deskOf (lines ++ (ids.take (limit.elim ids.length (min · ids.length))).map JobId.toHex)
          live') ∧
      Backlog RawJob.parse c path location others
        (ids.drop (limit.elim ids.length (min · ids.length))) n live' := by
  let record : List String → JobId → List String := fun w id => w ++ [id.toHex]
  have hrecord : ∀ (told : List JobId) (w : List String),
      told.foldl record w = w ++ told.map JobId.toHex := by
    intro told
    induction told with
    | nil => simp
    | cons id rest ih => simp [record, ih]
  have hexecute : ∀ job w, printer.execute job w = .ok () (record w (Job.id job)) := fun _ _ => rfl
  obtain ⟨count, live', hdrain, hlive'⟩ := h.drain hexecute limit lines
  rw [hrecord] at hdrain
  refine ⟨count, live', ?_, hlive'⟩
  simp only [ask, Worker.serve, deskOf, Command.perform, Runs.bind_apply, hdrain]
  rfl

theorem compactLog_run (h : Backlog RawJob.parse c path location others ids n live)
    {scratch : Location} {opened : FileTree}
    (hopen : FileTree.openFile (Store.scratchPath path) live.store.files = .ok scratch opened)
    (hc : Log.Condition.whole.Writes (Store.snapshot live.store.table) c') (lines : List String) :
    ∃ store, compactLog (deskOf lines live) = .ok ()
        (deskOf (lines ++ [s!"compacted {path} (1 records)"]) ⟨live.memory, store⟩) ∧
      store.table = live.store.table ∧ Store.Kept c' store path location := by
  obtain ⟨records, hstored⟩ := h.idle.kept.log
  have hlog : (deskOf lines live).2.store.log = some ⟨path, location, records⟩ := hstored
  obtain ⟨store, hcompact, hkept, htable⟩ := h.idle.kept.compact hopen hc
  have hrecords := (Store.compact_ok hstored hcompact).2
  rw [if_neg h.snapshot_ne_nil] at hrecords
  have hstep : onStore Store.compact (deskOf lines live) =
      .ok () (deskOf lines ⟨live.memory, store⟩) := by
    have hstore : Store.compact (deskOf lines live).2.store = .ok () store := hcompact
    simp only [onStore, hstore]
    rfl
  have hlog' : (deskOf lines ⟨live.memory, store⟩).2.store.log = some ⟨path, location, 1⟩ :=
    hrecords
  have htext : s!"compacted {path} ({1} records)" = s!"compacted {path} (1 records)" := by
    have hone : toString " (" ++ (toString 1 ++ toString " records)") =
        toString " (1 records)" := by
      decide +kernel
    rw [String.append_assoc, String.append_assoc, hone]
  refine ⟨store, ?_, htable, hkept⟩
  simp only [compactLog, Runs.bind_apply, Runs.get_apply, hlog, hstep, hlog', Option.map_some,
    Option.getD_some, htext, say_run]

theorem compactLog_refused (h : Backlog RawJob.parse c path location others ids n live)
    {cause : FileError} {opened : FileTree}
    (hopen : FileTree.openFile (Store.scratchPath path) live.store.files = .error cause opened)
    (lines : List String) :
    compactLog (deskOf lines live) = .error (.error (.file cause)) (deskOf lines live) := by
  obtain ⟨records, hstored⟩ := h.idle.kept.log
  have hlog : (deskOf lines live).2.store.log = some ⟨path, location, records⟩ := hstored
  have hstep : onStore Store.compact (deskOf lines live) =
      .error (.error (.file cause)) (deskOf lines live) := by
    have hstore : Store.compact (deskOf lines live).2.store = .error (.file cause) live.store := by
      rw [Store.compact_eq hlog]
      simp only [deskOf, hopen]
    simp only [onStore, hstore]
    rfl
  simp only [compactLog, Runs.bind_apply, Runs.get_apply, hlog, hstep]

end Verb

end WorkQueue
