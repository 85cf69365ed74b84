import Mathlib.Data.List.Chain
import WorkQueue.Proofs.CommandLine.Desk

/-!
# Runs of the program, one after the other

An `Invocation` is a run of the program with the files that it finds. Runs that use one log, which
is not there at first, tell what the turns of one queue of ids tell (`outcomes_agree`). The queue is
in the log between two runs (`Settled`), and the scheduler that a run sets up has it as its backlog
(`run_opened`). Other files may change between two runs, as long as the path leads to the log
(`Follows`).

This needs two bounds. There are fewer pushes than numbers of 64 bits, and what is written at once
fits into a record (`Turn.Framed`), which nothing checks.

* `turn_run`: one run on a whole log tells what it does as a turn, and leaves the queue as that
  does, in a log of the condition that the turn brings it into;
* `push_run`: files are pushed as the queue has it, and hold what they held when the log was opened
  (`ReadsBeside`), unless the log itself is pushed;
* `outcomes_before`: runs that keep the log whole, and what the next one finds.
-/

namespace WorkQueue

/-! ## Runs -/

/-- A run of the program, with the files around it. -/
structure Invocation where
  files : FileTree
  args : Arguments

namespace Invocation

/-- What the run tells. -/
def outcome (i : Invocation) : Outcome := (run i.args i.files).1

/-- The files that the run leaves. -/
def after (i : Invocation) : FileTree := (run i.args i.files).2

/-- The run that carries out another verb instead. -/
def carrying (i : Invocation) (verb : Verb) : Invocation :=
  { i with args := { i.args with verb } }

/-- What the files hold that are read for a push, each when the ones before it have been pushed. -/
def contents (i : Invocation) :
    (done rest : List String) → List (String × Except FileError Bytes)
  | _, [] => []
  | done, name :: rest =>
    match (i.carrying (.push done)).after.read name with
    | .error cause => [(name, .error cause)]
    | .ok bytes => (name, .ok bytes) :: contents i (done ++ [name]) rest

/-- The store that the verb starts with. -/
def start (path : String) (i : Invocation) : Store :=
  match Store.openLog path i.files with
  | .error _ files => .volatile files
  | .ok store _ => (Runs.final (Scheduler.loadMetered RawJob.parse Config.standard.options
      ⟨.empty, store⟩)).store

/-- The run as a turn. -/
def turn (path : String) (i : Invocation) : Turn :=
  match i.args.verb with
  | .push names => .push (i.contents [] names)
  | .drain limit => .drain limit
  | .stats metrics => .stats metrics
  | .missing => .missing
  | .reset => .reset
  | .compact =>
    match FileTree.openFile (Store.scratchPath path) (i.start path).files with
    | .ok _ _ => .compact path none
    | .error cause _ => .compact path (some cause)

/-- The run uses the standard configuration and the log at a path, and carries out its verb. -/
structure Usual (path : String) (i : Invocation) : Prop where
  config : i.args.config = none
  db : i.args.db = some path
  dryRun : i.args.dryRun = false
  unconfigured : i.files.has Config.standardPath = false

/-- The log can be made, and is not there before the run. -/
def Begins (path : String) (location : Location) (i : Invocation) : Prop :=
  ∃ store files log, Store.openLog path i.files = .ok store files ∧ store.log = some log ∧
    log.location = location ∧ i.files.bytes? location = none

/-- Files that are pushed are read as they are once the log is open, if none of them is the log. -/
def ReadsBeside (path : String) (location : Location) (i : Invocation) : Prop :=
  ∀ names, i.args.verb = .push names →
    (∀ name ∈ names, ¬ (i.start path).files.LeadsTo name location) →
    i.turn path = .push ((i.start path).files.readings names)

/-- A run finds the log as another has left it. Other files may have changed. -/
structure Follows (path : String) (location : Location) (i j : Invocation) : Prop where
  reaches : FileTree.Reaches i.after path location → FileTree.Reaches j.files path location
  bytes : j.files.bytes? location = i.after.bytes? location

/-- The run that comes next, with another verb and no other file changed. -/
def next (i : Invocation) (verb : Verb) : Invocation := ⟨i.after, { i.args with verb }⟩

theorem follows_next (path : String) (location : Location) (i : Invocation) (verb : Verb) :
    Follows path location i (i.next verb) := ⟨id, rfl⟩

end Invocation

/-! ## Stores between runs -/

open Log (Condition)
open Scheduler (Backlog Idle Filed)

/-- The log at a path keeps a store whose jobs are all in the queue, in the order of the given ids,
and no more than `n` were ever put there. A store that was just made has no entries. The log is in
the condition that is given. -/
structure Settled (c : Condition) (path : String) (location : Location) (ids : List JobId) (n : Nat)
    (store : Store) : Prop where
  idle : Idle c path location store.files store
  books : ∃ b : Books RawJob, b.InLine ids n ∧
    (Filed [] RawJob.parse b store.table ∨ store.table = .empty ∧ b = .empty)

namespace Settled

variable {c c' : Condition} {path : String} {location : Location} {ids : List JobId} {n : Nat}
  {store : Store}

theorem of_backlog {others : FileTree} {live : Live (Scheduler RawJob)}
    (h : Backlog RawJob.parse c path location others ids n live) :
    Settled c path location ids n live.store := by
  obtain ⟨b, hlined, hin⟩ := h
  exact ⟨hlined.idle.here, b, hin, .inl hlined.filed⟩

/-- Only the table counts and that the log keeps it. -/
theorem of_table (h : Settled c path location ids n store) {store' : Store}
    (ht : store'.table = store.table) (hkept : Store.Kept c' store' path location) :
    Settled c' path location ids n store' := by
  obtain ⟨hidle, b, hin, hfiled⟩ := h
  refine ⟨⟨hkept, fun _ _ => rfl, ?_⟩, b, hin, ?_⟩
  · rw [ht]
    exact hidle.idle
  · rw [ht]
    exact hfiled

/-- A log that was just made. -/
theorem of_new (hlogged : Store.Logged store path location []) :
    Settled .whole path location [] 0 store := by
  have hempty : store.table = .empty := hlogged.table
  refine ⟨⟨.of_logged hlogged, fun _ _ => rfl, fun part _ key => ?_⟩, .empty, .empty 0,
    .inr ⟨hempty, rfl⟩⟩
  rw [hempty]
  rfl

/-- A whole log, opened among other files. -/
theorem openLog (h : Settled .whole path location ids n store) {files : FileTree}
    (hreaches : FileTree.Reaches files path location)
    (hbytes : files.bytes? location = store.files.bytes? location) :
    Store.openLog path files = .ok { store with files } files ∧
      Settled .whole path location ids n { store with files } := by
  have hkept := h.idle.kept.of_files hreaches hbytes
  exact ⟨hkept.openLog, h.of_table rfl hkept⟩

end Settled

/-! ## Verbs as turns -/

namespace Invocation

variable {c c' : Condition} {path : String} {location : Location} {others : FileTree}
  {ids : List JobId} {n : Nat} {i : Invocation} {live : Live (Scheduler RawJob)}

/-- A push that goes as far as the given files leaves the files that the store has then. -/
def Leaves (i : Invocation) (live : Live (Scheduler RawJob)) : Prop :=
  ∀ done lines live', done.forM Verb.pushFile (deskOf [] live) = .ok ⟨⟩ (deskOf lines live') →
    (i.carrying (.push done)).after = live'.store.files

/-- One more file is pushed. -/
theorem push_snoc {done lines lines' : List String} {name : String}
    {mid next : Live (Scheduler RawJob)}
    (hdone : done.forM Verb.pushFile (deskOf [] live) = .ok ⟨⟩ (deskOf lines mid))
    (hpush : Verb.pushFile name (deskOf lines mid) = .ok () (deskOf lines' next)) :
    (done ++ [name]).forM Verb.pushFile (deskOf [] live) = .ok ⟨⟩ (deskOf lines' next) := by
  rw [Runs.forM_append_apply, hdone]
  simp only [Runs.forM_cons_apply, hpush]
  rfl

/-- What is read for a push once some files have been pushed. -/
theorem contents_cons (hleaves : i.Leaves live) {done lines : List String}
    {mid : Live (Scheduler RawJob)}
    (hdone : done.forM Verb.pushFile (deskOf [] live) = .ok ⟨⟩ (deskOf lines mid))
    (name : String) (rest : List String) : i.contents done (name :: rest) =
      match mid.store.files.read name with
      | .error cause => [(name, .error cause)]
      | .ok bytes => (name, .ok bytes) :: i.contents (done ++ [name]) rest := by
  rw [contents, hleaves done lines mid hdone]

/-- Files are pushed as the queue has it, with what those beside the log held before. The first that
cannot be read ends this. -/
theorem push_run (hleaves : i.Leaves live)
    (hlog : ∃ bytes, others.node? location = some (.file bytes)) :
    ∀ (rest done : List String) (lines : List String) (c : Condition) (ids : List JobId) (n : Nat)
      (mid : Live (Scheduler RawJob)), Backlog RawJob.parse c path location others ids n mid →
      done.forM Verb.pushFile (deskOf [] live) = .ok ⟨⟩ (deskOf lines mid) →
      Turn.PushesAll c (i.contents done rest) ids c' →
      n + (i.contents done rest).length < UInt64.size →
      ∃ live', rest.forM Verb.pushFile (deskOf lines mid) =
          endsWith lines (Turn.pushAll (i.contents done rest) ids).1 live' ∧
        Backlog RawJob.parse c' path location others (Turn.pushAll (i.contents done rest) ids).2
          (n + (i.contents done rest).length) live' ∧
        ((∀ name ∈ rest, ¬ others.LeadsTo name location) →
          i.contents done rest = others.readings rest)
  | [], done, lines, c, ids, n, mid, h, _, hc, _ => by
    obtain rfl : c' = c := hc
    refine ⟨mid, ?_, h, fun _ => rfl⟩
    simp only [contents, Turn.pushAll, endsWith, List.append_nil]
    rfl
  | name :: rest, done, lines, c, ids, n, mid, h, hdone, hc, hroom => by
    -- `contents` reads a file after a run that pushes the ones before it, so the files that are
    -- done come along with the desk that they lead to.
    rw [contents_cons hleaves hdone] at hc hroom ⊢
    rw [Runs.forM_cons_apply]
    have hread : ¬ others.LeadsTo name location → mid.store.files.read name = others.read name :=
      (h.idle.sameBut hlog).read
    cases hfile : mid.store.files.read name with
    | error cause =>
      rw [hfile] at hc
      obtain rfl : c' = c := hc
      rw [Verb.pushFile_unreadable hfile]
      refine ⟨mid, ?_, h.mono (Nat.le_add_right n 1), fun hbeside => ?_⟩
      · simp only [Turn.pushAll, endsWith, List.append_nil]
      · rw [FileTree.readings, ← hread (hbeside name List.mem_cons_self), hfile]
    | ok bytes =>
      simp only [hfile, List.length_cons] at hc hroom
      obtain ⟨between, hfirst, hrest⟩ := hc
      obtain ⟨next, hpush, hnext⟩ := Verb.pushFile_run h hfile hfirst (by omega) lines
      obtain ⟨live', hrun, hlive', hcontents⟩ :=
        push_run hleaves hlog rest (done ++ [name]) _ between _ (n + 1) next hnext
          (push_snoc hdone hpush) hrest (by omega)
      refine ⟨live', ?_, ?_, fun hbeside => ?_⟩
      · simp only [hpush, hrun, Turn.pushAll, endsWith, List.append_assoc, List.singleton_append]
      · rw [List.length_cons, Nat.add_comm _ 1, ← Nat.add_assoc]
        exact hlive'
      · rw [FileTree.readings, ← hread (hbeside name List.mem_cons_self), hfile,
          hcontents fun other hother => hbeside other (List.mem_cons_of_mem _ hother)]

/-- The verb of a run does what the run does as a turn. -/
theorem carryOut_run (h : Backlog RawJob.parse .whole path location live.store.files ids n live)
    (hunused : Verb.Unused live.memory) (hstart : i.start path = live.store)
    (hleaves : i.Leaves live) (hbrings : (i.turn path).Brings live.store.table ids c')
    (hroom : n + (i.turn path).pushes < UInt64.size) :
    ∃ live', i.args.verb.carryOut Turn.newRegistry (deskOf [] live) =
        endsWith [] ((i.turn path).play ids).1 live' ∧
      Settled c' path location ((i.turn path).play ids).2 (n + (i.turn path).pushes)
        live'.store := by
  unfold turn at hbrings hroom ⊢
  cases hverb : i.args.verb with
  | push names =>
    simp only [hverb] at hbrings hroom
    obtain ⟨live', hrun, hlive', -⟩ :=
      push_run hleaves h.idle.log_file names [] [] .whole ids n live h rfl hbrings hroom
    exact ⟨live', hrun, .of_backlog hlive'⟩
  | drain limit =>
    simp only [hverb] at hbrings
    obtain rfl : c' = .whole := hbrings
    obtain ⟨count, live', hrun, hlive'⟩ := Verb.drain_run h limit []
    refine ⟨live', ?_, .of_backlog hlive'⟩
    simp only [Verb.carryOut, Runs.bind_apply, hrun]
    rfl
  | stats metrics =>
    simp only [hverb] at hbrings
    obtain rfl : c' = .whole := hbrings
    have hstats := Verb.tellStats_run h (by omega) []
    refine ⟨live, ?_, .of_backlog h⟩
    simp only [Verb.carryOut, Runs.bind_apply, hstats]
    cases metrics with
    | false => rfl
    | true => exact Verb.tellMetrics_run hunused
  | missing =>
    simp only [hverb] at hbrings
    obtain rfl : c' = .whole := hbrings
    have hask : Verb.askIds .missingIds (deskOf [] live) = .ok [] (deskOf [] live) :=
      Verb.askIds_of_ok (RunM.ask_of_ok (f := .ids) rfl h.missingIds)
    refine ⟨live, ?_, .of_backlog h⟩
    simp only [Verb.carryOut, Runs.bind_apply, hask]
    rfl
  | reset =>
    simp only [hverb] at hbrings
    obtain ⟨live', hclear, hlive'⟩ := h.clear hbrings
    have hask : RunM.ask .clear (deskOf [] live) = .ok .done (deskOf [] live') :=
      RunM.ask_of_ok (f := fun _ => .done) rfl hclear
    refine ⟨live', ?_, .of_backlog hlive'⟩
    simp only [Verb.carryOut, Runs.bind_apply, hask]
    rfl
  | compact =>
    simp only [hverb, hstart] at hbrings hroom ⊢
    cases hopen : FileTree.openFile (Store.scratchPath path) live.store.files with
    | ok scratch opened =>
      simp only [hopen] at hbrings ⊢
      obtain ⟨store, hrun, htable, hkept⟩ := Verb.compactLog_run h hopen hbrings []
      exact ⟨⟨live.memory, store⟩, hrun, (Settled.of_backlog h).of_table htable hkept⟩
    | error cause opened =>
      simp only [hopen] at hbrings ⊢
      obtain rfl : c' = .whole := hbrings
      exact ⟨live, Verb.compactLog_refused h hopen [], .of_backlog h⟩

/-- The files that a run pushes are read as they are once the log is open. -/
theorem readsBeside_run (h : Backlog RawJob.parse .whole path location live.store.files ids n live)
    (hstart : i.start path = live.store) (hleaves : i.Leaves live)
    (hbrings : (i.turn path).Brings live.store.table ids c')
    (hroom : n + (i.turn path).pushes < UInt64.size) : i.ReadsBeside path location := by
  intro names hverb hbeside
  rw [hstart] at hbeside ⊢
  simp only [turn, hverb] at hbrings hroom ⊢
  obtain ⟨-, -, -, hcontents⟩ :=
    push_run hleaves h.idle.log_file names [] [] .whole ids n live h rfl hbrings hroom
  rw [hcontents hbeside]

/-! ## Runs as turns -/

/-- A run with the standard configuration works on the store that is opened at the path. -/
theorem run_eq (args : Arguments) {files : FileTree} (hconfig : args.config = none)
    (hdb : args.db = some path) (hdry : args.dryRun = false)
    (hfiles : files.has Config.standardPath = false) :
    run args files = match Store.openLog path files with
      | .error e files => (⟨[], some (.store path e)⟩, files)
      | .ok store _ => runOn args.verb .standard store := by
  have hresolve : args.resolveConfig files = .ok .standard := by
    rw [Arguments.resolveConfig, hconfig]
    exact if_neg (by simp [hfiles])
  have hpath : args.storePath .standard = some path := by
    rw [Arguments.storePath, hdb]
    rfl
  simp only [run, hresolve, hdry, Arguments.openStore, hpath, Bool.false_eq_true, if_false]
  cases Store.openLog path files <;> rfl

/-- A run sets a scheduler up, which changes no file but the log, and has its verb carried out. -/
theorem run_opened (h : i.Usual path) {store : Store} {files : FileTree}
    (hopen : Store.openLog path i.files = .ok store files)
    (hsettled : Settled c path location ids n store) :
    ∃ live, Backlog RawJob.parse c path location live.store.files ids n live ∧
      FileTree.SameBut location store.files live.store.files ∧
      Verb.Unused live.memory ∧ i.start path = live.store ∧ i.Leaves live ∧
      ∀ (verb : Verb) (o : Outcome) (live' : Live (Scheduler RawJob)),
        verb.carryOut Turn.newRegistry (deskOf [] live) = endsWith [] o live' →
          run (i.carrying verb).args i.files = (o, live'.store.files) := by
  obtain ⟨hidle, b, hin, hbooks⟩ := hsettled
  obtain ⟨scheduler, t, hload, hlined⟩ :=
    Scheduler.lined_of_load hbooks hidle Config.standard.options (some Turn.newMetrics)
  have hmetered : Scheduler.loadMetered RawJob.parse Config.standard.options ⟨.empty, store⟩ =
      .ok scheduler ⟨Turn.newRegistry, t⟩ := by
    have hregister : Scheduler.registerMetrics Config.standard.options.metricsName .empty =
        .ok Turn.newMetrics Turn.newRegistry := rfl
    simp only [Scheduler.loadMetered, hregister, LiveM.onStore, hload]
  have hrun : ∀ (verb : Verb) (o : Outcome) (live' : Live (Scheduler RawJob)),
      verb.carryOut Turn.newRegistry (deskOf [] ⟨scheduler, t⟩) = endsWith [] o live' →
        run (i.carrying verb).args i.files = (o, live'.store.files) := by
    intro verb o live' hends
    have hdesk : ([], ⟨.serving scheduler, t⟩) = deskOf [] ⟨scheduler, t⟩ := rfl
    rw [run_eq (i.carrying verb).args h.config h.db h.dryRun h.unconfigured, hopen]
    simp only [runOn, hmetered, carrying, hdesk, hends, endsWith]
    obtain ⟨output, failure⟩ := o
    cases failure <;> rfl
  refine ⟨⟨scheduler, t⟩, ⟨b, ⟨hlined.placed, hlined.filed, hlined.idle.here⟩, hin⟩,
    hlined.idle.sameBut hidle.log_file, ?_, ?_, fun done lines live' hdone => ?_, hrun⟩
  · obtain ⟨hjobs, hdependents⟩ := Scheduler.caches_of_load rfl hload
    exact ⟨by rw [hjobs]; rfl, by rw [hdependents]; rfl⟩
  · simp only [start, hopen, hmetered, Runs.final_ok]
  · exact congrArg Prod.snd (hrun (.push done) ⟨lines, none⟩ live' hdone)

/-- A run on a whole log tells what it does as a turn, and leaves the queue as that does. What it
pushes is what the files beside the log hold. -/
theorem turn_run (h : i.Usual path) {store : Store} {files : FileTree}
    (hopen : Store.openLog path i.files = .ok store files)
    (hsettled : Settled .whole path location ids n store)
    (hbrings : (i.turn path).Brings (i.start path).table ids c')
    (hroom : n + (i.turn path).pushes < UInt64.size) :
    i.outcome = ((i.turn path).play ids).1 ∧ i.ReadsBeside path location ∧
      ∃ store', i.after = store'.files ∧
        Settled c' path location ((i.turn path).play ids).2 (n + (i.turn path).pushes) store' := by
  obtain ⟨live, hlive, -, hunused, hstart, hleaves, hrun⟩ := run_opened h hopen hsettled
  rw [hstart] at hbrings
  have hreads := readsBeside_run hlive hstart hleaves hbrings hroom
  obtain ⟨live', hends, hsettled'⟩ := carryOut_run hlive hunused hstart hleaves hbrings hroom
  have hresult : run i.args i.files = (((i.turn path).play ids).1, live'.store.files) :=
    hrun i.args.verb _ _ hends
  exact ⟨congrArg Prod.fst hresult, hreads, live'.store, congrArg Prod.snd hresult, hsettled'⟩

/-- A run that pushes files changes no file but the log. -/
theorem sameBut_after_push (h : i.Usual path) {names : List String}
    (hverb : i.args.verb = .push names) {store : Store} {files : FileTree}
    (hopen : Store.openLog path i.files = .ok store files)
    (hsettled : Settled .whole path location ids n store)
    (hbrings : (i.turn path).Brings (i.start path).table ids c')
    (hroom : n + (i.turn path).pushes < UInt64.size) :
    FileTree.SameBut location store.files i.after := by
  obtain ⟨live, hlive, hsame, -, -, hleaves, hrun⟩ := run_opened h hopen hsettled
  simp only [turn, hverb] at hbrings hroom
  obtain ⟨live', hends, hlive', -⟩ :=
    push_run hleaves hlive.idle.log_file names [] [] .whole ids n live hlive rfl hbrings hroom
  have hresult := hrun (.push names) _ _ hends
  rw [← hverb] at hresult
  have hafter : i.after = live'.store.files := congrArg Prod.snd hresult
  rw [hafter]
  exact hsame.trans (hlive'.idle.sameBut hlive.idle.log_file)

/-- What a run leaves in the log is there for the next one, whatever else has changed. -/
theorem Follows.log {j : Invocation} (h : Follows path location i j) {store : Store}
    (hafter : i.after = store.files) (hkept : Store.Kept c store path location) :
    FileTree.Reaches j.files path location ∧
      j.files.bytes? location = store.files.bytes? location :=
  ⟨h.reaches (hafter ▸ hkept.reaches), hafter ▸ h.bytes⟩

/-- A run finds a whole log, which keeps a queue of the given ids. -/
def Finds (path : String) (location : Location) (ids : List JobId) (n : Nat) (i : Invocation) :
    Prop :=
  ∃ store files, Store.openLog path i.files = .ok store files ∧
    Settled .whole path location ids n store

/-- Runs that keep the log whole tell what turns tell that start with the queue that is found, and
the next run finds what they leave of it. -/
theorem outcomes_before {after : List Invocation} :
    ∀ (before : List Invocation) (ids : List JobId) (n : Nat),
      (∀ i ∈ before, i.Usual path) →
      (∀ i, (before ++ after).head? = some i → i.Finds path location ids n) →
      (before ++ after).IsChain (Follows path location) →
      (∀ i ∈ before, (i.turn path).Framed (i.start path).table) →
      n + Turn.allPushes (before.map (turn path)) < UInt64.size →
      before.map outcome = Turn.playAll (before.map (turn path)) ids ∧
        (∀ i ∈ before, i.ReadsBeside path location) ∧
        ∀ i, after.head? = some i → i.Finds path location (Turn.left (before.map (turn path)) ids)
          (n + Turn.allPushes (before.map (turn path)))
  | [], _, _, _, hfinds, _, _, _ => ⟨rfl, List.forall_mem_nil _, hfinds⟩
  | i :: rest, ids, n, husual, hfinds, hfollows, hframed, hroom => by
    rw [List.map_cons, Turn.allPushes] at hroom
    obtain ⟨store, files, hopen, hsettled⟩ := hfinds i rfl
    obtain ⟨houtcome, hreads, store', hafter, hsettled'⟩ :=
      turn_run (husual i List.mem_cons_self) hopen hsettled
        ((hframed i List.mem_cons_self).brings ids) (by omega)
    have hfinds' : ∀ j, (rest ++ after).head? = some j → j.Finds path location
        ((i.turn path).play ids).2 (n + (i.turn path).pushes) := by
      intro j hj
      obtain ⟨hreaches, hbytes⟩ := (hfollows.rel_head? hj).log hafter hsettled'.idle.kept
      exact ⟨_, _, hsettled'.openLog hreaches hbytes⟩
    obtain ⟨hrest, hreadsRest, hnext⟩ := outcomes_before rest _ _
      (fun j hj => husual j (List.mem_cons_of_mem _ hj)) hfinds' hfollows.tail
      (fun j hj => hframed j (List.mem_cons_of_mem _ hj)) (by omega)
    rw [List.map_cons, List.map_cons, Turn.playAll, Turn.left, Turn.allPushes, houtcome, hrest,
      ← Nat.add_assoc]
    exact ⟨rfl, List.forall_mem_cons.mpr ⟨hreads, hreadsRest⟩, hnext⟩

/-- The log of a run that begins is new. -/
theorem Begins.finds (h : i.Begins path location) : i.Finds path location [] 0 := by
  obtain ⟨store, files, log, hopen, hlog, rfl, hnew⟩ := h
  obtain ⟨location', hlogged⟩ := Store.logged_of_openLog hopen fun log' hlog' => by
    rw [hlog] at hlog'
    cases hlog'
    exact hnew
  have hlocation : location' = log.location := by
    have hsame := hlogged.log.symm.trans hlog
    cases hsame
    rfl
  exact ⟨store, files, hopen, hlocation ▸ .of_new hlogged⟩

/-- Runs on a log that is new at first tell what the turns of a queue tell. What they push is what
the files beside the log hold. -/
theorem outcomes_agree {invocations : List Invocation}
    (husual : ∀ i ∈ invocations, i.Usual path)
    (hbegins : ∀ i, invocations.head? = some i → i.Begins path location)
    (hfollows : invocations.IsChain (Follows path location))
    (hframed : ∀ i ∈ invocations, (i.turn path).Framed (i.start path).table)
    (hroom : Turn.allPushes (invocations.map (turn path)) < UInt64.size) :
    invocations.map outcome = Turn.playAll (invocations.map (turn path)) [] ∧
      ∀ i ∈ invocations, i.ReadsBeside path location := by
  rw [← List.append_nil invocations] at hbegins hfollows
  obtain ⟨hagree, hreads, -⟩ := outcomes_before invocations [] 0 husual
    (fun i hi => (hbegins i hi).finds) hfollows hframed (by omega)
  exact ⟨hagree, hreads⟩

/-- A run that pushes two files, the first of them twice, on a log that is not there. -/
def pushing : Invocation where
  files := ⟨[(["a"], .file [1]), (["b"], .file [2])]⟩
  args := ⟨none, some "q.db", none, false, .push ["a", "b", "a"]⟩

/-- The first of two jobs is executed by the next run. -/
theorem outcomes_agree_drain_one :
    [pushing, pushing.next (.drain (some 1))].map outcome =
      [⟨[(Job.id (RawJob.mk [1])).toHex, (Job.id (RawJob.mk [2])).toHex,
          s!"{(Job.id (RawJob.mk [1])).toHex} already queued"], none⟩,
        ⟨[(Job.id (RawJob.mk [1])).toHex], none⟩] := by
  have hcontents : pushing.contents [] ["a", "b", "a"] =
      [("a", .ok [1]), ("b", .ok [2]), ("a", .ok [1])] := by decide +kernel
  have hpush : pushing.turn "q.db" = .push [("a", .ok [1]), ("b", .ok [2]), ("a", .ok [1])] :=
    congrArg Turn.push hcontents
  have husual : ∀ i ∈ [pushing, pushing.next (.drain (some 1))], i.Usual "q.db" :=
    List.forall_mem_cons.mpr ⟨⟨rfl, rfl, rfl, by decide +kernel⟩,
      List.forall_mem_singleton.mpr ⟨rfl, rfl, rfl, by decide +kernel⟩⟩
  have hbegins : pushing.Begins "q.db" ["q.db"] :=
    ⟨_, _, _, by with_unfolding_all rfl, rfl, rfl, rfl⟩
  have hframed : ∀ i ∈ [pushing, pushing.next (.drain (some 1))],
      (i.turn "q.db").Framed (i.start "q.db").table := by
    refine List.forall_mem_cons.mpr ⟨?_, List.forall_mem_singleton.mpr trivial⟩
    rw [hpush]
    intro path bytes hmem
    simp only [List.mem_cons, Prod.mk.injEq, Except.ok.injEq, List.not_mem_nil, or_false] at hmem
    rw [Log.Framed, Scheduler.length_payload_filing]
    obtain ⟨-, rfl⟩ | ⟨-, rfl⟩ | ⟨-, rfl⟩ := hmem <;> decide
  have hturns : [pushing, pushing.next (.drain (some 1))].map (turn "q.db") =
      [.push [("a", .ok [1]), ("b", .ok [2]), ("a", .ok [1])], .drain (some 1)] :=
    congrArg (fun turn : Turn => [turn, .drain (some 1)]) hpush
  obtain ⟨hagree, -⟩ := outcomes_agree husual (fun i hi => Option.some.inj hi ▸ hbegins)
    (.cons_cons (follows_next _ _ _ _) (.singleton _)) hframed (by rw [hturns]; decide)
  have hother : Job.id (RawJob.mk [2]) ≠ Job.id (RawJob.mk [1]) := by decide +kernel
  rw [hagree, hturns]
  simp [Turn.playAll, Turn.play, Turn.pushAll, Turn.told, Turn.enqueue, hother]

end Invocation

end WorkQueue
