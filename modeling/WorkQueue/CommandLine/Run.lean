import WorkQueue.CommandLine.Arguments
import WorkQueue.Config.Reading
import WorkQueue.Scheduler.Worker

/-!
# Running the program

`run` is a run of the program on the files around it: it gives the lines that the run prints, the
failure that ended it early if there is one, and the files afterwards. What was printed and written
before a failure stays.

A run settles the configuration, opens the store, sets up the scheduler, hands it to a worker and
has the worker do what the verb asks for (`Verb.carryOut`). With `dryRun` it only tells what it
would run with.
-/

namespace WorkQueue

/-- Why a run ended early. -/
inductive Failure where
  | error (cause : Error)
  /-- The configuration could not be loaded. -/
  | config (path : String) (cause : Error)
  /-- The log of the store could not be opened. -/
  | store (path : String) (cause : Error)
  /-- A file that was to be pushed could not be read. -/
  | jobFile (path : String) (cause : FileError)
  /-- There is no log to compact. -/
  | noLog
deriving DecidableEq, Repr

namespace Failure

/-- What failed, if there is more to say of it than the error behind it does. -/
def context : Failure → List String
  | .config path _ => [s!"failed to load config {path}"]
  | .store path _ => [s!"failed to open store {path}"]
  | .jobFile path _ => [s!"failed to read job file {path}"]
  | .error _ | .noLog => []

/-- The failure in words, followed by the words for each cause behind it. -/
def chain (f : Failure) : List String :=
  f.context ++
    match f with
    | .error cause | .config _ cause | .store _ cause => cause.chain
    | .jobFile _ cause => [cause.message]
    | .noLog => ["compact needs a store file (set [store].path or --db)"]

end Failure

/-- What a run prints, and why it ended early if it did. -/
structure Outcome where
  output : List String
  failure : Option Failure
deriving DecidableEq, Repr

/-- The exit code of a run. -/
def Outcome.exitCode (o : Outcome) : Nat := if o.failure.isSome then 1 else 0

/-- What a run works on once the store is open: the lines printed so far, and a worker. -/
abbrev Desk := List String × Live (Worker RawJob)

/-- A part of a run. -/
abbrev RunM := EStateM Failure Desk

namespace RunM

/-- Prints a line. -/
def say (line : String) : RunM Unit := fun s => .ok () (s.1 ++ [line], s.2)

/-- Has the worker carry out a command. -/
def ask (command : Command (List String) RawJob) : RunM (Reply RawJob) := fun s =>
  match Worker.serve command s with
  | .ok reply s => .ok reply s
  | .error e s => .error (.error e) s

/-- An action on the store. -/
def onStore {α : Type} (action : StoreM α) : RunM α := fun s =>
  match action s.2.store with
  | .ok a store => .ok a (s.1, { s.2 with store })
  | .error e store => .error (.error e) (s.1, { s.2 with store })

/-- Prints a list of ids. -/
def sayIds (ids : List JobId) : RunM Unit := ids.forM fun id => say id.toHex

end RunM

/-- To execute a raw job is to print its id. -/
def printer : Runner (List String) RawJob where
  missing _ _ := .ok []
  execute job := modify (· ++ [(Job.id job).toHex])

namespace Verb

open RunM

/-- A number that the worker is asked for, by a command that is answered with one. -/
def askCount (command : Command (List String) RawJob) : RunM Nat := do
  match ← ask command with
  | .count n => return n
  | _ => return 0

/-- Ids that the worker is asked for, by a command that is answered with some. -/
def askIds (command : Command (List String) RawJob) : RunM (List JobId) := do
  match ← ask command with
  | .ids ids => return ids
  | _ => return []

/-- Tells how many jobs are pending, runnable and missing. -/
def tellStats : RunM Unit := do
  let pending ← askCount .pendingCount
  say s!"pending jobs:  {pending}"
  let runnable ← askIds .runnableIds
  say s!"runnable jobs: {runnable.length}"
  let missing ← askCount .missingCount
  say s!"missing IDs:   {missing}"

/-- Tells the numbers of a registry, those of the worker's caches being current. -/
def tellMetrics (registry : Registry) : RunM Unit := do
  ((← get).2.memory.publish registry).exposition.forM say

/-- Stores the contents of a file as a job and queues it, unless it is stored. -/
def pushFile (path : String) : RunM Unit := do
  match (← get).2.store.files.read path with
  | .error cause => throw (.jobFile path cause)
  | .ok bytes =>
    let job : RawJob := ⟨bytes⟩
    let id := Job.id job
    match ← ask (.hasJob id) with
    | .flag true => say s!"{id.toHex} already queued"
    | _ =>
      let _ ← ask (.putJob job)
      let _ ← ask (.addRunnable id)
      say id.toHex

/-- Makes the log as short as it can be. -/
def compactLog : RunM Unit := do
  match (← get).2.store.log with
  | none => throw .noLog
  | some log =>
    onStore Store.compact
    let records := ((← get).2.store.log.map (·.records)).getD 0
    say s!"compacted {log.path} ({records} records)"

/-- Does what a verb asks for. -/
def carryOut (registry : Registry) : Verb → RunM Unit
  | .stats metrics => do
    tellStats
    if metrics then tellMetrics registry
  | .missing => do sayIds (← askIds .missingIds)
  | .push files => files.forM pushFile
  | .drain limit => do
    let _ ← ask (.execute printer limit)
  | .reset => do
    let _ ← ask .clear
    say "cleared"
  | .compact => compactLog

end Verb

namespace Arguments

/-- The configuration that a run uses: the one in the file that is named, or in the standard file if
it is there, or else the standard configuration. -/
def resolveConfig (args : Arguments) (files : FileTree) : Except Failure Config :=
  match args.config with
  | some path => (Config.loadChecked files path).mapError (.config path)
  | none =>
    if files.has Config.standardPath then
      (Config.loadChecked files Config.standardPath).mapError (.config Config.standardPath)
    else .ok .standard

/-- The log file that a run uses. -/
def storePath (args : Arguments) (config : Config) : Option String := args.db <|> config.store.path

/-- What a run would run with. -/
def dryRunLines (args : Arguments) (config : Config) : List String :=
  let path := (args.storePath config).getD "<memory>"
  ["bootqueue dry-run",
   s!"  store.path = {path}",
   s!"  store.sync = {config.store.sync}",
   s!"  cache.enabled = {config.cache.enabled}",
   s!"  cache.jobs = {config.cache.jobs}",
   s!"  cache.dependents = {config.cache.dependents}",
   s!"  metrics.namespace = {config.metrics.namespaceName}",
   s!"  execution.progress_interval = {config.execution.progressInterval}"]

/-- The store that a run uses. -/
def openStore (args : Arguments) (config : Config) : EStateM Failure FileTree Store := fun files =>
  match args.storePath config with
  | none => .ok (.volatile files) files
  | some path =>
    match Store.openLog path files with
    | .ok store files => .ok store files
    | .error e files => .error (.store path e) files

end Arguments

/-- The part of a run that comes after the store has been opened. -/
def runOn (verb : Verb) (config : Config) (store : Store) : Outcome × FileTree :=
  match Scheduler.loadMetered RawJob.parse config.options ⟨.empty, store⟩ with
  | .error e live => (⟨[], some (.error e)⟩, live.store.files)
  | .ok scheduler live =>
    match verb.carryOut live.memory ([], ⟨.serving scheduler, live.store⟩) with
    | .ok _ (output, live) => (⟨output, none⟩, live.store.files)
    | .error failure (output, live) => (⟨output, some failure⟩, live.store.files)

/-- A run of the program. -/
def run (args : Arguments) (files : FileTree) : Outcome × FileTree :=
  match args.resolveConfig files with
  | .error failure => (⟨[], some failure⟩, files)
  | .ok config =>
    if args.dryRun then (⟨args.dryRunLines config, none⟩, files)
    else
      match args.openStore config files with
      | .error failure files => (⟨[], some failure⟩, files)
      | .ok store _ => runOn args.verb config store

end WorkQueue
