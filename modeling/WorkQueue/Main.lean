import WorkQueue.CommandLine.Run

/-!
# The program

`main` reads the files that a run may touch into a `FileTree`, has `run` work on them, prints what
the run says and writes the log of the store back.
-/

namespace WorkQueue.Program

/-! ## Texts -/

/-- What is shown where help is asked for. -/
def helpText : List String :=
  ["Inspect and drive a persistent bootstrap job queue.",
   "",
   "Usage: bootqueue [OPTIONS] <COMMAND>",
   "",
   "Commands:",
   "  stats    Show pending, runnable and missing counts [--metrics]",
   "  missing  List ids depended upon but not stored locally",
   "  push     Store each FILE as a job and queue it as runnable",
   "  drain    Dequeue runnable jobs and print their ids [--limit <N>]",
   "  reset    Delete all queue state",
   "  compact  Make the store log a single record of what is live",
   "",
   "Options:",
   "      --config <PATH>      Path to the config file (TOML)",
   "      --db <PATH>          Store file to open, overriding [store].path",
   "      --log-level <LEVEL>  Logging level (error, warn, info, debug, trace)",
   "      --dry-run            Parse and check the config, print it, but don't open the store",
   "  -h, --help               Print help",
   "  -V, --version            Print version"]

/-- What is shown where the version is asked for. -/
def versionText : String := "bootqueue 0.1.0"

/-- A failure as it is reported: the failure itself, and a list of the causes behind it. -/
def report (f : Failure) : List String :=
  match f.chain with
  | [] => []
  | [text] => [s!"bootqueue error: {text}"]
  | [text, cause] => [s!"bootqueue error: {text}", "", "Caused by:", s!"    {cause}"]
  | text :: causes =>
    [s!"bootqueue error: {text}", "", "Caused by:"] ++
      causes.zipIdx.map fun c => s!"    {c.2}: {c.1}"

/-! ## Files -/

/-- Where a path leads if no directory on the way is missing. -/
def locationOf (path : String) : Location :=
  (Path.segments path).foldl (fun loc segment =>
    if Path.isVoid segment then loc
    else if segment = ".." then Location.parent loc
    else loc ++ [segment]) (Location.start path)

/-- The files that a run may touch besides its configuration. -/
def touched (args : Arguments) (files : FileTree) : List String :=
  let store := match args.resolveConfig files with
    | .ok config => (args.storePath config).toList
    | .error _ => args.db.toList
  let jobs := match args.verb with
    | .push paths => paths
    | _ => []
  store ++ store.map Store.scratchPath ++ jobs

/-- Whether a path leads to a directory. -/
def isDirectory (path : String) : IO Bool := do
  try
    let _ ← IO.FS.realPath (path ++ "/.")
    return true
  catch _ => return false

/-- Adds what a path leads to, and the directories before it, to a tree. -/
def addPath (files : FileTree) (path : String) : IO FileTree := do
  let mut files := files
  for way in Path.ways path do
    let location := locationOf way
    if ← isDirectory way then files := files.set location .directory
    else
      try
        let bytes ← IO.FS.readBinFile way
        files := files.set location (.file bytes.toList)
      catch _ => pure ()
  return files

/-- Gives a file new contents, by adding to its end if that is enough. -/
def replaceBytes (path : String) (old new : Bytes) : IO Unit := do
  if old.isPrefixOf new then
    let handle ← IO.FS.Handle.mk path .append
    handle.write (new.drop old.length).toByteArray
    handle.flush
  else
    let scratch := Store.scratchPath path
    IO.FS.writeBinFile scratch new.toByteArray
    IO.FS.rename scratch path

/-- Makes the directories on the way of a path and writes the file that it leads to, as far as a run
has made or changed them. -/
def writeBack (path : String) (before after : FileTree) : IO Unit := do
  for way in Path.ways path do
    let location := locationOf way
    if before.node? location ≠ after.node? location then
      match after.node? location with
      | some .directory => IO.FS.createDir way
      | some (.file bytes) => replaceBytes way ((before.bytes? location).getD []) bytes
      | none => pure ()

/-! ## Runs -/

/-- Tells something in the program's log. -/
def note (level : LogLevel) (other : LogLevel) (text : String) : IO Unit := do
  if level.shows other then IO.eprintln s!"{other.name}: {text}"

/-- A run on the files around it, and the exit code. -/
def perform (args : Arguments) : IO UInt32 := do
  let level := LogLevel.choose args.logLevel (← IO.getEnv "BOOTQUEUE_LOG")
  let config := args.config.getD Config.standardPath
  let settled ← addPath .empty config
  let files ← (touched args settled).foldlM addPath settled
  let (outcome, after) := run args files
  match args.resolveConfig settled with
  | .ok config =>
    if !args.dryRun then
      match args.storePath config with
      | some path => writeBack path files after
      | none => note level .info "no store path configured; using an in-memory store"
  | .error _ => pure ()
  outcome.output.forM IO.println
  if let some failure := outcome.failure then (report failure).forM IO.eprintln
  note level .debug "scheduler shut down"
  return outcome.exitCode.toUInt32

end WorkQueue.Program

open WorkQueue in
/-- Runs the program with the given arguments. -/
def main (args : List String) : IO UInt32 := do
  match Arguments.parse args with
  | .ok args => Program.perform args
  | .error usage =>
    match usage with
    | .help => Program.helpText.forM IO.println
    | .version => IO.println Program.versionText
    | .mistake => Program.helpText.forM IO.eprintln
    return usage.exitCode.toUInt32
