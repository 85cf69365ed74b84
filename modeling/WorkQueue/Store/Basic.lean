import WorkQueue.Files.Tree
import WorkQueue.Log.Replay

/-!
# Stores

A `Store` holds a table and, if it is durable, the log file that every change is also written to.
A store can be told to refuse writes after a number of them; reading never fails except for a key
that is not there.

A verb is an action `StoreM α`: it gives a value or an error, and in both cases the store
afterwards. A refused write changes nothing.

`openLog` makes a store from a log file, and `compact` makes the file a single record of the
live entries.
-/

namespace WorkQueue

/-- The log file of a durable store. -/
structure LogFile where
  path : String
  location : Location
  /-- The number of records in the file. -/
  records : Nat
deriving DecidableEq, Repr

/-- A table with the file it is kept in. -/
structure Store where
  table : Table
  /-- The files around the store, among them its log. -/
  files : FileTree
  /-- The log, for a durable store. -/
  log : Option LogFile
  /-- The number of writes before all further ones are refused; `none` refuses no write. -/
  writesLeft : Option Nat

/-- An action on a store. -/
abbrev StoreM := EStateM Error Store

namespace Store

/-- A store without entries that is kept in memory only. -/
def volatile (files : FileTree) : Store := ⟨.empty, files, none, none⟩

/-! ## Reading -/

/-- The value of a key, if it has one. -/
def get? (key : Bytes) : StoreM (Option Bytes) := fun s => .ok (s.table.get? key) s

/-- The value of a key. -/
def get (key : Bytes) : StoreM Bytes := do
  match ← get? key with
  | some value => return value
  | none => throw .notFound

/-- Whether a key has a value. -/
def has (key : Bytes) : StoreM Bool := fun s => .ok (s.table.contains key) s

/-- The entries whose keys begin with `lead`, in ascending order. -/
def scan (lead : Bytes) : StoreM (List (Bytes × Bytes)) := fun s => .ok (s.table.scan lead) s

/-! ## Writing -/

/-- The store after the changes of a batch, which a log keeps unless there are none. -/
def land (s : Store) (batch : Batch) : Store :=
  match s.log with
  | some log =>
    if batch.isEmpty then s
    else { s with
      table := batch.apply s.table
      files := s.files.append log.location (Log.record batch)
      log := some { log with records := log.records + 1 } }
  | none => { s with table := batch.apply s.table }

/-- Writes a batch, all of it or nothing. -/
def write (batch : Batch) : StoreM Unit := fun s =>
  match s.writesLeft with
  | none => .ok () (s.land batch)
  | some 0 => .error (.file .writeRefused) s
  | some (left + 1) => .ok () ({ s with writesLeft := some left }.land batch)

/-- Gives a key a value. -/
def put (key value : Bytes) : StoreM Unit := write [.put key value]

/-- Takes a key out; nothing changes where it is not there. -/
def delete (key : Bytes) : StoreM Unit := write [.delete key]

/-! ## The log file -/

/-- Opens the store that the log at a path keeps; a missing file is an empty log. A torn record at
its end is cut off, and a damaged log is left as it is. -/
def openLog (path : String) : EStateM Error FileTree Store := fun files =>
  match FileTree.makeParents path files with
  | .error cause files => .error (.file cause) files
  | .ok _ files =>
    match FileTree.openFile path files with
    | .error cause files => .error (.file cause) files
    | .ok location files =>
      let bytes := (files.bytes? location).getD []
      match Log.replay bytes with
      | .error damage => .error (.corrupt damage) files
      | .ok replay =>
        let files :=
          if replay.length < bytes.length then
            files.set location (.file (bytes.take replay.length))
          else files
        .ok ⟨replay.table, files, some ⟨path, location, replay.batches.length⟩, none⟩ files

/-- The batch that puts all entries of a table. -/
def snapshot (table : Table) : Batch := table.entries.map fun e => .put e.1 e.2

/-- Where the compacted log of a file is put together: beside it, with the extension `compact`. -/
def scratchPath (path : String) : String := Path.withExtension path "compact"

/-- Makes the log one record of the live entries, or an empty file if there are none. The
new log is put together in another file, which then takes the place of the old one. -/
def compact : StoreM Unit := fun s =>
  match s.log with
  | none => .ok () s
  | some log =>
    match FileTree.openFile (scratchPath log.path) s.files with
    | .error cause _ => .error (.file cause) s
    | .ok scratch files =>
      let batch := snapshot s.table
      let bytes := if batch.isEmpty then [] else Log.record batch
      let files := (files.set scratch (.file bytes)).move scratch log.location
      .ok () { s with
        files
        log := some { log with records := if batch.isEmpty then 0 else 1 } }

end Store

end WorkQueue
