import WorkQueue.Proofs.Files.Directories
import WorkQueue.Proofs.Log.Written
import WorkQueue.Store.Basic

/-!
# Stores kept in a log file

`Logged` ties a store to its log: the file holds the records of some batches and nothing else,
these batches make the table, and the path still leads to the file. Opening makes a log so
(`logged_of_openLog`); writing (`Logged.write`), compacting (`Logged.compact`) and opening it again
(`Logged.reopen`) keep it so.

Writing and compacting ask no batch for its size, so of themselves they keep no more than that the
records stand in the file (`Recorded`).
-/

namespace WorkQueue

open FileTree (Reaches)

namespace Store

/-- Drops a durable store and opens it again from its log. -/
def reopen : StoreM Unit := fun s =>
  match s.log with
  | none => .ok () s
  | some log =>
    match openLog log.path s.files with
    | .ok store _ => .ok () store
    | .error e files => .error e { s with files }

/-- The table that batches leave behind, one after the other. -/
theorem table_append (batches : List Batch) (batch : Batch) (n m : Nat) :
    (⟨batches ++ [batch], n⟩ : Log.Replay).table =
      batch.apply (⟨batches, m⟩ : Log.Replay).table := by
  simp [Log.Replay.table]

private theorem get?_apply_puts {entries : List (Bytes × Bytes)}
    (h : entries.Pairwise fun a b => a.1 < b.1) (t : Table) (key : Bytes) :
    (Batch.apply (entries.map fun e => .put e.1 e.2) t).get? key =
      (entries.lookup key).or (t.get? key) := by
  induction entries generalizing t with
  | nil => rfl
  | cons e rest ih =>
    obtain ⟨k, v⟩ := e
    obtain ⟨hk, hr⟩ := List.pairwise_cons.mp h
    rw [List.map_cons, Batch.apply_cons, ih hr, Operation.apply, Table.get?_put, List.lookup_cons]
    by_cases he : key = k
    · have hnone : rest.lookup key = none := by
        rw [List.lookup_eq_none_iff]
        intro p hp
        have hlt := hk p hp
        have hne : key ≠ p.1 := fun h => List.lt_irrefl _ (he ▸ h ▸ hlt)
        simpa using hne
      subst he
      simp [hnone]
    · have hb : (key == k) = false := by simpa using he
      rw [hb, if_neg he]

/-- The snapshot of a table makes the table. -/
theorem apply_snapshot (t : Table) : Batch.apply (snapshot t) .empty = t := by
  refine Table.ext_get? fun key => ?_
  rw [snapshot, get?_apply_puts t.ascending, Table.get?_empty, Option.or_none, Table.get?]

/-- What a compacted log holds: one record of all entries, if there are any. -/
def compacted (table : Table) : List Batch :=
  if (snapshot table).isEmpty then [] else [snapshot table]

theorem table_compacted (table : Table) (n : Nat) :
    (⟨compacted table, n⟩ : Log.Replay).table = table := by
  have hsnap := apply_snapshot table
  rw [compacted]
  split
  · rename_i he
    rwa [List.isEmpty_iff.mp he] at hsnap
  · exact hsnap

/-- What compacting a log does: the records that make the table take the place of those that are
there, by way of the scratch file. -/
theorem compact_eq {s : Store} {log : LogFile} (hlog : s.log = some log) :
    compact s =
      match FileTree.openFile (scratchPath log.path) s.files with
      | .error cause _ => .error (.file cause) s
      | .ok scratch opened => .ok () { s with
          files := (opened.set scratch (.file (Log.written (compacted s.table)))).move scratch
            log.location
          log := some { log with records := (compacted s.table).length } } := by
  have hcontent : (if (snapshot s.table).isEmpty then []
      else Log.record (snapshot s.table)) = Log.written (compacted s.table) := by
    rw [compacted]
    split <;> simp
  have hcount : (if (snapshot s.table).isEmpty then 0 else 1) = (compacted s.table).length := by
    rw [compacted]
    split <;> rfl
  cases ho : FileTree.openFile (scratchPath log.path) s.files with
  | error cause files => simp only [compact, hlog, ho]
  | ok scratch opened => simp only [compact, hlog, ho, hcontent, hcount]

/-! ## A store and its log -/

/-- The log at a location holds the records of the batches that made the table, and they can be read
back. -/
structure Logged (s : Store) (path : String) (location : Location) (batches : List Batch) :
    Prop where
  log : s.log = some ⟨path, location, batches.length⟩
  bytes : s.files.bytes? location = some (Log.written batches)
  table : s.table = (⟨batches, (Log.written batches).length⟩ : Log.Replay).table
  framed : ∀ batch ∈ batches, Log.Framed batch
  writesLeft : s.writesLeft = none
  reaches : Reaches s.files path location

/-- The log at a location holds the records of the batches that made the table, whether or not they
can be read back. -/
structure Recorded (s : Store) (path : String) (location : Location) (batches : List Batch) :
    Prop where
  log : s.log = some ⟨path, location, batches.length⟩
  bytes : s.files.bytes? location = some (Log.written batches)
  table : s.table = (⟨batches, (Log.written batches).length⟩ : Log.Replay).table
  writesLeft : s.writesLeft = none
  reaches : Reaches s.files path location

theorem Logged.recorded {s : Store} {path : String} {location : Location} {batches : List Batch}
    (h : Logged s path location batches) : Recorded s path location batches :=
  ⟨h.log, h.bytes, h.table, h.writesLeft, h.reaches⟩

namespace Recorded

variable {s : Store} {path : String} {location : Location} {batches : List Batch}

theorem logged (h : Recorded s path location batches)
    (hframed : ∀ batch ∈ batches, Log.Framed batch) : Logged s path location batches :=
  ⟨h.log, h.bytes, h.table, hframed, h.writesLeft, h.reaches⟩

/-- Any batch that is not empty is written, and its record stands behind the others. -/
theorem write (h : Recorded s path location batches) {batch : Batch} (hne : batch ≠ []) :
    ∃ t, Store.write batch s = .ok () t ∧ Recorded t path location (batches ++ [batch]) ∧
      t.table = batch.apply s.table := by
  have hwrite : Store.write batch s = .ok () (s.land batch) := by
    rw [Store.write, h.writesLeft]
  let files := s.files.append location (Log.record batch)
  have hland : s.land batch = { s with
      table := batch.apply s.table
      files
      log := some ⟨path, location, batches.length + 1⟩ } := by
    rw [land, h.log]
    exact if_neg (by simpa using hne)
  have hbytes : files.bytes? location = some (Log.written (batches ++ [batch])) := by
    rw [Log.written_append, Log.written_cons, Log.written_nil, List.append_nil]
    show (s.files.set location _).bytes? location = _
    rw [FileTree.bytes?_set_self h.reaches.not_fixed, h.bytes]
    rfl
  have hkeep : FileTree.KeepsDirectories s.files files :=
    FileTree.keepsDirectories_set _ h.reaches.node?_ne_directory
  refine ⟨s.land batch, hwrite, ?_, by rw [hland]⟩
  rw [hland]
  refine ⟨by simp, hbytes, ?_, h.writesLeft, h.reaches.of_keeps hkeep hbytes⟩
  rw [table_append _ _ _ (Log.written batches).length, ← h.table]

/-- A log is compacted wherever the file in which it is put together can be opened. -/
theorem compact (h : Recorded s path location batches) {scratch : Location} {opened : FileTree}
    (ho : FileTree.openFile (scratchPath path) s.files = .ok scratch opened) :
    ∃ t, Store.compact s = .ok () t ∧ Recorded t path location (compacted s.table) ∧
      t.table = s.table := by
  let files := (opened.set scratch (.file (Log.written (compacted s.table)))).move scratch location
  have hcompact : Store.compact s = .ok () { s with
      files
      log := some ⟨path, location, (compacted s.table).length⟩ } := by
    rw [compact_eq h.log]
    simp only [ho]
    rfl
  obtain ⟨hbytes, hkeeps⟩ := FileTree.replace_keeps ho h.bytes (Log.written (compacted s.table))
  exact ⟨_, hcompact, ⟨rfl, hbytes, (table_compacted _ _).symm, h.writesLeft,
    h.reaches.of_keeps hkeeps hbytes⟩, rfl⟩

end Recorded

theorem logged_of_openLog {path : String} {files files' : FileTree} {s : Store}
    (h : openLog path files = .ok s files')
    (hnew : ∀ log, s.log = some log → files.bytes? log.location = none) :
    ∃ location, Logged s path location [] := by
  unfold openLog at h
  split at h
  · cases h
  rename_i parents hp
  split at h
  · cases h
  rename_i location opened ho
  have hreach := FileTree.reaches_of_openFile hp ho
  have hsame : parents.bytes? location = files.bytes? location := by
    have := FileTree.sameFiles_makeInnermost (Path.ways path).dropLast.reverse files location
    rwa [← FileTree.makeParents_eq, hp] at this
  simp only [] at h
  split at h
  · cases h
  rename_i replay hr
  cases h
  have hold : parents.bytes? location = none := hsame.trans (hnew _ rfl)
  -- Without an old file the log is empty, and there is nothing to replay.
  have hempty : opened.bytes? location = some [] := by
    obtain ⟨target, name, -, -, -, -, -, hnode⟩ := FileTree.openFile_ok ho
    rcases hnode with ⟨hnone, rfl⟩ | ⟨⟨bytes, hb⟩, -⟩
    · refine FileTree.bytes?_set_self fun hf => ?_
      rw [FileTree.node?_of_fixed hf] at hnone
      cases hnone
    · rw [hold] at hb
      cases hb
  have hframed : ∀ batch ∈ ([] : List Batch), Log.Framed batch := by simp
  have hnil : Log.replay [] = .ok ⟨[], 0⟩ := Log.replay_written hframed
  rw [hempty, Option.getD_some, hnil] at hr
  cases hr
  have hfiles : (if (0 : Nat) < ((opened.bytes? location).getD []).length then
      opened.set location (.file (((opened.bytes? location).getD []).take 0)) else opened) =
        opened := by
    rw [hempty]
    rfl
  exact ⟨location, rfl, by rw [hfiles]; exact hempty, rfl, by simp, rfl, by rw [hfiles]; exact hreach⟩

namespace Logged

variable {s : Store} {path : String} {location : Location} {batches : List Batch}

/-- Writing keeps a store and its log together, and fails for none of the two reasons. -/
theorem write (h : Logged s path location batches) {batch : Batch} (hb : Log.Framed batch) :
    ∃ t batches', Store.write batch s = .ok () t ∧ Logged t path location batches' ∧
      t.table = batch.apply s.table := by
  by_cases hne : batch = []
  · subst hne
    have hland : s.land [] = s := by rw [land, h.log]; rfl
    have hwrite : Store.write [] s = .ok () (s.land []) := by rw [Store.write, h.writesLeft]
    rw [hland] at hwrite
    exact ⟨s, batches, hwrite, h, rfl⟩
  · obtain ⟨t, hwrite, ht, htable⟩ := h.recorded.write hne
    refine ⟨t, batches ++ [batch], hwrite, ht.logged fun b hmem => ?_, htable⟩
    rcases List.mem_append.mp hmem with hmem | hmem
    · exact h.framed b hmem
    · rw [List.mem_singleton.mp hmem]
      exact hb

/-- The log, opened again, makes the store as it was. -/
theorem openLog (h : Logged s path location batches) : openLog path s.files = .ok s s.files := by
  simp only [Store.openLog, h.reaches.makeParents, h.reaches.openFile, h.bytes, Option.getD_some,
    Log.replay_written h.framed, Nat.lt_irrefl, if_false]
  rw [← h.table]
  obtain ⟨table, files, log, writesLeft⟩ := s
  obtain rfl : log = _ := h.log
  obtain rfl : writesLeft = _ := h.writesLeft
  rfl

/-- Opening the log again gives the store as it was. -/
theorem reopen (h : Logged s path location batches) : Store.reopen s = .ok () s := by
  simp only [Store.reopen, h.log, h.openLog]

/-- Compaction keeps a store and its log together, and the table as it is. Where it fails, the file
in which the new log would be put together cannot be opened, and nothing has changed. -/
theorem compact (h : Logged s path location batches)
    (hf : Log.Framed (snapshot s.table)) :
    (∃ t batches', Store.compact s = .ok () t ∧ Logged t path location batches' ∧
      t.table = s.table) ∨
    ∃ cause files, Store.compact s = .error (.file cause) s ∧
      FileTree.openFile (scratchPath path) s.files = .error cause files := by
  cases ho : FileTree.openFile (scratchPath path) s.files with
  | error cause files =>
    exact .inr ⟨cause, files, by simp only [Store.compact, h.log, ho], rfl⟩
  | ok scratch opened =>
    obtain ⟨t, hcompact, ht, htable⟩ := h.recorded.compact ho
    refine .inl ⟨t, _, hcompact, ht.logged fun b hmem => ?_, htable⟩
    rw [compacted] at hmem
    split at hmem
    · cases hmem
    · rw [List.mem_singleton.mp hmem]
      exact hf

end Logged

/-- The log is compacted in a file beside it, and has one record then if there are entries. -/
theorem compact_ok {s t : Store} {log : LogFile} (hlog : s.log = some log)
    (h : compact s = .ok () t) :
    (∃ scratch files, FileTree.openFile (scratchPath log.path) s.files = .ok scratch files) ∧
      t.log = some { log with records := if (snapshot s.table).isEmpty then 0 else 1 } := by
  simp only [compact, hlog] at h
  split at h
  · cases h
  · rename_i scratch files hopen
    cases h
    exact ⟨⟨scratch, files, hopen⟩, rfl⟩

end Store

end WorkQueue
