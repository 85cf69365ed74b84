import WorkQueue.Proofs.Files.Extensions
import WorkQueue.Proofs.Store.Agreement
import WorkQueue.Proofs.Store.Opening

/-!
# What a compaction does to other files

A log is compacted by way of a scratch file in the same directory, with the same name but for the
extension (`scratchLocation`). No other file is touched, wherever a compaction is broken off
(`Underway.node?_eq`), and the scratch file is gone in the end (`node?_of_compact`). But the scratch
file is not made new: where a file of that name stands it is overwritten, and gone in the end too.

* `Rooted`, `InUse.rooted`: the path of a store leads to its log, whatever the store has been asked
  and whatever others have done beside it;
* `openFile_scratch`: where the scratch file is, and when it cannot be opened;
* `compact_spares`: compaction leaves all files as they are but the log, unless another one has the
  name of the scratch file.
-/

namespace WorkQueue

open FileTree (Reaches KeepsDirectories nameLimit pathLimit)

namespace Store

variable {s t : Store} {path : String} {location : Location} {tree : FileTree} {log : LogFile}

/-! ## The path of a store -/

/-- The path of a store leads to its log. -/
structure Rooted (path : String) (location : Location) (s : Store) : Prop where
  log : ∃ records, s.log = some ⟨path, location, records⟩
  reaches : Reaches s.files path location

theorem rooted_of_openLog {files opened : FileTree} (h : openLog path files = .ok s opened) :
    ∃ location, Rooted path location s := by
  obtain ⟨location, batches, hlogged⟩ := exists_logged_of_openLog h
  exact ⟨location, ⟨_, hlogged.log⟩, hlogged.reaches⟩

theorem preserves_rooted_write (batch : Batch) :
    Runs.Preserves (Rooted path location) (Store.write batch) := by
  have hland : ∀ s : Store, Rooted path location s → Rooted path location (s.land batch) := by
    intro s h
    obtain ⟨records, hlog⟩ := h.log
    simp only [land, hlog]
    split
    · exact h
    · exact ⟨⟨records + 1, rfl⟩, h.reaches.of_keeps
        (FileTree.keepsDirectories_set _ h.reaches.node?_ne_directory)
        (FileTree.bytes?_set_self h.reaches.not_fixed)⟩
  intro s h
  rw [Store.write]
  cases hleft : s.writesLeft with
  | none => exact hland s h
  | some left =>
    cases left with
    | zero => exact h
    | succ left => exact hland _ ⟨h.log, h.reaches⟩

theorem preserves_rooted_compact : Runs.Preserves (Rooted path location) Store.compact := by
  intro s h
  obtain ⟨records, hlog⟩ := h.log
  obtain ⟨old, hold⟩ := h.reaches.file
  simp only [Store.compact, hlog]
  cases ho : FileTree.openFile (scratchPath path) s.files with
  | error cause files => exact h
  | ok scratch files =>
    obtain ⟨hbytes, hkeeps⟩ := FileTree.replace_keeps ho hold
      (if (snapshot s.table).isEmpty then [] else Log.record (snapshot s.table))
    exact ⟨⟨_, rfl⟩, h.reaches.of_keeps hkeeps hbytes⟩

theorem preserves_rooted_reopen : Runs.Preserves (Rooted path location) Store.reopen := by
  intro s h
  obtain ⟨records, hlog⟩ := h.log
  obtain ⟨bytes, hbytes⟩ := h.reaches.file
  simp only [Store.reopen, hlog, Store.openLog, h.reaches.makeParents, h.reaches.openFile, hbytes,
    Option.getD_some]
  cases Log.replay bytes with
  | error damage => exact ⟨⟨records, rfl⟩, h.reaches⟩
  | ok replay =>
    refine ⟨⟨_, rfl⟩, ?_⟩
    show Reaches (if _ then _ else _) path location
    split
    · exact h.reaches.of_keeps
        (FileTree.keepsDirectories_set _ h.reaches.node?_ne_directory)
        (FileTree.bytes?_set_self h.reaches.not_fixed)
    · exact h.reaches

theorem preserves_rooted_perform (request : Request) :
    Runs.Preserves (Rooted path location) request.perform := by
  cases request with
  | get key =>
    refine .bind (.bind (fun s h => h) fun found => ?_) fun _ => .pure _
    cases found with
    | none => exact fun s h => h
    | some value => exact .pure _
  | has key => exact .bind (fun s h => h) fun _ => .pure _
  | scan lead => exact .bind (fun s h => h) fun _ => .pure _
  | put key value => exact .bind (preserves_rooted_write _) fun _ => .pure _
  | delete key => exact .bind (preserves_rooted_write _) fun _ => .pure _
  | write batch => exact .bind (preserves_rooted_write _) fun _ => .pure _
  | compact => exact .bind preserves_rooted_compact fun _ => .pure _
  | reopen => exact .bind preserves_rooted_reopen fun _ => .pure _

theorem Rooted.attempt (h : Rooted path location s) (request : Request) :
    Rooted path location (request.attempt s).2 := by
  have hperform := preserves_rooted_perform request s h
  cases hrun : request.perform s with
  | ok answer t =>
    rw [hrun] at hperform
    exact Request.attempt_of_ok hrun ▸ hperform
  | error e t =>
    rw [hrun] at hperform
    exact Request.attempt_of_error hrun ▸ hperform

/-- The same store after others have been at work around it, who left its directories and its log
alone. -/
structure Meanwhile (s t : Store) : Prop where
  store : t = { s with files := t.files }
  directories : KeepsDirectories s.files t.files
  bytes : ∀ log, s.log = some log → t.files.bytes? log.location = s.files.bytes? log.location

/-- The stores that are kept at a path: opened there, asked this and that, with others at work
around them. -/
inductive InUse (path : String) : Store → Prop
  | opened {s : Store} {files opened : FileTree} :
      openLog path files = .ok s opened → InUse path s
  | asked {s : Store} (request : Request) : InUse path s → InUse path (request.attempt s).2
  | meanwhile {s t : Store} : InUse path s → Meanwhile s t → InUse path t

theorem Rooted.meanwhile (h : Rooted path location s) (hmeanwhile : Meanwhile s t) :
    Rooted path location t := by
  obtain ⟨records, hlog⟩ := h.log
  obtain ⟨bytes, hbytes⟩ := h.reaches.file
  rw [hmeanwhile.store]
  exact ⟨⟨records, hlog⟩,
    h.reaches.of_keeps hmeanwhile.directories ((hmeanwhile.bytes _ hlog).trans hbytes)⟩

theorem InUse.rooted (h : InUse path s) : ∃ location, Rooted path location s := by
  induction h with
  | opened hopen => exact rooted_of_openLog hopen
  | asked request _ ih => exact ih.imp fun location h => h.attempt request
  | meanwhile _ hmeanwhile ih => exact ih.imp fun location h => h.meanwhile hmeanwhile

/-! ## The scratch file -/

/-- Where the log at a location is compacted: beside it, with another extension. -/
def scratchLocation (location : Location) : Location :=
  location.dropLast ++ [Path.extended (location.getLastD "") "compact"]

/-- The path or the name of the scratch file is longer than paths or names may be. -/
def ScratchTooLong (path : String) (location : Location) : Prop :=
  pathLimit < (scratchPath path).utf8ByteSize ∨
    nameLimit < (Path.extended (location.getLastD "") "compact").utf8ByteSize

instance (path : String) (location : Location) : Decidable (ScratchTooLong path location) :=
  inferInstanceAs (Decidable (_ ∨ _))

private theorem suffix_compact : Path.Suffix "compact" :=
  ⟨by decide, by decide, by decide, by decide⟩

/-- The scratch file is opened where it is to be, unless its name is too long or a directory stands
there. Nothing is changed if it cannot be opened. -/
theorem openFile_scratch (h : Rooted path location s) :
    FileTree.openFile (scratchPath path) s.files =
      if ScratchTooLong path location then .error .nameTooLong s.files
      else
        match s.files.node? (scratchLocation location) with
        | none => .ok (scratchLocation location)
            (s.files.set (scratchLocation location) (.file []))
        | some (.file _) => .ok (scratchLocation location) s.files
        | some .directory => .error .isADirectory s.files := by
  obtain ⟨target, name, ht, hn, hs, rfl, -⟩ := h.reaches.located
  have hlast : (target.directory ++ [name]).getLastD "" = name := by
    rw [List.getLastD_eq_getLast?, List.getLast?_concat]
    rfl
  have hlong : ScratchTooLong path (target.directory ++ [name]) ↔
      pathLimit < (Path.withExtension path "compact").utf8ByteSize ∨
        nameLimit < (Path.extended name "compact").utf8ByteSize := by
    rw [ScratchTooLong, hlast, scratchPath]
  rw [scratchPath, FileTree.openFile_withExtension ht hn hs suffix_compact, scratchLocation,
    List.dropLast_concat, hlast]
  exact ite_congr (propext hlong).symm (fun _ => rfl) fun _ => rfl

/-- The scratch file can be opened unless its name is too long or a directory stands there. -/
theorem exists_openFile_scratch (h : Rooted path location s) :
    (∃ opened, FileTree.openFile (scratchPath path) s.files =
        .ok (scratchLocation location) opened) ↔
      ¬ ScratchTooLong path location ∧
        s.files.node? (scratchLocation location) ≠ some .directory := by
  rw [openFile_scratch h]
  by_cases hlong : ScratchTooLong path location
  · simp [hlong]
  · cases hnode : s.files.node? (scratchLocation location) with
    | none => simp [hlong]
    | some node => cases node <;> simp [hlong]

theorem scratch_eq (h : Rooted path location s) {scratch : Location} {opened : FileTree}
    (ho : FileTree.openFile (scratchPath path) s.files = .ok scratch opened) :
    scratch = scratchLocation location := by
  rw [openFile_scratch h] at ho
  split at ho
  · cases ho
  · split at ho <;> cases ho <;> rfl

/-! ## A compaction and what it does -/

/-- The files where a compaction of a log is broken off, whether it has not begun, has written part
of the scratch file or is done. -/
inductive Underway (s : Store) (log : LogFile) : FileTree → Prop
  | waiting : Underway s log s.files
  | writing {scratch : Location} {opened : FileTree} {kept : Bytes} :
      FileTree.openFile (scratchPath log.path) s.files = .ok scratch opened →
      kept <+: Log.written (compacted s.table) → Underway s log (opened.set scratch (.file kept))
  | moved {scratch : Location} {opened : FileTree} :
      FileTree.openFile (scratchPath log.path) s.files = .ok scratch opened →
      Underway s log
        ((opened.set scratch (.file (Log.written (compacted s.table)))).move scratch log.location)

/-- The files that a compaction leaves behind are those after its last step, or before its first. -/
theorem underway_compact (hlog : s.log = some log) :
    Underway s log (Runs.final (compact s)).files := by
  rw [compact_eq hlog]
  cases ho : FileTree.openFile (scratchPath log.path) s.files with
  | error cause tree => exact .waiting
  | ok scratch opened => exact .moved ho

/-- Wherever a compaction is broken off, all is as it was but the log and the scratch file. -/
theorem Underway.node?_eq (h : Rooted path location s) (hlog : s.log = some log)
    (hunder : Underway s log tree) {loc : Location} (hlocation : loc ≠ location)
    (hscratch : loc ≠ scratchLocation location) : tree.node? loc = s.files.node? loc := by
  obtain ⟨records, hown⟩ := h.log
  cases hlog.symm.trans hown
  cases hunder with
  | waiting => rfl
  | writing ho _ =>
    rw [← scratch_eq h ho] at hscratch
    rw [FileTree.node?_set_of_ne _ _ hscratch, FileTree.node?_of_openFile ho hscratch]
  | moved ho =>
    rw [← scratch_eq h ho] at hscratch
    rw [FileTree.node?_replace ho h.reaches.not_fixed, if_neg hlocation, if_neg hscratch]

/-- After a compaction the new log stands where the old one was, nothing stands where the scratch
file was, and all else is as before. -/
theorem node?_of_compact (h : Rooted path location s) (hcompact : compact s = .ok () t)
    (loc : Location) :
    t.files.node? loc =
      if loc = location then some (.file (Log.written (compacted s.table)))
      else if loc = scratchLocation location then none else s.files.node? loc := by
  obtain ⟨records, hlog⟩ := h.log
  rw [compact_eq hlog] at hcompact
  cases ho : FileTree.openFile (scratchPath path) s.files with
  | error cause tree =>
    rw [ho] at hcompact
    cases hcompact
  | ok scratch opened =>
    rw [ho] at hcompact
    cases hcompact
    rw [← scratch_eq h ho]
    exact FileTree.node?_replace ho h.reaches.not_fixed _ loc

/-- A log is compacted if its scratch file can be opened. -/
theorem exists_compact (h : Rooted path location s) :
    (∃ t, compact s = .ok () t) ↔
      ¬ ScratchTooLong path location ∧
        s.files.node? (scratchLocation location) ≠ some .directory := by
  obtain ⟨records, hlog⟩ := h.log
  rw [compact_eq hlog, ← exists_openFile_scratch h]
  cases ho : FileTree.openFile (scratchPath path) s.files with
  | error cause tree => simp
  | ok scratch opened => simp [scratch_eq h ho]

theorem compact_error (h : Rooted path location s) {e : Error} (hcompact : compact s = .error e t) :
    t = s := by
  obtain ⟨records, hlog⟩ := h.log
  rw [compact_eq hlog] at hcompact
  split at hcompact <;> cases hcompact
  rfl

/-- All files but one's own are there with the same bytes. -/
def Spared (own : Location) (before after : FileTree) : Prop :=
  ∀ loc bytes, loc ≠ own → before.bytes? loc = some bytes → after.bytes? loc = some bytes

/-- A compaction spares all other files just if none has the name of the scratch file. -/
theorem spared_compact_iff (h : Rooted path location s) (hcompact : compact s = .ok () t) :
    Spared location s.files t.files ↔
      scratchLocation location = location ∨ s.files.bytes? (scratchLocation location) = none := by
  have hnode := node?_of_compact h hcompact
  constructor
  · intro hspared
    cases hbytes : s.files.bytes? (scratchLocation location) with
    | none => exact .inr rfl
    | some bytes =>
      refine .inl (Decidable.byContradiction fun hne => ?_)
      have hgone := FileTree.bytes?_eq_some.mp (hspared _ bytes hne hbytes)
      rw [hnode, if_neg hne, if_pos rfl] at hgone
      cases hgone
  · intro hfree loc bytes hown hbytes
    have hscratch : loc ≠ scratchLocation location := by
      rintro rfl
      exact hfree.elim hown fun hnone => Option.some_ne_none bytes (hbytes.symm.trans hnone)
    rw [FileTree.bytes?_eq_some, hnode, if_neg hown, if_neg hscratch]
    exact FileTree.bytes?_eq_some.mp hbytes

/-- **What a compaction spares.** Whatever a store has been asked and whatever others have done
beside it: wherever a compaction is broken off, all is as it was but the log and the scratch file.
It fails only if the scratch file cannot be opened, and then changes nothing. If it succeeds, no
file is added; but all other files are spared just if the scratch file is the log itself or no file
had its name, and otherwise the file that had it is gone. -/
theorem compact_spares (h : InUse path s) :
    ∃ log, s.log = some log ∧ log.path = path ∧
      (∀ tree, Underway s log tree → ∀ loc, loc ≠ log.location →
        loc ≠ scratchLocation log.location → tree.node? loc = s.files.node? loc) ∧
      Underway s log (Runs.final (compact s)).files ∧
      (∀ e t, compact s = .error e t → t = s) ∧
      ((∃ t, compact s = .ok () t) ↔
        ¬ ScratchTooLong path log.location ∧
          s.files.node? (scratchLocation log.location) ≠ some .directory) ∧
      ∀ t, compact s = .ok () t →
        Spared log.location t.files s.files ∧
        (Spared log.location s.files t.files ↔ scratchLocation log.location = log.location ∨
          s.files.bytes? (scratchLocation log.location) = none) ∧
        (scratchLocation log.location ≠ log.location →
          t.files.node? (scratchLocation log.location) = none) := by
  obtain ⟨location, hrooted⟩ := h.rooted
  obtain ⟨records, hlog⟩ := hrooted.log
  refine ⟨_, hlog, rfl, fun tree hunder loc => hunder.node?_eq hrooted hlog, underway_compact hlog,
    fun e t => compact_error hrooted, exists_compact hrooted, fun t hcompact => ?_⟩
  have hnode := node?_of_compact hrooted hcompact
  refine ⟨fun loc bytes hown hbytes => ?_, spared_compact_iff hrooted hcompact, fun hne => ?_⟩
  · rw [FileTree.bytes?_eq_some, hnode, if_neg hown] at hbytes
    split at hbytes
    · cases hbytes
    · exact FileTree.bytes?_eq_some.mpr hbytes
  · rw [hnode, if_neg hne, if_pos rfl]

/-- Another file that is called `queue.compact` is gone once the log `queue.db` is compacted. -/
theorem compact_spares_takenName : ∃ s t : Store, InUse "queue.db" s ∧
    s.files.bytes? ["queue.compact"] = some [1, 2, 3] ∧ compact s = .ok () t ∧
    t.files.node? ["queue.compact"] = none := by
  obtain ⟨first, opened, hopen, hlog, hnone⟩ : ∃ first opened,
      openLog "queue.db" .empty = .ok first opened ∧
        first.log = some ⟨"queue.db", ["queue.db"], 0⟩ ∧
        first.files.node? ["queue.compact"] = none :=
    ⟨_, _, by with_unfolding_all rfl, rfl, rfl⟩
  have hthere : (first.files.set ["queue.compact"] (.file [1, 2, 3])).bytes? ["queue.compact"] =
      some [1, 2, 3] := FileTree.bytes?_set_self (by decide)
  have hmeanwhile : Meanwhile first
      { first with files := first.files.set ["queue.compact"] (.file [1, 2, 3]) } := by
    refine ⟨rfl, FileTree.keepsDirectories_set _ (by simp [hnone]), fun log h => ?_⟩
    cases hlog.symm.trans h
    rw [FileTree.bytes?, FileTree.bytes?, FileTree.node?_set_of_ne _ _ (by decide)]
  have hinUse := (InUse.opened hopen).meanwhile hmeanwhile
  obtain ⟨log, hown, -, -, -, -, hcompacts, hends⟩ := compact_spares hinUse
  cases hlog.symm.trans hown
  have hscratch : scratchLocation ["queue.db"] = ["queue.compact"] := by decide +kernel
  rw [hscratch] at hcompacts hends
  obtain ⟨t, ht⟩ := hcompacts.mpr ⟨by decide +kernel, by simp [FileTree.bytes?_eq_some.mp hthere]⟩
  exact ⟨_, t, hinUse, hthere, ht, (hends t ht).2.2 (by decide)⟩

end Store

end WorkQueue
