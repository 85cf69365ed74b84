import WorkQueue.Proofs.Log.Canonical
import WorkQueue.Proofs.Store.Recovery

/-!
# Opening any bytes

Whatever bytes a log file holds, they are split in one way into records and a rest. A rest that
looks like a torn record is cut off, and the store is that of the records (`openLog_of_reads`); any
other one is damage, and the file is left as it is (`openLog_of_damaged`). So an opened store always
has a file that holds what it is made of (`exists_logged_of_openLog`).

* `openLog_longest`: both together, for any file. The records are the longest beginning of the file
  that was written as records, and a file that was opened once opens again to the same store.
-/

namespace WorkQueue

open FileTree (Reaches)

namespace Store

open Log

variable {path : String} {files : FileTree} {bytes rest : Bytes} {batches : List Batch}

/-- Where a rest is broken off behind the records, it is cut off, and the file holds what the store
is made of. -/
theorem logged_of_reads (hread : files.read path = .ok bytes) (hreads : Reads bytes batches rest)
    (hrest : BrokenOff rest) :
    ∃ s location, openLog path files = .ok s s.files ∧ Logged s path location batches := by
  obtain ⟨hbytes, hframed⟩ := hreads.eq_written
  have hlength : bytes.length - rest.length = (written batches).length := by
    rw [← hbytes, List.length_append, Nat.add_sub_cancel]
  have hreplay := hreads.replay_torn (brokenOff_iff.mp hrest)
  obtain ⟨s, location, hopen, htable, hlog, hleft, hreach, hcut, -⟩ :=
    openLog_of_replay hread hreplay (Nat.sub_le _ _)
  simp only [hlength] at hcut
  rw [← hbytes, List.take_left] at hcut
  exact ⟨s, location, hopen, hlog, hcut, htable, hframed, hleft, hreach⟩

/-- The file then opens to the same store again. -/
theorem openLog_of_reads (hread : files.read path = .ok bytes) (hreads : Reads bytes batches rest)
    (hrest : BrokenOff rest) :
    ∃ s, openLog path files = .ok s s.files ∧ s.table = tableOf batches ∧
      s.log.map (·.records) = some batches.length ∧ s.files.read path = .ok (written batches) ∧
      openLog path s.files = .ok s s.files := by
  obtain ⟨s, location, hopen, hs⟩ := logged_of_reads hread hreads hrest
  exact ⟨s, hopen, hs.table, by rw [hs.log]; rfl, hs.reaches.read hs.bytes, hs.openLog⟩

theorem openLog_of_damaged (hread : files.read path = .ok bytes)
    (hreads : Reads bytes batches rest) (hnone : Recordless rest) (hrest : ¬ BrokenOff rest) :
    ∃ damage, openLog path files = .error (.corrupt damage) files := by
  obtain ⟨damage, hdamage⟩ := hnone.damaged hrest (bytes.length - rest.length)
  exact ⟨damage, openLog_of_damage hread (hreads.replay_damaged hdamage)⟩

/-- Whatever file a store was opened from, its file holds what it is made of. -/
theorem exists_logged_of_openLog {s : Store} {files' : FileTree}
    (h : openLog path files = .ok s files') :
    ∃ location batches, Logged s path location batches := by
  have hsplit := h
  unfold openLog at hsplit
  split at hsplit
  · cases hsplit
  rename_i parents hp
  split at hsplit
  · cases hsplit
  rename_i location opened ho
  have hreach := FileTree.reaches_of_openFile hp ho
  obtain ⟨bytes, hb⟩ := hreach.file
  have hread := hreach.read hb
  have hopened : openLog path opened = .ok s files' := by
    rw [← h]
    simp only [openLog, hp, ho, hreach.makeParents, hreach.openFile]
  obtain ⟨batches, rest, hreads, hnone⟩ := exists_reads bytes
  by_cases hrest : BrokenOff rest
  · obtain ⟨s', location', hopen, hs⟩ := logged_of_reads hread hreads hrest
    cases hopened.symm.trans hopen
    exact ⟨location', batches, hs⟩
  · obtain ⟨damage, hdamage⟩ := openLog_of_damaged hread hreads hnone hrest
    cases hopened.symm.trans hdamage

/-- Any log file is a longest sequence of records and a rest. If the rest is broken off, opening
cuts the file to the records and makes their table, as opening again does without a change to the
file; otherwise the log is found to be corrupt, and the file is left as it is. -/
theorem openLog_longest (hread : files.read path = .ok bytes) :
    ∃ batches rest, bytes = written batches ++ rest ∧ (∀ b ∈ batches, Framed b) ∧
      (∀ more, (∀ b ∈ more, Framed b) → written more <+: bytes →
        written more <+: written batches) ∧
      (BrokenOff rest → ∃ s, openLog path files = .ok s s.files ∧ s.table = tableOf batches ∧
        s.log.map (·.records) = some batches.length ∧
        s.files.read path = .ok (written batches) ∧ openLog path s.files = .ok s s.files) ∧
      (¬ BrokenOff rest → ∃ damage, openLog path files = .error (.corrupt damage) files) := by
  obtain ⟨batches, rest, hreads, hnone⟩ := exists_reads bytes
  obtain ⟨hbytes, hframed⟩ := hreads.eq_written
  refine ⟨batches, rest, hbytes.symm, hframed, fun more hmore hprefix => ?_,
    openLog_of_reads hread hreads, openLog_of_damaged hread hreads hnone⟩
  obtain ⟨others, rfl⟩ := hreads.all_written hnone hmore hprefix
  exact ⟨written others, (written_append more others).symm⟩

/-- The log of an entry, a sound frame that holds no operations, and an entry. -/
def strayFrame : Bytes :=
  record [.put [97] [49]] ++ (frame [7] ++ record [.put [98] [50]])

/-- The log with a frame that holds no operations. -/
theorem openLog_longest_strayFrame :
    (directoryOf strayFrame).read "queue.db" = .ok strayFrame ∧
    ∃ batches rest, strayFrame = written batches ++ rest ∧ (∀ b ∈ batches, Framed b) ∧
      (∀ more, (∀ b ∈ more, Framed b) → written more <+: strayFrame →
        written more <+: written batches) ∧
      (BrokenOff rest → ∃ s, openLog "queue.db" (directoryOf strayFrame) = .ok s s.files ∧
        s.table = tableOf batches ∧ s.log.map (·.records) = some batches.length ∧
        s.files.read "queue.db" = .ok (written batches) ∧
        openLog "queue.db" s.files = .ok s s.files) ∧
      (¬ BrokenOff rest → ∃ damage, openLog "queue.db" (directoryOf strayFrame) =
        .error (.corrupt damage) (directoryOf strayFrame)) :=
  ⟨read_directoryOf _, openLog_longest (read_directoryOf _)⟩

end Store

end WorkQueue
