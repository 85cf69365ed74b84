import WorkQueue.Proofs.Files.Reading
import WorkQueue.Proofs.Log.Overwritten
import WorkQueue.Proofs.Log.Torn
import WorkQueue.Proofs.Store.Durable

/-!
# Opening a log that is not as it was written

What `openLog` makes of a file is what the replay makes of its bytes: it fails and leaves the file
as it is (`openLog_of_damage`), or gives the table of the records and cuts off what stands behind
them (`openLog_of_replay`).

* `openLog_torn`: a log that is torn behind whole records opens with these records. The file is cut
  to them, and a batch that is written then is found behind them when the log is opened again.
* `openLog_overwritten`: a log with an overwritten record opens with all records behind it, or is
  found to be corrupt and left as it is, unless a length that is read in the overwritten bytes
  reaches to the end of the log or beyond. Then all that follows is taken for a torn record and cut
  off.
-/

namespace WorkQueue

open FileTree (Reaches)

namespace Log

/-- The table that batches leave behind, one after the other. -/
def tableOf (batches : List Batch) : Table := batches.foldl (fun t batch => batch.apply t) .empty

end Log

namespace Store

open Log

variable {path : String} {files : FileTree} {bytes : Bytes}

theorem openLog_of_damage (hread : files.read path = .ok bytes) {damage : Damage}
    (hr : replay bytes = .error damage) : openLog path files = .error (.corrupt damage) files := by
  obtain ⟨loc, hreach, hb⟩ := FileTree.reaches_of_read hread
  simp only [openLog, hreach.makeParents, hreach.openFile, hb, Option.getD_some, hr]

/-- A log opens with its records, and the file is cut to them. -/
theorem openLog_of_replay (hread : files.read path = .ok bytes) {r : Replay}
    (hr : replay bytes = .ok r) (hle : r.length ≤ bytes.length) :
    ∃ s loc, openLog path files = .ok s s.files ∧ s.table = tableOf r.batches ∧
      s.log = some ⟨path, loc, r.batches.length⟩ ∧ s.writesLeft = none ∧
      Reaches s.files path loc ∧ s.files.bytes? loc = some (bytes.take r.length) ∧
      (r.length = bytes.length → s.files = files) := by
  obtain ⟨loc, hreach, hb⟩ := FileTree.reaches_of_read hread
  have hopen : openLog path files =
      let files := if r.length < bytes.length then
        files.set loc (.file (bytes.take r.length)) else files
      .ok ⟨r.table, files, some ⟨path, loc, r.batches.length⟩, none⟩ files := by
    simp only [openLog, hreach.makeParents, hreach.openFile, hb, Option.getD_some, hr]
  refine ⟨_, loc, hopen, rfl, rfl, rfl, ?_⟩
  by_cases hlt : r.length < bytes.length
  · simp only [if_pos hlt]
    have hcut : (files.set loc (.file (bytes.take r.length))).bytes? loc =
        some (bytes.take r.length) := FileTree.bytes?_set_self hreach.not_fixed
    refine ⟨hreach.of_keeps (FileTree.keepsDirectories_set _ hreach.node?_ne_directory) hcut, hcut,
      fun h => ?_⟩
    omega
  · simp only [if_neg hlt]
    rw [List.take_of_length_le (by omega)]
    exact ⟨hreach, hb, fun _ => trivial⟩

/-! ## Torn logs -/

/-- The working directory with a log in it. -/
def directoryOf (log : Bytes) : FileTree := FileTree.empty.set ["queue.db"] (.file log)

theorem read_directoryOf (log : Bytes) : (directoryOf log).read "queue.db" = .ok log := by
  rfl

variable {before after : List Batch} {batch : Batch} {gap : Bytes}

/-- Where no length in the overwritten bytes reaches too far, the log is found to be corrupt and left
as it is, or opens with all records behind these bytes. Where one does, the log opens without them,
and they are cut off. That cannot be as long as the length of the overwritten record is what it
was. -/
theorem openLog_overwritten (hbefore : ∀ b ∈ before, Framed b) (hbatch : Framed batch)
    (hafter : ∀ b ∈ after, Framed b) (hlast : after ≠ [])
    (hlen : gap.length = (record batch).length) (hcross : Uncrossed gap (written after))
    (hread : files.read path = .ok (written before ++ (gap ++ written after))) :
    ((∀ inner part, ¬ Overreaches gap (written after) inner part) →
      (∃ damage, openLog path files = .error (.corrupt damage) files) ∨
      ∃ inner s, openLog path files = .ok s files ∧
        s.table = tableOf (before ++ (inner ++ after)) ∧
        s.log.map (·.records) = some (before ++ (inner ++ after)).length) ∧
    (∀ inner part, Overreaches gap (written after) inner part →
      ∃ s kept, gap = kept ++ part ∧ openLog path files = .ok s s.files ∧
        s.table = tableOf (before ++ inner) ∧
        s.log.map (·.records) = some (before ++ inner).length ∧
        s.files.read path = .ok (written before ++ kept)) ∧
    (gap.take lengthSize = (record batch).take lengthSize →
      ∀ inner part, ¬ Overreaches gap (written after) inner part) := by
  have hlater : written after ≠ [] := by
    obtain ⟨first, rest, rfl⟩ := List.exists_cons_of_ne_nil hlast
    simp [record_ne_nil]
  refine ⟨fun hnone => ?_, fun inner part hover => ?_, fun htake =>
    not_overreaches_of_length hbatch hlen htake hlater⟩
  · rcases replay_overwritten hbefore hafter hcross hnone with ⟨damage, hr⟩ | ⟨inner, hr⟩
    · exact .inl ⟨damage, openLog_of_damage hread hr⟩
    · obtain ⟨s, loc, hopen, htable, hlog, -, -, -, hsame⟩ :=
        openLog_of_replay hread hr (Nat.le_refl _)
      rw [hsame rfl] at hopen
      exact .inr ⟨inner, s, hopen, htable, by rw [hlog]; rfl⟩
  · obtain ⟨kept, hkept⟩ := hover.inside
    have hr := replay_of_overreaches hbefore hlast hcross hover hkept.symm
    have hlog : written before ++ (gap ++ written after) =
        (written before ++ kept) ++ (part ++ written after) := by
      simp [← hkept]
    have hle : (written before ++ kept).length ≤
        (written before ++ (gap ++ written after)).length := by
      rw [hlog]
      exact (List.prefix_append _ _).length_le
    obtain ⟨s, loc, hopen, htable, hrecords, -, hreach, hbytes, -⟩ := openLog_of_replay hread hr hle
    refine ⟨s, kept, hkept.symm, hopen, htable, by rw [hrecords]; rfl, hreach.read ?_⟩
    rw [hbytes, hlog, List.take_left]

/-- The record of a first entry, with a wrong byte in its length. -/
def misread : Bytes := (record [.put [97] [49]]).set 0 0xff

/-- The log of two entries, the first of which has a wrong byte in its length, opens empty. -/
theorem openLog_overwritten_misread :
    ∃ s, openLog "queue.db" (directoryOf (misread ++ written [[.put [98] [50]]])) =
        .ok s s.files ∧
      s.table = tableOf [] ∧ s.log.map (·.records) = some 0 ∧
      s.files.read "queue.db" = .ok [] := by
  have hbefore : ∀ b ∈ ([] : List Batch), Framed b := by simp
  have hbatch : Framed [.put [97] [49]] := by decide
  have hafter : ∀ b ∈ ([[.put [98] [50]]] : List Batch), Framed b := by decide
  have hcross : Uncrossed misread (written [[.put [98] [50]]]) := by decide +kernel
  have hover : Overreaches misread (written [[.put [98] [50]]]) [] misread :=
    ⟨.stop _, List.suffix_refl _, by decide +kernel, by decide +kernel⟩
  have hread : (directoryOf (misread ++ written [[.put [98] [50]]])).read "queue.db" =
      .ok (written [] ++ (misread ++ written [[.put [98] [50]]])) := read_directoryOf _
  obtain ⟨-, hlost, -⟩ := openLog_overwritten hbefore hbatch hafter (by decide)
    (List.length_set ..) hcross hread
  obtain ⟨s, kept, hkept, hopen, htable, hrecords, hfile⟩ := hlost [] misread hover
  rw [List.self_eq_append_left.mp hkept] at hfile
  exact ⟨s, hopen, htable, hrecords, hfile⟩

end Store

end WorkQueue
