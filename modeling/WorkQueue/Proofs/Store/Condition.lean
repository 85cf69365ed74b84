import WorkQueue.Proofs.Store.Lengths

/-!
# What a log will open to

While a store is open, nothing in its table tells of records that are too long. They decide what
becomes of the log when it is opened again, its `Condition`: a `whole` log can be read back, and a
`spoilt` one is found to be corrupt where its first record is that is too long.

* `Condition.Writes`: what a batch makes of the condition of the log that it is written to;
* `Kept`: a store whose log is in a condition, which writing (`Kept.write`) and compacting
  (`Kept.compact`) change as the batches do;
* `Kept.openLog`, `Kept.corrupt`: what opening the log comes to.
-/

namespace WorkQueue

open FileTree (Reaches)

namespace Log

/-- A batch too long for a record, which has no checksum of its announced part inside. -/
def Overlong (batch : Batch) : Prop := ¬ Framed batch ∧ ¬ Sound (record batch)

/-- What a log is good for once it is closed. -/
inductive Condition where
  /-- All records can be read back. -/
  | whole
  /-- There is a record that is too long. -/
  | spoilt
deriving DecidableEq

namespace Condition

variable {c c' : Condition} {batch : Batch} {batches : List Batch}

/-- The condition of a log with the records of batches. -/
def Of : Condition → List Batch → Prop
  | whole, batches => ∀ b ∈ batches, Framed b
  | spoilt, batches => ∃ before batch after, batches = before ++ batch :: after ∧
      (∀ b ∈ before, Framed b) ∧ Overlong batch

/-- What a batch makes of the condition of the log that it is written to. -/
inductive Writes : Condition → Batch → Condition → Prop where
  | framed {c : Condition} {batch : Batch} (h : Framed batch) : Writes c batch c
  | overlong {batch : Batch} (h : Overlong batch) : Writes whole batch spoilt
  | spoilt {batch : Batch} : Writes spoilt batch spoilt

theorem Of.write (h : c.Of batches) (hw : c.Writes batch c') : c'.Of (batches ++ [batch]) := by
  have hspoilt : spoilt.Of batches → spoilt.Of (batches ++ [batch]) := by
    rintro ⟨before, long, after, rfl, hbefore, hlong⟩
    refine ⟨before, long, after ++ [batch], ?_, hbefore, hlong⟩
    rw [List.append_assoc, List.cons_append]
  cases hw with
  | framed hframed =>
    cases c with
    | whole =>
      intro b hb
      rcases List.mem_append.mp hb with hb | hb
      · exact h b hb
      · rw [List.mem_singleton.mp hb]
        exact hframed
    | spoilt => exact hspoilt h
  | overlong hlong => exact ⟨batches, batch, [], rfl, h, hlong⟩
  | spoilt => exact hspoilt h

/-- No batch is too long if there is nothing in it. -/
theorem Writes.nil (h : c.Writes [] c') : c' = c := by
  cases h with
  | framed _ => rfl
  | overlong h => exact absurd (show Framed [] by decide) h.1
  | spoilt => rfl

end Condition

end Log

namespace Store

open Log (Condition Framed written leftOver)

/-- The log at a location holds the records of the batches that made the table, and is in a
condition. -/
def Kept (c : Condition) (s : Store) (path : String) (location : Location) : Prop :=
  ∃ batches, Recorded s path location batches ∧ c.Of batches

namespace Kept

variable {c c' : Condition} {s t : Store} {path : String} {location : Location} {batch : Batch}

theorem of_logged {batches : List Batch} (h : Logged s path location batches) :
    Kept .whole s path location := ⟨batches, h.recorded, h.framed⟩

theorem writesLeft (h : Kept c s path location) : s.writesLeft = none := by
  obtain ⟨batches, hs, -⟩ := h
  exact hs.writesLeft

theorem log (h : Kept c s path location) : ∃ records, s.log = some ⟨path, location, records⟩ := by
  obtain ⟨batches, hs, -⟩ := h
  exact ⟨_, hs.log⟩

theorem reaches (h : Kept c s path location) : Reaches s.files path location := by
  obtain ⟨batches, hs, -⟩ := h
  exact hs.reaches

theorem write (h : Kept c s path location) (hw : c.Writes batch c')
    (hwrite : Store.write batch s = .ok () t) : Kept c' t path location := by
  obtain ⟨batches, hs, hc⟩ := h
  by_cases hne : batch = []
  · subst hne
    obtain rfl := hw.nil
    have hland : s.land [] = s := by
      rw [land, hs.log]
      rfl
    rw [Store.write, hs.writesLeft] at hwrite
    cases hwrite
    exact ⟨batches, hland.symm ▸ hs, hc⟩
  · obtain ⟨u, hwrite', hu, -⟩ := hs.write hne
    cases hwrite.symm.trans hwrite'
    exact ⟨_, hu, hc.write hw⟩

/-- Compacting comes to a log of the snapshot alone. -/
theorem compact (h : Kept c s path location) {scratch : Location} {opened : FileTree}
    (ho : FileTree.openFile (scratchPath path) s.files = .ok scratch opened)
    (hw : Condition.whole.Writes (snapshot s.table) c') :
    ∃ t, Store.compact s = .ok () t ∧ Kept c' t path location ∧ t.table = s.table := by
  obtain ⟨batches, hs, -⟩ := h
  obtain ⟨t, hcompact, ht, htable⟩ := hs.compact ho
  refine ⟨t, hcompact, ⟨_, ht, ?_⟩, htable⟩
  have hnone : Condition.whole.Of [] := List.forall_mem_nil _
  rw [compacted]
  split
  · rename_i hempty
    rw [List.isEmpty_iff.mp hempty] at hw
    obtain rfl := hw.nil
    exact hnone
  · exact hnone.write hw

/-- Other files do not matter, as long as the path leads to the log. -/
theorem of_files (h : Kept c s path location) {files : FileTree}
    (hreaches : Reaches files path location)
    (hbytes : files.bytes? location = s.files.bytes? location) :
    Kept c { s with files } path location := by
  obtain ⟨batches, hs, hc⟩ := h
  exact ⟨batches, ⟨hs.log, hbytes.trans hs.bytes, hs.table, hs.writesLeft, hreaches⟩, hc⟩

/-- A whole log opens to the store as it was. -/
theorem openLog (h : Kept .whole s path location) : openLog path s.files = .ok s s.files := by
  obtain ⟨batches, hs, hframed⟩ := h
  exact (hs.logged hframed).openLog

/-- A spoilt log is corrupt, in the same place whenever it is opened. -/
theorem corrupt (h : Kept .spoilt s path location) :
    ∃ damage, ∀ files, Reaches files path location →
      files.bytes? location = s.files.bytes? location →
        Store.openLog path files = .error (.corrupt damage) files := by
  obtain ⟨_, hs, before, long, after, rfl, hbefore, hlong, hsound⟩ := h
  refine ⟨.checksum (written before).length (leftOver long (written after)),
    fun files hreaches hbytes => ?_⟩
  exact openLog_of_damage (hreaches.read (hbytes.trans hs.bytes))
    (Log.replay_of_not_framed hbefore hlong hsound)

end Kept

end Store

end WorkQueue
