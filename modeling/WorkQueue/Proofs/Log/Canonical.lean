import WorkQueue.Proofs.Log.Frames

/-!
# One written form

What reads back was written: the bytes that an operation, a payload or a frame is read from are
those that are written for it, so no batch has two written forms (`payload_of_readBatch`,
`record_of_next`).

So any log is split in one way only. It begins with the records of some batches, and no whole
record stands at the beginning of the rest (`exists_reads`); these bytes are the records as they are
written (`Reads.eq_written`), and no more records can be found at the beginning of the log
(`Reads.all_written`). The replay takes the rest for a torn record (`BrokenOff`), or finds it
damaged.
-/

namespace WorkQueue.Log

/-! ## Operations -/

theorem sized_of_readSized {bytes chunk rest : Bytes} (h : readSized bytes = .ok (chunk, rest)) :
    sized chunk ++ rest = bytes ∧ chunk.length < lengthLimit := by
  simp only [readSized] at h
  split at h
  · cases h
  · rename_i hlong
    cases h
    have htake : (bytes.take lengthSize).length = lengthSize := by
      rw [List.length_take]
      omega
    have hlength : ((bytes.drop lengthSize).take
        (BigEndian.decode (bytes.take lengthSize))).length =
        BigEndian.decode (bytes.take lengthSize) := by
      rw [List.length_take]
      omega
    have hencode := BigEndian.encode_decode (bytes.take lengthSize)
    have hlimit := BigEndian.decode_lt (bytes.take lengthSize)
    rw [htake] at hencode hlimit
    refine ⟨?_, by rwa [hlength]⟩
    rw [sized, hlength, hencode, List.append_assoc, List.take_append_drop, List.take_append_drop]

private theorem exists_of_bind_ok {α β : Type} {x : Except Damage α} {f : α → Except Damage β}
    {b : β} (h : x >>= f = .ok b) : ∃ a, x = .ok a ∧ f a = .ok b := by
  cases x with
  | error damage => cases h
  | ok a => exact ⟨a, rfl, h⟩

theorem operation_of_readOperation {tag : UInt8} {bytes rest : Bytes} {op : Operation}
    (h : readOperation tag bytes = .ok (op, rest)) :
    operation op ++ rest = tag :: bytes ∧ Fits op := by
  unfold readOperation at h
  split at h
  next htag =>
    obtain ⟨⟨key, mid⟩, hkey, h⟩ := exists_of_bind_ok h
    obtain ⟨⟨value, last⟩, hvalue, h⟩ := exists_of_bind_ok h
    cases h
    obtain ⟨hk, hkf⟩ := sized_of_readSized hkey
    obtain ⟨hv, hvf⟩ := sized_of_readSized hvalue
    refine ⟨?_, hkf, hvf⟩
    rw [operation, List.cons_append, List.append_assoc, hv, hk, htag]
  next =>
    split at h
    next htag =>
      obtain ⟨⟨key, mid⟩, hkey, h⟩ := exists_of_bind_ok h
      cases h
      obtain ⟨hk, hkf⟩ := sized_of_readSized hkey
      refine ⟨?_, hkf⟩
      rw [operation, List.cons_append, hk, htag]
    next => cases h

/-- A payload that reads back is the one that is written for its batch. -/
theorem payload_of_readBatch {bytes : Bytes} {batch : Batch} (h : readBatch bytes = .ok batch) :
    payload batch = bytes := by
  fun_induction readBatch bytes generalizing batch with
  | case1 =>
    cases h
    rfl
  | case2 => cases h
  | case3 tag bytes op rest hop ih =>
    cases hrest : readBatch rest with
    | error damage =>
      rw [hrest] at h
      cases h
    | ok more =>
      rw [hrest] at h
      cases h
      rw [payload, List.flatMap_cons, ← payload, ih hrest]
      exact (operation_of_readOperation hop).1

/-! ## Records -/

theorem announced_lt {log : Bytes} (h : span log ≤ log.length) : announced log < lengthLimit := by
  have htake : (log.take lengthSize).length = lengthSize := by
    rw [List.length_take]
    rw [span] at h
    omega
  have hlt := BigEndian.decode_lt (log.take lengthSize)
  rwa [htake] at hlt

/-- A frame that is all there and sound is the one that is written for its payload. -/
theorem frame_enclosed {log : Bytes} (h : span log ≤ log.length) (hs : Sound log) :
    frame (enclosed log) ++ log.drop (span log) = log ∧ (enclosed log).length = announced log := by
  have hspan : lengthSize + announced log + checksumSize ≤ log.length := h
  have htake : (log.take lengthSize).length = lengthSize := by
    rw [List.length_take]
    omega
  have hlength : (enclosed log).length = announced log := by
    rw [enclosed, List.length_take, List.length_drop]
    omega
  have hencode : BigEndian.encode lengthSize (announced log) = log.take lengthSize := by
    have := BigEndian.encode_decode (log.take lengthSize)
    rwa [htake] at this
  have hdrop : log.drop (span log) =
      ((log.drop lengthSize).drop (announced log)).drop checksumSize := by
    rw [List.drop_drop, List.drop_drop, span, Nat.add_assoc]
  refine ⟨?_, hlength⟩
  rw [frame, ← hs, sized, hlength, hencode, hdrop, List.append_assoc, List.append_assoc,
    List.take_append_drop, enclosed, List.take_append_drop, List.take_append_drop]

/-- What is taken for a record is the record that is written for its batch. -/
theorem record_of_next {offset : Nat} {log rest : Bytes} {batch : Batch}
    (h : next offset log = .record batch rest) : record batch ++ rest = log ∧ Framed batch := by
  obtain ⟨-, hlen, hsound, hread, rfl⟩ := next_record_iff.mp h
  obtain ⟨hframe, hlength⟩ := frame_enclosed hlen hsound
  rw [Framed, record, payload_of_readBatch hread]
  exact ⟨hframe, hlength ▸ announced_lt hlen⟩

/-! ## All records at the beginning of a log -/

/-- No whole record stands at the beginning. -/
def Recordless (log : Bytes) : Prop := ∀ batch rest, next 0 log ≠ .record batch rest

/-- The log is at an end, or ends with a frame that is cut short or fails its checksum. -/
def BrokenOff (log : Bytes) : Prop :=
  log.length < span log ∨ log.length = span log ∧ ¬ Sound log

instance (log : Bytes) : Decidable (BrokenOff log) :=
  inferInstanceAs (Decidable (_ ∨ _))

theorem brokenOff_iff {log : Bytes} : BrokenOff log ↔ log = [] ∨ next 0 log = .torn := by
  rw [next_torn_iff]
  by_cases h : log = []
  · subst h
    exact iff_of_true (.inl (by decide)) (.inl rfl)
  · simp [BrokenOff, h]

/-- Behind the last record, a log is broken off or damaged. -/
theorem Recordless.damaged {log : Bytes} (h : Recordless log) (hb : ¬ BrokenOff log)
    (offset : Nat) : ∃ damage, next offset log = .damaged damage := by
  rw [brokenOff_iff, not_or] at hb
  cases hn : next offset log with
  | done =>
    rw [next_eq, if_neg hb.1] at hn
    split at hn
    · cases hn
    · split at hn
      · split at hn <;> cases hn
      · split at hn <;> cases hn
  | torn => exact absurd (next_torn_of_offset 0 hn) hb.2
  | damaged damage => exact ⟨damage, rfl⟩
  | record batch rest => exact absurd (next_record_of_offset 0 hn) (h batch rest)

/-- Any log begins with records, behind which no other stands. -/
theorem exists_reads (log : Bytes) : ∃ batches rest, Reads log batches rest ∧ Recordless rest := by
  -- By induction on the length of what is left behind each record.
  induction hn : log.length using Nat.strongRecOn generalizing log with
  | _ n ih =>
    by_cases h : Recordless log
    · exact ⟨[], log, .stop log, h⟩
    · simp only [Recordless, Classical.not_forall, Classical.not_not] at h
      obtain ⟨batch, mid, hfirst⟩ := h
      obtain ⟨batches, rest, hreads, hrest⟩ := ih _ (hn ▸ length_lt_of_next hfirst) mid rfl
      exact ⟨batch :: batches, rest, .record hfirst hreads, hrest⟩

namespace Reads

variable {log rest rest' : Bytes} {batches more : List Batch}

/-- What is read as records is the records as they are written. -/
theorem eq_written (h : Reads log batches rest) :
    written batches ++ rest = log ∧ ∀ b ∈ batches, Framed b := by
  induction h with
  | stop log => exact ⟨rfl, nofun⟩
  | record hfirst _ ih =>
    obtain ⟨hrecord, hframed⟩ := record_of_next hfirst
    refine ⟨?_, List.forall_mem_cons.mpr ⟨hframed, ih.2⟩⟩
    rw [written_cons, List.append_assoc, ih.1, hrecord]

/-- Two readings of a log agree as far as both go. -/
theorem isPrefix (h : Reads log batches rest) (hrest : Recordless rest)
    (h' : Reads log more rest') : more <+: batches := by
  induction h generalizing more with
  | stop log =>
    cases h' with
    | stop => exact List.prefix_rfl
    | record hfirst _ => exact absurd hfirst (hrest _ _)
  | record hfirst _ ih =>
    cases h' with
    | stop => exact List.nil_prefix
    | record hfirst' hmore' =>
      cases hfirst.symm.trans hfirst'
      exact List.cons_prefix_cons.mpr ⟨rfl, ih hrest hmore'⟩

/-- The records are all that can be found at the beginning of the log. -/
theorem all_written (h : Reads log batches rest) (hrest : Recordless rest)
    (hframed : ∀ b ∈ more, Framed b) (hmore : written more <+: log) : more <+: batches := by
  obtain ⟨tail, rfl⟩ := hmore
  exact h.isPrefix hrest (reads_written hframed tail)

end Reads

end WorkQueue.Log
