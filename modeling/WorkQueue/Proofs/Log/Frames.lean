import WorkQueue.Proofs.Log.Written

/-!
# A log read frame by frame

What `next` finds at the beginning of a log is decided by three things (`next_eq`): how many bytes
the frame there takes up by the length that it announces (`span`), whether its checksum is right
(`Sound`), and what its payload (`enclosed`) reads as.

`Reads log batches rest` says that the log begins with whole records of the batches, behind which
the rest stands. Replaying goes through them and on with the rest (`Reads.replayFrom`).
-/

namespace WorkQueue.Log

/-! ## The frame at the beginning -/

/-- The length of the payload that a log announces at its beginning. -/
def announced (log : Bytes) : Nat := BigEndian.decode (log.take lengthSize)

/-- The number of bytes that the frame at the beginning takes up, by the length it announces. -/
def span (log : Bytes) : Nat := lengthSize + announced log + checksumSize

/-- The payload of the frame at the beginning, by the length it announces. -/
def enclosed (log : Bytes) : Bytes := (log.drop lengthSize).take (announced log)

/-- The checksum of the frame at the beginning is that of its payload. -/
def Sound (log : Bytes) : Prop :=
  ((log.drop lengthSize).drop (announced log)).take checksumSize = checksum (enclosed log)

instance (log : Bytes) : Decidable (Sound log) :=
  inferInstanceAs (Decidable (_ = checksum (enclosed log)))

theorem next_eq (offset : Nat) (log : Bytes) : next offset log =
    if log = [] then .done
    else if log.length < span log then .torn
    else if Sound log then
      match readBatch (enclosed log) with
      | .error damage => .damaged damage
      | .ok batch => .record batch (log.drop (span log))
    else if log.length = span log then .torn
    else .damaged (.checksum offset (log.length - span log)) := by
  have hshort : (log.length < lengthSize ∨
      (log.drop lengthSize).length < announced log + checksumSize) ↔ log.length < span log := by
    rw [List.length_drop, span]
    omega
  have hrest : (log.drop lengthSize).drop (announced log + checksumSize) = log.drop (span log) := by
    rw [List.drop_drop, span, Nat.add_assoc]
  have hnext : next offset log =
      if log = [] then .done
      else if log.length < lengthSize ∨
        (log.drop lengthSize).length < announced log + checksumSize then .torn
      else if ¬ Sound log then
        if log.drop (span log) = [] then .torn
        else .damaged (.checksum offset (log.drop (span log)).length)
      else
        match readBatch (enclosed log) with
        | .error damage => .damaged damage
        | .ok batch => .record batch (log.drop (span log)) := by
    rw [← hrest]
    rfl
  rw [hnext]
  simp only [hshort]
  simp only [List.length_drop, List.drop_eq_nil_iff]
  split
  · rfl
  split
  · rfl
  rename_i hlong
  by_cases hs : Sound log
  · rw [if_pos hs, if_neg (not_not_intro hs)]
  · have hend : log.length ≤ span log ↔ log.length = span log := by omega
    simp only [if_neg hs, if_pos hs, hend]

theorem next_torn_iff {offset : Nat} {log : Bytes} : next offset log = .torn ↔
    log ≠ [] ∧ (log.length < span log ∨ log.length = span log ∧ ¬ Sound log) := by
  rw [next_eq]
  split
  · simp_all
  split
  · simp_all
  split
  · split <;> simp_all
  · split <;> simp_all

theorem next_record_iff {offset : Nat} {log rest : Bytes} {batch : Batch} :
    next offset log = .record batch rest ↔ log ≠ [] ∧ span log ≤ log.length ∧ Sound log ∧
      readBatch (enclosed log) = .ok batch ∧ log.drop (span log) = rest := by
  rw [next_eq]
  split
  · simp_all
  split
  · rename_i hshort
    exact iff_of_false nofun fun h => absurd hshort (Nat.not_lt.mpr h.2.1)
  split
  · split <;> simp_all
  · split <;> simp_all

/-- Where a frame begins plays no part in what it is. -/
theorem next_record_of_offset {offset : Nat} (offset' : Nat) {log rest : Bytes} {batch : Batch}
    (h : next offset log = .record batch rest) : next offset' log = .record batch rest :=
  next_record_iff.mpr (next_record_iff.mp h)

theorem next_torn_of_offset {offset : Nat} (offset' : Nat) {log : Bytes}
    (h : next offset log = .torn) : next offset' log = .torn :=
  next_torn_iff.mpr (next_torn_iff.mp h)

/-! ## Frames and what they begin with -/

theorem announced_sized {payload : Bytes} (rest : Bytes) (h : payload.length < lengthLimit) :
    announced (sized payload ++ rest) = payload.length := by
  rw [announced, sized, List.append_assoc, List.take_left' (BigEndian.length_encode ..),
    BigEndian.decode_encode h]

theorem span_sized {payload : Bytes} (rest : Bytes) (h : payload.length < lengthLimit) :
    span (sized payload ++ rest) = (sized payload).length + checksumSize := by
  rw [span, announced_sized rest h, length_sized]

theorem span_record {batch : Batch} (rest : Bytes) (h : Framed batch) :
    span (record batch ++ rest) = (record batch).length := by
  rw [record, frame, List.append_assoc, span_sized _ h, List.length_append, length_checksum]

theorem drop_lengthSize_sized (payload rest : Bytes) :
    (sized payload ++ rest).drop lengthSize = payload ++ rest := by
  rw [sized, List.append_assoc, List.drop_left' (BigEndian.length_encode ..)]

/-- A frame is sound if and only if the bytes behind its payload are the payload's checksum. -/
theorem sound_sized_iff {payload sum : Bytes} (rest : Bytes) (h : payload.length < lengthLimit)
    (hs : sum.length = checksumSize) :
    Sound (sized payload ++ (sum ++ rest)) ↔ sum = checksum payload := by
  rw [Sound, enclosed, announced_sized _ h, drop_lengthSize_sized, List.drop_left, List.take_left,
    List.take_left' hs]

/-- A log and another that agree on the length announce frames of the same number of bytes. -/
theorem span_congr {log log' : Bytes} (h : log.take lengthSize = log'.take lengthSize) :
    span log = span log' := by
  rw [span, span, announced, announced, h]

/-! ## Going on with the rest -/

/-- A log begins with whole records of the batches, and the rest is what stands behind them. -/
inductive Reads : Bytes → List Batch → Bytes → Prop where
  | stop (log : Bytes) : Reads log [] log
  | record {log mid rest : Bytes} {batch : Batch} {batches : List Batch}
      (first : next 0 log = .record batch mid) (more : Reads mid batches rest) :
      Reads log (batch :: batches) rest

namespace Reads

variable {log mid rest : Bytes} {batches first second : List Batch}

theorem trans (h : Reads log first mid) (h' : Reads mid second rest) :
    Reads log (first ++ second) rest := by
  induction h with
  | stop => exact h'
  | record hn _ ih => exact .record hn (ih h')

theorem length_le (h : Reads log batches rest) : rest.length ≤ log.length := by
  induction h with
  | stop => exact Nat.le_refl _
  | record hn _ ih => exact Nat.le_trans ih (Nat.le_of_lt (length_lt_of_next hn))

/-- The replay takes in the records and goes on with the rest. -/
theorem replayFrom (h : Reads log batches rest) (offset : Nat) :
    replayFrom offset log =
      (Log.replayFrom (offset + (log.length - rest.length)) rest).map fun r =>
        ⟨batches ++ r.batches, r.length⟩ := by
  induction h generalizing offset with
  | stop log =>
    rw [Nat.sub_self, Nat.add_zero]
    cases Log.replayFrom offset log <;> rfl
  | @record log mid rest batch batches hn hmore ih =>
    have hlt := length_lt_of_next hn
    have hle := hmore.length_le
    have hoffset : offset + (log.length - mid.length) + (mid.length - rest.length) =
        offset + (log.length - rest.length) := by omega
    rw [replayFrom_of_record (next_record_of_offset offset hn), ih, hoffset]
    cases Log.replayFrom (offset + (log.length - rest.length)) rest <;> rfl

/-- A log that ends, or is torn, behind its records replays to them. -/
theorem replay_torn (h : Reads log batches rest) (ht : rest = [] ∨ next 0 rest = .torn) :
    replay log = .ok ⟨batches, log.length - rest.length⟩ := by
  have hrest : ∀ offset, Log.replayFrom offset rest = .ok ⟨[], offset⟩ := by
    intro offset
    rw [Log.replayFrom]
    rcases ht with rfl | ht
    · rfl
    · have ht := next_torn_of_offset offset ht
      split
      · rfl
      · rfl
      all_goals
        rename_i hn
        cases hn.symm.trans ht
  rw [replay, h.replayFrom, hrest, Nat.zero_add, Except.map, List.append_nil]

/-- A log that is damaged behind its records does not replay. -/
theorem replay_damaged (h : Reads log batches rest) {damage : Damage}
    (hd : next (log.length - rest.length) rest = .damaged damage) : replay log = .error damage := by
  have hrest : Log.replayFrom (log.length - rest.length) rest = .error damage := by
    rw [Log.replayFrom]
    split
    all_goals
      rename_i hn
      cases hn.symm.trans hd
    rfl
  rw [replay, h.replayFrom, Nat.zero_add, hrest, Except.map]

end Reads

theorem reads_written {batches : List Batch} (h : ∀ b ∈ batches, Framed b) (rest : Bytes) :
    Reads (written batches ++ rest) batches rest := by
  induction batches with
  | nil => exact .stop rest
  | cons batch batches ih =>
    rw [written_cons, List.append_assoc]
    exact .record (next_record 0 _ (h batch List.mem_cons_self))
      (ih fun b hb => h b (List.mem_cons_of_mem _ hb))

end WorkQueue.Log
