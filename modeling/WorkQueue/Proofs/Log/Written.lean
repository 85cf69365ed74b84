import WorkQueue.Log.Replay

/-!
# Logs of whole records

A log that was written record by record replays to the batches that were written, and to the end
(`replay_written`). All that is asked of a batch is `Framed`: its payload is shorter than the least
number that is too large for a length, and then so are the keys and values in it
(`Framed.fits`).
-/

namespace WorkQueue.Log

/-- The length of a batch's payload can be written. -/
def Framed (batch : Batch) : Prop := (payload batch).length < lengthLimit

instance (batch : Batch) : Decidable (Framed batch) :=
  inferInstanceAs (Decidable ((payload batch).length < lengthLimit))

/-- The records of batches, one after the other. -/
def written (batches : List Batch) : Bytes := batches.flatMap record

@[simp] theorem written_nil : written [] = [] := rfl

@[simp] theorem written_cons (batch : Batch) (batches : List Batch) :
    written (batch :: batches) = record batch ++ written batches := rfl

theorem written_append (first second : List Batch) :
    written (first ++ second) = written first ++ written second := List.flatMap_append

@[simp] theorem length_record (batch : Batch) :
    (record batch).length = lengthSize + (payload batch).length + checksumSize := by
  simp [record, frame]

@[simp] theorem length_payload_nil : (payload []).length = 0 := rfl

@[simp] theorem length_payload_cons (op : Operation) (batch : Batch) :
    (payload (op :: batch)).length = (operation op).length + (payload batch).length := by
  simp [payload]

@[simp] theorem length_operation_put (key value : Bytes) :
    (operation (.put key value)).length = 9 + key.length + value.length := by
  simp [operation, lengthSize]
  omega

@[simp] theorem length_operation_delete (key : Bytes) :
    (operation (.delete key)).length = 5 + key.length := by
  simp [operation, lengthSize]
  omega

theorem record_ne_nil (batch : Batch) : record batch ≠ [] := by
  intro h
  have hl := length_record batch
  rw [h, List.length_nil, checksumSize] at hl
  omega

/-- The keys and values of an operation are parts of the payload. -/
private theorem length_operation_le {op : Operation} {batch : Batch} (h : op ∈ batch) :
    (operation op).length ≤ (payload batch).length := by
  induction batch with
  | nil => cases h
  | cons first rest ih =>
    simp only [payload, List.flatMap_cons, List.length_append] at ih ⊢
    rcases List.mem_cons.mp h with rfl | h
    · omega
    · have := ih h
      omega

theorem Framed.fits {batch : Batch} (h : Framed batch) : ∀ op ∈ batch, Fits op := by
  intro op hop
  have hle := length_operation_le hop
  unfold Framed at h
  cases op with
  | put key value =>
    simp only [operation, List.length_cons, List.length_append, length_sized] at hle
    exact ⟨by omega, by omega⟩
  | delete key =>
    simp only [operation, List.length_cons, length_sized] at hle
    show key.length < lengthLimit
    omega

/-- A log that begins with a whole record. -/
theorem next_record (offset : Nat) {batch : Batch} (rest : Bytes) (h : Framed batch) :
    next offset (record batch ++ rest) = .record batch rest := by
  have hrec : record batch ++ rest =
      BigEndian.encode lengthSize (payload batch).length ++
        (payload batch ++ (checksum (payload batch) ++ rest)) := by
    simp [record, frame, sized]
  have htake : (record batch ++ rest).take lengthSize =
      BigEndian.encode lengthSize (payload batch).length := by
    rw [hrec, List.take_left' (BigEndian.length_encode ..)]
  have hdrop : (record batch ++ rest).drop lengthSize =
      payload batch ++ (checksum (payload batch) ++ rest) := by
    rw [hrec, List.drop_left' (BigEndian.length_encode ..)]
  have hsize : BigEndian.decode (BigEndian.encode lengthSize (payload batch).length) =
      (payload batch).length := BigEndian.decode_encode h
  have hsum : ((payload batch ++ (checksum (payload batch) ++ rest)).drop
      (payload batch).length).take checksumSize = checksum (payload batch) := by
    rw [List.drop_left, List.take_left' (length_checksum _)]
  have hrest : (payload batch ++ (checksum (payload batch) ++ rest)).drop
      ((payload batch).length + checksumSize) = rest := by
    rw [← List.drop_drop, List.drop_left, List.drop_left' (length_checksum _)]
  have hne : record batch ++ rest ≠ [] := by simp [record_ne_nil]
  have hlen : (record batch ++ rest).length = lengthSize + (payload batch).length +
      checksumSize + rest.length := by rw [List.length_append, length_record]
  simp only [next, htake, hdrop, hsize, hsum, hrest, List.take_left, ne_eq, not_true_eq_false,
    if_false, readBatch_payload h.fits]
  rw [if_neg hne, if_neg]
  simp only [hlen, List.length_append, length_checksum]
  omega

/-- One step of the replay. -/
theorem replayFrom_of_record {offset : Nat} {log rest : Bytes} {batch : Batch}
    (h : next offset log = .record batch rest) :
    replayFrom offset log = (replayFrom (offset + (log.length - rest.length)) rest).map fun r =>
      ⟨batch :: r.batches, r.length⟩ := by
  rw [replayFrom]
  split
  all_goals
    rename_i hn
    rw [h] at hn
    cases hn
  rfl

theorem replayFrom_written (offset : Nat) {batches : List Batch} (h : ∀ b ∈ batches, Framed b) :
    replayFrom offset (written batches) = .ok ⟨batches, offset + (written batches).length⟩ := by
  induction batches generalizing offset with
  | nil => rw [replayFrom]; rfl
  | cons batch batches ih =>
    have hlen : (record batch ++ written batches).length - (written batches).length =
        (record batch).length := by rw [List.length_append, Nat.add_sub_cancel]
    rw [written_cons,
      replayFrom_of_record (next_record offset (written batches) (h batch List.mem_cons_self)),
      ih _ fun b hb => h b (List.mem_cons_of_mem _ hb), hlen, List.length_append, Nat.add_assoc]
    rfl

/-- A log that was written record by record is read back to its end. -/
theorem replay_written {batches : List Batch} (h : ∀ b ∈ batches, Framed b) :
    replay (written batches) = .ok ⟨batches, (written batches).length⟩ := by
  rw [replay, replayFrom_written 0 h, Nat.zero_add]

end WorkQueue.Log
