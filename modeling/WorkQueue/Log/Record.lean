import WorkQueue.Blake3
import WorkQueue.Bytes.BigEndian
import WorkQueue.Error
import WorkQueue.Store.Batch

/-!
# Records of the log

A batch is written as one record: the length of the payload in four bytes, the payload, and the
first eight bytes of the hash of the payload. The payload is the operations one after the other,
each with a tag, 1 for `put` and 2 for `delete`, and with its key and value behind their lengths.

`payload` and `record` write, `readBatch` reads a payload back. A length of `lengthLimit` or more is
cut down to four bytes, so `readBatch_payload` asks for shorter keys and values.
-/

namespace WorkQueue.Log

/-- The number of bytes of a length. -/
def lengthSize : Nat := 4

/-- The least number that is too large for a length. -/
def lengthLimit : Nat := BigEndian.capacity lengthSize

/-- The number of bytes of a checksum. -/
def checksumSize : Nat := 8

/-! ## Writing -/

/-- Bytes behind their length. -/
def sized (bytes : Bytes) : Bytes := BigEndian.encode lengthSize bytes.length ++ bytes

/-- An operation as it is written. -/
def operation : Operation → Bytes
  | .put key value => 1 :: (sized key ++ sized value)
  | .delete key => 2 :: sized key

/-- The operations of a batch, one after the other. -/
def payload (batch : Batch) : Bytes := batch.flatMap operation

/-- The bytes that guard a payload. -/
def checksum (payload : Bytes) : Bytes := (Blake3.hash payload).take checksumSize

/-- A payload between its length and its checksum. -/
def frame (payload : Bytes) : Bytes := sized payload ++ checksum payload

/-- A batch as it is written. -/
def record (batch : Batch) : Bytes := frame (payload batch)

@[simp] theorem length_sized (bytes : Bytes) :
    (sized bytes).length = lengthSize + bytes.length := by
  simp [sized]

@[simp] theorem length_checksum (bytes : Bytes) : (checksum bytes).length = checksumSize := by
  simp [checksum, checksumSize]

/-! ## Reading -/

/-- The bytes behind their length, and what follows them. -/
def readSized (bytes : Bytes) : Except Damage (Bytes × Bytes) :=
  let size := BigEndian.decode (bytes.take lengthSize)
  let rest := bytes.drop lengthSize
  if bytes.length < lengthSize ∨ rest.length < size then .error .operationCut
  else .ok (rest.take size, rest.drop size)

/-- The operation with the given tag, and what follows it. -/
def readOperation (tag : UInt8) (bytes : Bytes) : Except Damage (Operation × Bytes) :=
  if tag = 1 then do
    let (key, rest) ← readSized bytes
    let (value, rest) ← readSized rest
    return (.put key value, rest)
  else if tag = 2 then do
    let (key, rest) ← readSized bytes
    return (.delete key, rest)
  else .error (.operationTag tag)

theorem length_le_of_readSized {bytes chunk rest : Bytes}
    (h : readSized bytes = .ok (chunk, rest)) : rest.length ≤ bytes.length := by
  simp only [readSized] at h
  split at h
  · cases h
  · cases h
    simp only [List.length_drop]
    omega

theorem length_le_of_readOperation {tag : UInt8} {bytes rest : Bytes} {op : Operation}
    (h : readOperation tag bytes = .ok (op, rest)) : rest.length ≤ bytes.length := by
  unfold readOperation at h
  split at h
  · cases hk : readSized bytes with
    | error e => simp [hk, bind, Except.bind] at h
    | ok chunk =>
      obtain ⟨key, rest'⟩ := chunk
      cases hv : readSized rest' with
      | error e => simp [hk, hv, bind, Except.bind] at h
      | ok chunk' =>
        obtain ⟨value, rest''⟩ := chunk'
        simp only [hk, hv, bind, Except.bind, pure, Except.pure, Except.ok.injEq,
          Prod.mk.injEq] at h
        have h1 := length_le_of_readSized hk
        have h2 := length_le_of_readSized hv
        rw [← h.2]
        omega
  · split at h
    · cases hk : readSized bytes with
      | error e => simp [hk, bind, Except.bind] at h
      | ok chunk =>
        obtain ⟨key, rest'⟩ := chunk
        simp only [hk, bind, Except.bind, pure, Except.pure, Except.ok.injEq,
          Prod.mk.injEq] at h
        exact h.2 ▸ length_le_of_readSized hk
    · cases h

/-- The operations of a payload. -/
def readBatch (bytes : Bytes) : Except Damage Batch :=
  match bytes with
  | [] => .ok []
  | tag :: bytes =>
    match _h : readOperation tag bytes with
    | .error damage => .error damage
    | .ok (op, rest) => (readBatch rest).map (op :: ·)
termination_by bytes.length
decreasing_by
  have := length_le_of_readOperation _h
  simp only [List.length_cons]
  omega

theorem readSized_sized {bytes : Bytes} (rest : Bytes) (h : bytes.length < lengthLimit) :
    readSized (sized bytes ++ rest) = .ok (bytes, rest) := by
  have ht : (sized bytes ++ rest).take lengthSize = BigEndian.encode lengthSize bytes.length := by
    rw [sized, List.append_assoc, List.take_left' (BigEndian.length_encode ..)]
  have hd : (sized bytes ++ rest).drop lengthSize = bytes ++ rest := by
    rw [sized, List.append_assoc, List.drop_left' (BigEndian.length_encode ..)]
  have hs : BigEndian.decode (BigEndian.encode lengthSize bytes.length) = bytes.length :=
    BigEndian.decode_encode h
  simp [readSized, ht, hd, hs]
  omega

/-- Whether the lengths in an operation are below the limit. -/
def Fits : Operation → Prop
  | .put key value => key.length < lengthLimit ∧ value.length < lengthLimit
  | .delete key => key.length < lengthLimit

theorem readOperation_operation {op : Operation} (rest : Bytes) (h : Fits op) :
    ∃ tag bytes, operation op = tag :: bytes ∧
      readOperation tag (bytes ++ rest) = .ok (op, rest) := by
  cases op with
  | put key value =>
    refine ⟨1, sized key ++ sized value, rfl, ?_⟩
    simp [readOperation, readSized_sized _ h.1, readSized_sized _ h.2, bind, Except.bind, pure,
      Except.pure]
  | delete key =>
    refine ⟨2, sized key, rfl, ?_⟩
    simp [readOperation, readSized_sized _ h, bind, Except.bind, pure, Except.pure]

theorem readBatch_cons {tag : UInt8} {bytes rest : Bytes} {op : Operation}
    (h : readOperation tag bytes = .ok (op, rest)) :
    readBatch (tag :: bytes) = (readBatch rest).map (op :: ·) := by
  rw [readBatch]
  split
  · rename_i damage hd
    rw [h] at hd
    cases hd
  · rename_i op' rest' ho
    rw [h] at ho
    cases ho
    rfl

/-- A payload reads back. -/
theorem readBatch_payload {batch : Batch} (h : ∀ op ∈ batch, Fits op) :
    readBatch (payload batch) = .ok batch := by
  induction batch with
  | nil => rw [payload, List.flatMap_nil, readBatch]
  | cons op batch ih =>
    obtain ⟨tag, bytes, hop, hread⟩ := readOperation_operation (payload batch) (h op (by simp))
    have hp : payload (op :: batch) = tag :: (bytes ++ payload batch) := by
      rw [payload, List.flatMap_cons, hop, List.cons_append, payload]
    rw [hp, readBatch_cons hread, ih fun o ho => h o (List.mem_cons_of_mem _ ho)]
    rfl

end WorkQueue.Log
