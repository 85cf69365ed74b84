import WorkQueue.Proofs.Log.Canonical

/-!
# What a payload reads as

Reading a payload undoes writing it, and there is nothing else that it does: bytes read as a batch
if and only if they are the batch as it is written, and all other bytes are found damaged
(`readBatch_exact`).

Where bytes are damaged, they begin with whole operations, and what stands behind these is no
operation (`Spoiled`): it begins with a tag that no operation has, or it is the beginning of an
operation that is not all there. The damage that is found tells which.

* `cutShort_of_readSized`: bytes behind their length.
* `readOperation_eq_ok_iff` and `readOperation_eq_error_iff`: one operation.
* `readBatch_eq_ok_iff` and `readBatch_eq_error_iff`: operations one after the other.
-/

namespace WorkQueue.Log

variable {bytes chunk rest : Bytes} {damage : Damage}

/-! ## Bytes behind their length -/

/-- Bytes behind a length of which a piece is missing at the end. -/
def CutShort (bytes : Bytes) : Prop :=
  ∃ chunk more, chunk.length < lengthLimit ∧ more ≠ [] ∧ bytes ++ more = sized chunk

/-- Any four bytes are the length of something, with a given beginning that is no longer. -/
theorem exists_sized {head : Bytes} (body : Bytes) (hhead : head.length = lengthSize)
    (hbody : body.length ≤ BigEndian.decode head) : ∃ more, more.length + body.length =
      BigEndian.decode head ∧ (body ++ more).length < lengthLimit ∧
      sized (body ++ more) = head ++ (body ++ more) := by
  have hencode := BigEndian.encode_decode head
  have hlimit := BigEndian.decode_lt head
  rw [hhead] at hencode hlimit
  refine ⟨List.replicate (BigEndian.decode head - body.length) 0, ?_, ?_, ?_⟩
  · rw [List.length_replicate]
    omega
  · rw [List.length_append, List.length_replicate]
    exact Nat.lt_of_le_of_lt (Nat.le_of_eq (by omega)) hlimit
  · have hlength : (body ++ List.replicate (BigEndian.decode head - body.length) 0).length =
        BigEndian.decode head := by
      rw [List.length_append, List.length_replicate]
      omega
    rw [sized, hlength, hencode]

theorem cutShort_of_readSized (h : readSized bytes = .error damage) :
    damage = .operationCut ∧ CutShort bytes := by
  simp only [readSized] at h
  split at h
  case isFalse => cases h
  rename_i hshort
  cases h
  refine ⟨rfl, ?_⟩
  by_cases hhead : bytes.length < lengthSize
  · -- The length itself is cut short: any bytes complete it.
    have hfilled : (bytes ++ List.replicate (lengthSize - bytes.length) 0).length = lengthSize := by
      rw [List.length_append, List.length_replicate]
      omega
    obtain ⟨more, -, hfits, hsized⟩ := exists_sized [] hfilled (Nat.zero_le _)
    refine ⟨more, List.replicate (lengthSize - bytes.length) 0 ++ more, hfits, ?_, ?_⟩
    · rw [← List.length_pos_iff, List.length_append, List.length_replicate]
      omega
    · rw [← List.append_assoc]
      exact hsized.symm
  · have htake : (bytes.take lengthSize).length = lengthSize := by
      rw [List.length_take]
      omega
    have hmissing := hshort.resolve_left hhead
    obtain ⟨more, hlength, hfits, hsized⟩ := exists_sized _ htake (Nat.le_of_lt hmissing)
    refine ⟨bytes.drop lengthSize ++ more, more, hfits, ?_, ?_⟩
    · rw [← List.length_pos_iff]
      omega
    · rw [hsized, ← List.append_assoc, List.take_append_drop]

/-! ## One operation -/

theorem readOperation_eq_ok_iff {tag : UInt8} {op : Operation} :
    readOperation tag bytes = .ok (op, rest) ↔ operation op ++ rest = tag :: bytes ∧ Fits op := by
  refine ⟨operation_of_readOperation, ?_⟩
  rintro ⟨hbytes, hfits⟩
  obtain ⟨tag', bytes', hop, hread⟩ := readOperation_operation rest hfits
  rw [hop, List.cons_append, List.cons.injEq] at hbytes
  rwa [hbytes.1, hbytes.2] at hread

/-- What stands where an operation was to begin, and what is found wrong with it. -/
inductive Spoiled : Bytes → Damage → Prop where
  /-- It begins with a tag that no operation has. -/
  | tag {tag : UInt8} (bytes : Bytes) (hput : tag ≠ 1) (hdelete : tag ≠ 2) :
      Spoiled (tag :: bytes) (.operationTag tag)
  /-- It is an operation of which a piece is missing at the end. -/
  | cut {bytes more : Bytes} (op : Operation) (fits : Fits op) (begun : bytes ≠ [])
      (missing : more ≠ []) (whole : bytes ++ more = operation op) : Spoiled bytes .operationCut

private theorem bind_eq_error {α β : Type} {x : Except Damage α} {f : α → Except Damage β}
    (h : x >>= f = .error damage) : x = .error damage ∨ ∃ a, x = .ok a ∧ f a = .error damage := by
  cases x with
  | error => exact .inl (by cases h; rfl)
  | ok a => exact .inr ⟨a, rfl, h⟩

theorem spoiled_of_readOperation {tag : UInt8} (h : readOperation tag bytes = .error damage) :
    Spoiled (tag :: bytes) damage := by
  unfold readOperation at h
  split at h
  case isTrue htag =>
    subst htag
    obtain hkey | ⟨⟨key, mid⟩, hkey, h⟩ := bind_eq_error h
    · obtain ⟨rfl, key, more, hfits, hmore, hwhole⟩ := cutShort_of_readSized hkey
      have hop : 1 :: bytes ++ (more ++ sized []) = operation (.put key []) := by
        rw [operation, List.cons_append, ← List.append_assoc, hwhole]
      exact .cut (.put key []) ⟨hfits, by decide⟩ (by simp) (by simp [hmore]) hop
    obtain hvalue | ⟨⟨value, last⟩, -, h⟩ := bind_eq_error h
    · obtain ⟨hk, hkey⟩ := sized_of_readSized hkey
      obtain ⟨rfl, value, more, hfits, hmore, hwhole⟩ := cutShort_of_readSized hvalue
      have hop : 1 :: bytes ++ more = operation (.put key value) := by
        rw [operation, ← hk, List.cons_append, List.append_assoc, hwhole]
      exact .cut (.put key value) ⟨hkey, hfits⟩ (by simp) hmore hop
    · cases h
  case isFalse hput =>
    split at h
    case isTrue htag =>
      subst htag
      obtain hkey | ⟨⟨key, mid⟩, -, h⟩ := bind_eq_error h
      · obtain ⟨rfl, key, more, hfits, hmore, hwhole⟩ := cutShort_of_readSized hkey
        have hop : 2 :: bytes ++ more = operation (.delete key) := by
          rw [operation, List.cons_append, hwhole]
        exact .cut (.delete key) hfits (by simp) hmore hop
      · cases h
    case isFalse hdelete =>
      cases h
      exact .tag bytes hput hdelete

theorem operation_head (op : Operation) :
    ∃ tag bytes, operation op = tag :: bytes ∧ (tag = 1 ∨ tag = 2) := by
  cases op with
  | put key value => exact ⟨1, _, rfl, .inl rfl⟩
  | delete key => exact ⟨2, _, rfl, .inr rfl⟩

theorem readOperation_eq_error_iff {tag : UInt8} :
    readOperation tag bytes = .error damage ↔ Spoiled (tag :: bytes) damage := by
  refine ⟨spoiled_of_readOperation, fun h => ?_⟩
  generalize htagged : tag :: bytes = tagged at h
  cases h with
  | tag _ hput hdelete =>
    cases htagged
    rw [readOperation, if_neg hput, if_neg hdelete]
  | @cut _ more op fits begun missing whole =>
    subst htagged
    obtain ⟨tag', bytes', hop, htag'⟩ := operation_head op
    rw [hop, List.cons_append, List.cons.injEq] at whole
    obtain ⟨rfl, whole⟩ := whole
    cases hread : readOperation tag bytes with
    | error damage =>
      cases spoiled_of_readOperation hread with
      | tag _ hput hdelete => exact absurd htag' (by simp [hput, hdelete])
      | cut => rfl
    | ok read =>
      -- An operation with all its bytes would be read from the whole one too, with no rest.
      obtain ⟨op', rest⟩ := read
      obtain ⟨hop', hfits'⟩ := operation_of_readOperation hread
      have hmore : readOperation tag bytes' = .ok (op', rest ++ more) := by
        rw [readOperation_eq_ok_iff, ← whole, ← List.append_assoc, hop']
        exact ⟨rfl, hfits'⟩
      have hall : readOperation tag bytes' = .ok (op, []) := by
        rw [readOperation_eq_ok_iff, List.append_nil]
        exact ⟨hop, fits⟩
      rw [hall] at hmore
      simp only [Except.ok.injEq, Prod.mk.injEq, List.nil_eq, List.append_eq_nil_iff] at hmore
      exact absurd hmore.2.2 missing

/-! ## Operations one after the other -/

theorem readBatch_cons_error {tag : UInt8} (h : readOperation tag bytes = .error damage) :
    readBatch (tag :: bytes) = .error damage := by
  rw [readBatch]
  split
  · rename_i hd
    rw [h] at hd
    cases hd
    rfl
  · rename_i ho
    rw [h] at ho
    cases ho

theorem fits_of_readBatch {batch : Batch} (h : readBatch bytes = .ok batch) :
    ∀ op ∈ batch, Fits op := by
  fun_induction readBatch bytes generalizing batch with
  | case1 =>
    cases h
    exact List.forall_mem_nil _
  | case2 => cases h
  | case3 tag bytes op rest hop ih =>
    cases hrest : readBatch rest with
    | error damage =>
      rw [hrest] at h
      cases h
    | ok more =>
      rw [hrest] at h
      cases h
      exact List.forall_mem_cons.mpr ⟨(operation_of_readOperation hop).2, ih hrest⟩

theorem readBatch_eq_ok_iff {batch : Batch} :
    readBatch bytes = .ok batch ↔ payload batch = bytes ∧ ∀ op ∈ batch, Fits op := by
  refine ⟨fun h => ⟨payload_of_readBatch h, fits_of_readBatch h⟩, ?_⟩
  rintro ⟨rfl, hfits⟩
  exact readBatch_payload hfits

/-- Operations are read until one is damaged. -/
theorem readBatch_payload_append {batch : Batch} (h : ∀ op ∈ batch, Fits op) :
    readBatch (payload batch ++ rest) = (readBatch rest).map (batch ++ ·) := by
  induction batch with
  | nil => cases hrest : readBatch rest <;> simp [payload, hrest, Except.map]
  | cons op batch ih =>
    obtain ⟨tag, bytes, hop, hread⟩ :=
      readOperation_operation (payload batch ++ rest) (h op (by simp))
    have hp : payload (op :: batch) ++ rest = tag :: (bytes ++ (payload batch ++ rest)) := by
      rw [payload, List.flatMap_cons, hop, List.cons_append, List.cons_append, List.append_assoc,
        payload]
    rw [hp, readBatch_cons hread, ih fun o ho => h o (List.mem_cons_of_mem _ ho)]
    cases readBatch rest <;> rfl

theorem readBatch_of_spoiled (h : Spoiled bytes damage) : readBatch bytes = .error damage := by
  cases bytes with
  | nil => cases h with | cut _ _ begun => exact absurd rfl begun
  | cons tag bytes => exact readBatch_cons_error (readOperation_eq_error_iff.mpr h)

theorem spoiled_of_readBatch (h : readBatch bytes = .error damage) :
    ∃ batch rest, payload batch ++ rest = bytes ∧ (∀ op ∈ batch, Fits op) ∧
      Spoiled rest damage := by
  fun_induction readBatch bytes with
  | case1 => cases h
  | case2 tag bytes damage' hop =>
    cases h
    exact ⟨[], tag :: bytes, rfl, List.forall_mem_nil _, spoiled_of_readOperation hop⟩
  | case3 tag bytes op rest hop ih =>
    cases hrest : readBatch rest with
    | ok more =>
      rw [hrest] at h
      cases h
    | error damage' =>
      rw [hrest] at h
      cases h
      obtain ⟨batch, last, hlast, hfits, hspoiled⟩ := ih hrest
      obtain ⟨hop, hop'⟩ := operation_of_readOperation hop
      refine ⟨op :: batch, last, ?_, List.forall_mem_cons.mpr ⟨hop', hfits⟩, hspoiled⟩
      rw [payload, List.flatMap_cons, ← payload, List.append_assoc, hlast, hop]

theorem readBatch_eq_error_iff : readBatch bytes = .error damage ↔
    ∃ batch rest, payload batch ++ rest = bytes ∧ (∀ op ∈ batch, Fits op) ∧
      Spoiled rest damage := by
  refine ⟨spoiled_of_readBatch, ?_⟩
  rintro ⟨batch, rest, rfl, hfits, hspoiled⟩
  rw [readBatch_payload_append hfits, readBatch_of_spoiled hspoiled]
  rfl

/-- Bytes read as a batch if and only if they are the batch as it is written, operation for
operation, and they are found damaged if and only if they are no batch as it is written: behind
whole operations stands what is none. -/
theorem readBatch_exact (bytes : Bytes) :
    (∀ batch, readBatch bytes = .ok batch ↔ payload batch = bytes ∧ ∀ op ∈ batch, Fits op) ∧
      ((∃ damage, readBatch bytes = .error damage) ↔
        ∀ batch, (∀ op ∈ batch, Fits op) → payload batch ≠ bytes) ∧
      (∀ damage, readBatch bytes = .error damage ↔ ∃ batch rest,
        payload batch ++ rest = bytes ∧ (∀ op ∈ batch, Fits op) ∧ Spoiled rest damage) := by
  refine ⟨fun _ => readBatch_eq_ok_iff, ⟨?_, fun h => ?_⟩, fun _ => readBatch_eq_error_iff⟩
  · rintro ⟨damage, hread⟩ batch hfits rfl
    rw [readBatch_payload hfits] at hread
    cases hread
  · cases hread : readBatch bytes with
    | error damage => exact ⟨damage, rfl⟩
    | ok batch =>
      obtain ⟨hbytes, hfits⟩ := readBatch_eq_ok_iff.mp hread
      exact absurd hbytes (h batch hfits)

/-- What is put reads back, and it is damaged with the beginning of a deletion behind it. -/
theorem readBatch_exact_put :
    readBatch [1, 0, 0, 0, 1, 97, 0, 0, 0, 1, 49] = .ok [.put [97] [49]] ∧
      readBatch [1, 0, 0, 0, 1, 97, 0, 0, 0, 1, 49, 2, 0, 0] = .error .operationCut := by
  have hfits : ∀ op ∈ [Operation.put [97] [49]], Fits op :=
    List.forall_mem_singleton.mpr ⟨by decide, by decide⟩
  refine ⟨((readBatch_exact _).1 _).mpr ⟨by decide, hfits⟩, ((readBatch_exact _).2.2 _).mpr ?_⟩
  exact ⟨[.put [97] [49]], [2, 0, 0], by decide, hfits,
    .cut (.delete []) (show 0 < lengthLimit by decide) (by decide) (List.cons_ne_nil 0 [0])
      (by decide)⟩

end WorkQueue.Log
