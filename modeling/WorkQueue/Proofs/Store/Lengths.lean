import WorkQueue.Proofs.Store.Opening

/-!
# Lengths that are cut down

A length is written in four bytes, so it is written modulo `lengthLimit` (`announced_sized_mod`),
and neither writing nor compacting asks how long a payload is. A record whose payload is too long
announces a part of it, which ends inside the record (`span_lt_of_not_framed`). Unless the bytes
that stand there happen to be the checksum of that part, the log is found to be corrupt when it is
opened, although no byte of it was changed (`replay_of_not_framed`). The last bytes of the payload
have no part in this (`sound_record_of_payload`).

* `replay_written_iff`: records read back as what was written if and only if no payload is too long.
* `lengths_unchecked`: what writing, compacting and opening the log again do, whatever the lengths.
-/

namespace WorkQueue

namespace Log

/-! ## Lengths -/

theorem announced_sized_mod (bytes rest : Bytes) :
    announced (sized bytes ++ rest) = bytes.length % lengthLimit := by
  rw [announced, sized, List.append_assoc, List.take_left' (BigEndian.length_encode ..),
    BigEndian.decode_encode_mod, lengthLimit]

theorem announced_record_mod (batch : Batch) (rest : Bytes) :
    announced (record batch ++ rest) = (payload batch).length % lengthLimit := by
  rw [record, frame, List.append_assoc, announced_sized_mod]

variable {batch : Batch} {before after batches : List Batch}

/-- A payload that is too long goes on behind the frame that the record announces. -/
theorem span_lt_of_not_framed (h : ¬ Framed batch) (rest : Bytes) :
    span (record batch ++ rest) < (record batch).length := by
  have hlt : (payload batch).length % lengthLimit < lengthLimit := Nat.mod_lt _ (by decide)
  have hle : lengthLimit ≤ (payload batch).length := Nat.le_of_not_lt h
  rw [span, announced_record_mod, length_record]
  omega

/-- Whether the announced frame is sound does not depend on what stands behind the record. -/
theorem sound_record_iff (h : ¬ Framed batch) (rest : Bytes) :
    Sound (record batch ++ rest) ↔ Sound (record batch) := by
  have hannounced : announced (record batch ++ rest) = announced (record batch) := by
    rw [announced_record_mod, ← List.append_nil (record batch), announced_record_mod]
  have hspan := span_lt_of_not_framed h rest
  rw [span] at hspan
  have henclosed : enclosed (record batch ++ rest) = enclosed (record batch) := by
    rw [enclosed, enclosed, List.drop_append_of_le_length (by omega), hannounced,
      List.take_append_of_le_length (by rw [List.length_drop]; omega)]
  rw [Sound, Sound, henclosed, ← hannounced, List.drop_append_of_le_length (by omega),
    List.drop_append_of_le_length (by rw [List.length_drop]; omega),
    List.take_append_of_le_length (by rw [List.length_drop, List.length_drop]; omega)]

/-- Whether the announced frame is sound is decided by the payload without its last bytes. -/
theorem sound_record_of_payload {head tail : Bytes} (h : ¬ Framed batch)
    (hpayload : payload batch = head ++ tail) (htail : tail.length + checksumSize ≤ lengthLimit) :
    Sound (record batch) ↔
      (head.drop ((head.length + tail.length) % lengthLimit)).take checksumSize =
        checksum (head.take ((head.length + tail.length) % lengthLimit)) := by
  have hlength : (payload batch).length = head.length + tail.length := by
    rw [hpayload, List.length_append]
  have hannounced : announced (record batch) = (head.length + tail.length) % lengthLimit := by
    rw [← List.append_nil (record batch), announced_record_mod, hlength]
  have hbegin : (record batch).drop lengthSize = head ++ (tail ++ checksum (payload batch)) := by
    rw [record, frame, drop_lengthSize_sized, hpayload, List.append_assoc]
  -- The announced length is short of the payload by `lengthLimit` at least.
  have hle : lengthLimit ≤ head.length + tail.length := hlength ▸ Nat.le_of_not_lt h
  have hfits : (head.length + tail.length) % lengthLimit + checksumSize ≤ head.length := by
    have hmod := Nat.mod_add_div (head.length + tail.length) lengthLimit
    have hdiv : lengthLimit ≤ lengthLimit * ((head.length + tail.length) / lengthLimit) :=
      Nat.le_mul_of_pos_right _ (Nat.div_pos hle (by decide))
    omega
  rw [Sound, enclosed, hannounced, hbegin, List.drop_append_of_le_length (by omega),
    List.take_append_of_le_length (by rw [List.length_drop]; omega),
    List.take_append_of_le_length (by omega)]

/-- The checksum of no payload does not begin as a put does. -/
theorem not_sound_of_put {key value : Bytes} {rest : Batch}
    (hbatch : batch = .put key value :: rest) (h : ¬ Framed batch)
    (hmod : (payload batch).length % lengthLimit = 0) : ¬ Sound (record batch) := by
  have hput : ((payload batch).take checksumSize).head? = some 1 := by
    rw [hbatch]
    rfl
  have hnone : (checksum []).head? ≠ some 1 := by decide +kernel
  rw [sound_record_of_payload h (List.append_nil _).symm (by decide), List.length_nil, Nat.add_zero,
    hmod, List.drop_zero, List.take_zero]
  intro hsound
  rw [hsound] at hput
  exact hnone hput

/-! ## Reading records of any lengths -/

/-- The number of bytes behind the frame that the first record of a log announces. -/
def leftOver (batch : Batch) (rest : Bytes) : Nat :=
  (payload batch).length - (payload batch).length % lengthLimit + rest.length

theorem next_of_not_framed (h : ¬ Framed batch) (hsound : ¬ Sound (record batch)) (offset : Nat)
    (rest : Bytes) :
    next offset (record batch ++ rest) = .damaged (.checksum offset (leftOver batch rest)) := by
  have hspan := span_lt_of_not_framed h rest
  have hlong : span (record batch ++ rest) < (record batch ++ rest).length := by
    rw [List.length_append]
    omega
  have hleft : (record batch ++ rest).length - span (record batch ++ rest) =
      leftOver batch rest := by
    have hmod := Nat.mod_le (payload batch).length lengthLimit
    rw [List.length_append, length_record, span, announced_record_mod, leftOver]
    omega
  rw [next_eq, if_neg (by simp [record_ne_nil]), if_neg (Nat.not_lt.mpr (Nat.le_of_lt hlong)),
    if_neg (by rwa [sound_record_iff h]), if_neg (Nat.ne_of_gt hlong), hleft]

/-- The replay ends with damage at the first payload that is too long. -/
theorem replay_of_not_framed (hbefore : ∀ b ∈ before, Framed b) (h : ¬ Framed batch)
    (hsound : ¬ Sound (record batch)) : replay (written (before ++ batch :: after)) =
      .error (.checksum (written before).length (leftOver batch (written after))) := by
  rw [written_append, written_cons]
  refine (reads_written hbefore _).replay_damaged ?_
  rw [List.length_append, Nat.add_sub_cancel]
  exact next_of_not_framed h hsound _ _

theorem framed_of_replay {log : Bytes} {r : Replay} (h : replay log = .ok r) :
    ∀ b ∈ r.batches, Framed b := by
  obtain ⟨batches, rest, hreads, hnone⟩ := exists_reads log
  by_cases hrest : BrokenOff rest
  · have hreplay := hreads.replay_torn (brokenOff_iff.mp hrest)
    cases h.symm.trans hreplay
    exact hreads.eq_written.2
  · obtain ⟨damage, hdamage⟩ := hnone.damaged hrest (log.length - rest.length)
    cases h.symm.trans (hreads.replay_damaged hdamage)

/-- Records read back as the batches that were written if and only if no payload is too long. -/
theorem replay_written_iff : replay (written batches) = .ok ⟨batches, (written batches).length⟩ ↔
    ∀ b ∈ batches, Framed b :=
  ⟨framed_of_replay, replay_written⟩

end Log

namespace Store

open Log

variable {s : Store} {path : String} {location : Location} {batches : List Batch}

/-- How a log opens again that holds the records of batches. -/
structure Reopening (s : Store) (path : String) (batches : List Batch) : Prop where
  /-- What was written is read back if and only if no payload is too long. -/
  replays : (∃ bytes, s.files.read path = .ok bytes ∧ replay bytes = .ok ⟨batches, bytes.length⟩) ↔
    ∀ b ∈ batches, Framed b
  /-- The store is the same then. -/
  same : (∀ b ∈ batches, Framed b) → openLog path s.files = .ok s s.files
  /-- Otherwise the log is corrupt where the first payload is that is too long, unless the payload
  has its own checksum inside. -/
  corrupt : ∀ before batch after, batches = before ++ batch :: after → (∀ b ∈ before, Framed b) →
    ¬ Framed batch → ¬ Sound (record batch) → openLog path s.files =
      .error (.corrupt (.checksum (written before).length (leftOver batch (written after)))) s.files

theorem Recorded.reopening (h : Recorded s path location batches) : Reopening s path batches where
  replays := by
    rw [h.reaches.read h.bytes, ← replay_written_iff]
    constructor
    · rintro ⟨bytes, hbytes, hreplay⟩
      cases hbytes
      exact hreplay
    · exact fun hreplay => ⟨_, rfl, hreplay⟩
  same hframed := (h.logged hframed).openLog
  corrupt := by
    rintro before batch after rfl hbefore hbatch hsound
    exact openLog_of_damage (h.reaches.read h.bytes) (replay_of_not_framed hbefore hbatch hsound)

/-- The file of an opened store holds the records that the store is made of, and writing and
compacting keep that up, whatever the lengths: neither refuses anything for its size. A batch is
always written, and a log is compacted wherever the file for it can be opened. All lengths are
written modulo `lengthLimit`, and the log that comes of it opens accordingly. -/
theorem lengths_unchecked (path : String) :
    (∀ files files' s, openLog path files = .ok s files' →
      ∃ location batches, Recorded s path location batches) ∧
    (∀ s location batches, Recorded s path location batches →
      (∀ batch : Batch, batch ≠ [] → ∃ t, Store.write batch s = .ok () t ∧
        t.table = batch.apply s.table ∧
        Recorded t path location (batches ++ [batch]) ∧ Reopening t path (batches ++ [batch])) ∧
      (∀ scratch opened, FileTree.openFile (scratchPath path) s.files = .ok scratch opened →
        ∃ t, Store.compact s = .ok () t ∧ t.table = s.table ∧
          Recorded t path location (compacted s.table) ∧ Reopening t path (compacted s.table))) ∧
    (∀ batch rest, announced (record batch ++ rest) = (payload batch).length % lengthLimit) ∧
    (∀ chunk rest, announced (sized chunk ++ rest) = chunk.length % lengthLimit) := by
  refine ⟨fun files files' s hopen => ?_, fun s location batches h => ⟨fun batch hne => ?_,
    fun scratch opened hopen => ?_⟩, announced_record_mod, announced_sized_mod⟩
  · obtain ⟨location, batches, hs⟩ := exists_logged_of_openLog hopen
    exact ⟨location, batches, hs.recorded⟩
  · obtain ⟨t, hwrite, ht, htable⟩ := h.write hne
    exact ⟨t, hwrite, htable, ht, ht.reopening⟩
  · obtain ⟨t, hcompact, ht, htable⟩ := h.compact hopen
    exact ⟨t, hcompact, htable, ht, ht.reopening⟩

/-- A put whose payload is as long as the least number that is too large for a length. -/
def longPut : Batch := [.put [97] (List.replicate (lengthLimit - 10) 0)]

theorem length_longPut : (payload longPut).length = lengthLimit := by
  rw [longPut, length_payload_cons, length_operation_put, List.length_replicate,
    length_payload_nil]
  decide

theorem not_framed_longPut : ¬ Framed longPut := by
  rw [Framed, length_longPut]
  exact Nat.lt_irrefl _

/-- In a new log, a put that is too long is granted, and the log is corrupt from then on. -/
theorem lengths_unchecked_longPut :
    ∃ s location, openLog "queue.db" (directoryOf []) = .ok s s.files ∧
      Recorded s "queue.db" location [] ∧
      ∃ t, Store.write longPut s = .ok () t ∧ t.table = longPut.apply s.table ∧
        openLog "queue.db" t.files = .error (.corrupt (.checksum 0 lengthLimit)) t.files := by
  obtain ⟨location, hreach, hbytes⟩ := FileTree.reaches_of_read (read_directoryOf [])
  have hs : Recorded ⟨.empty, directoryOf [], some ⟨"queue.db", location, 0⟩, none⟩
    "queue.db" location [] := ⟨rfl, hbytes, rfl, rfl, hreach⟩
  obtain ⟨t, hwrite, htable, -, hopen⟩ :=
    ((lengths_unchecked "queue.db").2.1 _ _ _ hs).1 longPut (List.cons_ne_nil _ _)
  have hmod : (payload longPut).length % lengthLimit = 0 := by rw [length_longPut, Nat.mod_self]
  have hsound : ¬ Sound (record longPut) := not_sound_of_put rfl not_framed_longPut hmod
  have hcorrupt := hopen.corrupt [] longPut [] rfl (List.forall_mem_nil _) not_framed_longPut hsound
  rw [leftOver, length_longPut, Nat.mod_self] at hcorrupt
  exact ⟨_, location, (hs.logged (List.forall_mem_nil _)).openLog, hs, t, hwrite, htable, hcorrupt⟩

end Store

end WorkQueue
