import WorkQueue.Job.Linked

/-!
# One form of a job

A job with dependencies is read back from its bytes as it was (`LinkedJob.parse_encode`). Here is the
converse: bytes from which a job is read are the bytes of this job. So no job has two forms, and the
id of a job that is read from a store is the hash of the stored bytes.

* `Roomy.exists_encode`: bytes with room for the announced ids are the bytes of a job;
* `parse_eq_ok_iff`: the bytes from which a job is read;
* `parse_eq_error_iff`: the bytes from which no job is read, and what is reported of them;
* `parse_canonical`: jobs and bytes, both ways.
-/

namespace WorkQueue.LinkedJob

variable {bytes : Bytes} {job : LinkedJob}

/-- A number of ids is announced, and all of them have room behind it. -/
def Roomy (bytes : Bytes) : Prop :=
  ∃ count rest, bytes = count :: rest ∧ 32 * count.toNat ≤ rest.length

/-! ## Forms -/

/-- The payload is what follows the number of dependencies and their ids. -/
theorem drop_encode (job : LinkedJob) :
    job.encode.drop (1 + 32 * job.dependencies.length) = job.payload := by
  rw [encode, Nat.add_comm, List.drop_succ_cons]
  exact List.drop_left' (length_flatMap_bytes job.dependencies)

theorem roomy_encode (job : LinkedJob) : Roomy job.encode := by
  refine ⟨_, _, rfl, ?_⟩
  rw [UInt8.toNat_ofNat', List.length_append, length_flatMap_bytes]
  exact Nat.le_trans (Nat.mul_le_mul_left 32 (Nat.mod_le _ _)) (Nat.le_add_right _ _)

/-- Any 32 bytes are an id, so bytes with room for some ids begin with ids. -/
theorem exists_ids (n : Nat) (h : 32 * n ≤ bytes.length) :
    ∃ (ids : List JobId) (rest : Bytes),
      ids.length = n ∧ ids.flatMap JobId.bytes ++ rest = bytes := by
  induction n generalizing bytes with
  | zero => exact ⟨[], bytes, rfl, rfl⟩
  | succ n ih =>
    have hfirst : (bytes.take 32).length = 32 := by
      rw [List.length_take]
      omega
    have hothers : 32 * n ≤ (bytes.drop 32).length := by
      rw [List.length_drop]
      omega
    obtain ⟨ids, rest, hlength, hids⟩ := ih hothers
    refine ⟨⟨bytes.take 32, hfirst⟩ :: ids, rest, by rw [List.length_cons, hlength], ?_⟩
    rw [List.flatMap_cons, List.append_assoc, hids]
    exact List.take_append_drop 32 bytes

/-- Bytes with room for the announced ids are the bytes of a job. -/
theorem Roomy.exists_encode (h : Roomy bytes) :
    ∃ job : LinkedJob, job.dependencies.length < UInt8.size ∧ job.encode = bytes := by
  obtain ⟨count, rest, rfl, hroom⟩ := h
  obtain ⟨ids, payload, hlength, hids⟩ := exists_ids count.toNat hroom
  refine ⟨⟨ids, payload⟩, hlength ▸ count.toNat_lt, ?_⟩
  rw [encode, hlength, hids, UInt8.ofNat_toNat]

/-! ## Reading -/

theorem parse_of_not_roomy (h : ¬ Roomy bytes) :
    (bytes = [] ∧ parse bytes = .error (.decode .emptyJob)) ∨
      ∃ count rest, bytes = count :: rest ∧ rest.length < 32 * count.toNat ∧
        parse bytes = .error (.decode (.dependencies count.toNat rest.length)) := by
  cases bytes with
  | nil => exact .inl ⟨rfl, rfl⟩
  | cons count rest =>
    have hshort : rest.length < 32 * count.toNat :=
      Nat.lt_of_not_le fun hroom => h ⟨count, rest, rfl, hroom⟩
    exact .inr ⟨count, rest, rfl, hshort, if_pos hshort⟩

/-- A job is read from its own bytes only, provided that a byte can count its dependencies. -/
theorem parse_eq_ok_iff :
    parse bytes = .ok job ↔ job.dependencies.length < UInt8.size ∧ job.encode = bytes := by
  constructor
  · intro h
    by_cases hroomy : Roomy bytes
    · obtain ⟨job', hcount, rfl⟩ := hroomy.exists_encode
      cases h.symm.trans (parse_encode job' hcount)
      exact ⟨hcount, rfl⟩
    · obtain ⟨-, herror⟩ | ⟨_, _, -, -, herror⟩ := parse_of_not_roomy hroomy
      all_goals cases h.symm.trans herror
  · rintro ⟨hcount, rfl⟩
    exact parse_encode job hcount

/-- No job is read from nothing, nor from bytes in which an announced id has no room. -/
theorem parse_eq_error_iff {e : Error} :
    parse bytes = .error e ↔
      (bytes = [] ∧ e = .decode .emptyJob) ∨
      ∃ count rest, bytes = count :: rest ∧ rest.length < 32 * count.toNat ∧
        e = .decode (.dependencies count.toNat rest.length) := by
  constructor
  · intro h
    have hroomy : ¬ Roomy bytes := by
      intro hroomy
      obtain ⟨job, hcount, rfl⟩ := hroomy.exists_encode
      cases h.symm.trans (parse_encode job hcount)
    obtain ⟨hnil, herror⟩ | ⟨count, rest, hcons, hshort, herror⟩ := parse_of_not_roomy hroomy
    · cases h.symm.trans herror
      exact .inl ⟨hnil, rfl⟩
    · cases h.symm.trans herror
      exact .inr ⟨count, rest, hcons, hshort, rfl⟩
  · rintro (⟨rfl, rfl⟩ | ⟨count, rest, rfl, hshort, rfl⟩)
    · rfl
    · exact if_pos hshort

/-- A job whose dependencies a byte can count is read back as it was, with its payload at the end of
its bytes. From other bytes a job is read exactly if a number of ids is announced and all have room;
then the bytes are those of the job, and its id is their hash. Otherwise they cannot be decoded. -/
theorem parse_canonical :
    (∀ job : LinkedJob, job.dependencies.length ≤ 255 →
      parse (Job.bytes job) = .ok job ∧
      (Job.bytes job).drop (1 + 32 * job.dependencies.length) = job.payload) ∧
    ∀ bytes : Bytes,
      ((∃ job, parse bytes = .ok job) ↔ Roomy bytes) ∧
      (∀ job, parse bytes = .ok job →
        Job.bytes job = bytes ∧ (Job.id job).bytes = Blake3.hash bytes ∧
        job.dependencies.length ≤ 255) ∧
      (¬ Roomy bytes → ∃ cause, parse bytes = .error (.decode cause)) := by
  refine ⟨fun job hcount => ⟨parse_encode job (Nat.lt_succ_of_le hcount), drop_encode job⟩,
    fun bytes => ⟨⟨?_, ?_⟩, ?_, ?_⟩⟩
  · rintro ⟨job, hparse⟩
    obtain ⟨-, rfl⟩ := parse_eq_ok_iff.mp hparse
    exact roomy_encode job
  · intro hroomy
    obtain ⟨job, hjob⟩ := hroomy.exists_encode
    exact ⟨job, parse_eq_ok_iff.mpr hjob⟩
  · intro job hparse
    obtain ⟨hcount, rfl⟩ := parse_eq_ok_iff.mp hparse
    exact ⟨rfl, rfl, Nat.le_of_lt_succ hcount⟩
  · intro hroomy
    obtain ⟨-, herror⟩ | ⟨_, _, -, -, herror⟩ := parse_of_not_roomy hroomy
    · exact ⟨_, herror⟩
    · exact ⟨_, herror⟩

/-- A job with one dependency and a payload of two bytes, and bytes that announce two ids and have
room for one of them. -/
theorem parse_canonical_oneId :
    parse (Job.bytes (⟨[.zero], [7, 8]⟩ : LinkedJob)) = .ok ⟨[.zero], [7, 8]⟩ ∧
    ∃ cause, parse (2 :: List.replicate 32 0) = .error (.decode cause) := by
  have hshort : ¬ Roomy (2 :: List.replicate 32 0) := by
    rintro ⟨count, rest, hcons, hroom⟩
    cases hcons
    simp at hroom
  obtain ⟨hback, hread⟩ := parse_canonical
  exact ⟨(hback _ (by decide)).1, (hread _).2.2 hshort⟩

end WorkQueue.LinkedJob
