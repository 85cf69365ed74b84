import WorkQueue.Job.Basic

/-!
# Jobs with dependencies

The bytes of a `LinkedJob` are the number of its dependencies in one byte, their ids, and a
payload. `LinkedJob.parse` reads such bytes back: any bytes in which all announced ids have room
are the bytes of a job.

A `Ledger` is the set of jobs that have been executed; a job misses those of its dependencies that
are not in the ledger.
-/

namespace WorkQueue

/-- A job that names the jobs it depends on. -/
structure LinkedJob where
  dependencies : List JobId
  payload : Bytes
deriving DecidableEq, Repr

namespace LinkedJob

/-- The bytes of a job. -/
def encode (job : LinkedJob) : Bytes :=
  UInt8.ofNat job.dependencies.length :: (job.dependencies.flatMap JobId.bytes ++ job.payload)

instance : Job LinkedJob where
  id job := JobId.ofContent job.encode
  bytes job := job.encode

/-- The ids at the beginning of a byte string, and what follows them. -/
def readIds : Nat → Bytes → Except Error (List JobId × Bytes)
  | 0, bytes => .ok ([], bytes)
  | count + 1, bytes => do
    let id ← JobId.ofBytes (bytes.take 32)
    let (ids, rest) ← readIds count (bytes.drop 32)
    return (id :: ids, rest)

/-- The job with the given bytes. -/
def parse : Parser LinkedJob
  | [] => .error (.decode .emptyJob)
  | count :: rest =>
    if rest.length < 32 * count.toNat then
      .error (.decode (.dependencies count.toNat rest.length))
    else do
      let (dependencies, payload) ← readIds count.toNat rest
      return ⟨dependencies, payload⟩

theorem readIds_flatMap (ids : List JobId) (rest : Bytes) :
    readIds ids.length (ids.flatMap JobId.bytes ++ rest) = .ok (ids, rest) := by
  induction ids with
  | nil => rfl
  | cons id ids ih =>
    have hl := id.length_bytes
    simp [readIds, List.take_left' hl, List.drop_left' hl, ih, bind, Except.bind, pure,
      Except.pure]

theorem length_flatMap_bytes (ids : List JobId) :
    (ids.flatMap JobId.bytes).length = 32 * ids.length := by
  rw [List.length_flatMap, List.map_congr_left fun id _ => id.length_bytes, List.map_const',
    List.sum_replicate_nat, Nat.mul_comm]

/-- Any number of dependencies that one byte can count is read back. -/
theorem parse_encode (job : LinkedJob) (h : job.dependencies.length < UInt8.size) :
    parse job.encode = .ok job := by
  have hcount : (UInt8.ofNat job.dependencies.length).toNat = job.dependencies.length := by
    rw [UInt8.toNat_ofNat']
    exact Nat.mod_eq_of_lt h
  have hroom : ¬ (job.dependencies.flatMap JobId.bytes ++ job.payload).length <
      32 * job.dependencies.length := by
    rw [List.length_append, length_flatMap_bytes]
    omega
  rw [encode, parse, hcount, if_neg hroom, readIds_flatMap]
  rfl

end LinkedJob

/-- The jobs that have been executed, each once. -/
abbrev Ledger := List JobId

namespace Ledger

/-- Enters a job. -/
def mark (ledger : Ledger) (id : JobId) : Ledger := if id ∈ ledger then ledger else id :: ledger

end Ledger

/-- The dependencies of a job that have not been executed, in ascending order. -/
def LinkedJob.missing (ledger : Ledger) (job : LinkedJob) : List JobId :=
  JobId.distinct (job.dependencies.filter (· ∉ ledger))

theorem LinkedJob.mem_missing {ledger : Ledger} {job : LinkedJob} {id : JobId} :
    id ∈ job.missing ledger ↔ id ∈ job.dependencies ∧ id ∉ ledger := by
  simp [missing, JobId.mem_distinct]

theorem LinkedJob.length_missing_le (ledger : Ledger) (job : LinkedJob) :
    (job.missing ledger).length ≤ job.dependencies.length :=
  Nat.le_trans (JobId.length_distinct_le _) (List.length_filter_le _ _)

end WorkQueue
