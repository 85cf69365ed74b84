import WorkQueue.Log.Record

/-!
# Replaying a log

`next` tells what a log begins with: nothing, a whole record, a torn one, or damage. A record that
is cut short, or that fails its checksum at the very end of the log, was being written when the
program stopped: it is torn. A record that fails its checksum with more of the log behind it is
damage, and so is one whose payload holds no operations.

`replay` reads record after record up to the end or to a torn one.
-/

namespace WorkQueue.Log

/-- What a log begins with. -/
inductive Piece where
  | done
  | torn
  | damaged (damage : Damage)
  /-- A whole record, and the log after it. -/
  | record (batch : Batch) (rest : Bytes)

/-- What the log begins with, from the byte number `offset` on. -/
def next (offset : Nat) (log : Bytes) : Piece :=
  let size := BigEndian.decode (log.take lengthSize)
  let body := log.drop lengthSize
  let payload := body.take size
  let rest := body.drop (size + checksumSize)
  if log = [] then .done
  else if log.length < lengthSize ∨ body.length < size + checksumSize then .torn
  else if (body.drop size).take checksumSize ≠ checksum payload then
    if rest = [] then .torn else .damaged (.checksum offset rest.length)
  else
    match readBatch payload with
    | .error damage => .damaged damage
    | .ok batch => .record batch rest

theorem length_lt_of_next {offset : Nat} {log rest : Bytes} {batch : Batch}
    (h : next offset log = .record batch rest) : rest.length < log.length := by
  simp only [next] at h
  split at h
  · cases h
  · next hne =>
    split at h
    · cases h
    · split at h
      · split at h <;> cases h
      · split at h
        · cases h
        · cases h
          have : 0 < log.length := List.length_pos_iff.mpr hne
          simp only [List.length_drop, checksumSize]
          omega

/-- The whole records of a log, and the number of bytes that they take up. -/
structure Replay where
  batches : List Batch
  length : Nat
deriving DecidableEq

/-- The records from the byte number `offset` on. -/
def replayFrom (offset : Nat) (log : Bytes) : Except Damage Replay :=
  match _h : next offset log with
  | .done | .torn => .ok ⟨[], offset⟩
  | .damaged damage => .error damage
  | .record batch rest =>
    (replayFrom (offset + (log.length - rest.length)) rest).map fun r =>
      ⟨batch :: r.batches, r.length⟩
termination_by log.length
decreasing_by exact length_lt_of_next _h

/-- The records of a log. -/
def replay (log : Bytes) : Except Damage Replay := replayFrom 0 log

/-- The table that the records leave behind. -/
def Replay.table (r : Replay) : Table := r.batches.foldl (fun t batch => batch.apply t) .empty

end WorkQueue.Log
