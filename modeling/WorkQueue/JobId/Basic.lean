import WorkQueue.Blake3
import WorkQueue.Bytes.Hex

/-!
# Job ids

A job is known by 32 bytes, the hash of its content. Ids are ordered as their bytes are.

`sort` keeps repeated ids and `distinct` drops them; both give ascending order.
-/

namespace WorkQueue

/-- The 32 bytes that a job is known by. -/
structure JobId where
  bytes : Bytes
  length_bytes : bytes.length = 32
deriving DecidableEq

namespace JobId

theorem ext {a b : JobId} (h : a.bytes = b.bytes) : a = b := by
  cases a
  cases b
  cases h
  rfl

/-- The id of the job with this content. -/
def ofContent (content : Bytes) : JobId := ⟨Blake3.hash content, Blake3.length_hash content⟩

/-- The id with these bytes, if there are 32 of them. -/
def ofBytes? (bytes : Bytes) : Option JobId :=
  if h : bytes.length = 32 then some ⟨bytes, h⟩ else none

@[simp] theorem ofBytes?_bytes (id : JobId) : ofBytes? id.bytes = some id := by
  simp [ofBytes?, id.length_bytes]

/-- The id whose bytes are all zero. -/
def zero : JobId := ⟨List.replicate 32 0, rfl⟩

instance : Inhabited JobId := ⟨zero⟩

/-- The id as 64 hexadecimal digits. -/
def toHex (id : JobId) : String := Hex.encode id.bytes

/-- The first six bytes in short, for people. -/
def brief (id : JobId) : String := s!"JobId({Hex.encode (id.bytes.take 6)})"

instance : Repr JobId := ⟨fun id _ => id.brief⟩

/-! ## Order -/

instance : LT JobId := ⟨fun a b => a.bytes < b.bytes⟩

instance : DecidableLT JobId := fun a b => inferInstanceAs (Decidable (a.bytes < b.bytes))

/-- Puts an id where it belongs in an ascending list. -/
def insertId (id : JobId) : List JobId → List JobId
  | [] => [id]
  | next :: rest => if next < id then next :: insertId id rest else id :: next :: rest

/-- Ids in ascending order. -/
def sort (ids : List JobId) : List JobId := ids.foldr insertId []

/-- Ids in ascending order, each once. -/
def distinct (ids : List JobId) : List JobId := sort ids.eraseDups

theorem perm_insertId (id : JobId) (ids : List JobId) : (insertId id ids).Perm (id :: ids) := by
  induction ids with
  | nil => exact .refl _
  | cons next rest ih =>
    rw [insertId]
    split
    · exact (ih.cons next).trans (.swap id next rest)
    · exact .refl _

/-- Sorting only moves ids about. -/
theorem perm_sort (ids : List JobId) : (sort ids).Perm ids := by
  induction ids with
  | nil => exact .refl _
  | cons id ids ih => exact (perm_insertId id (sort ids)).trans (ih.cons id)

theorem mem_distinct {id : JobId} {ids : List JobId} : id ∈ distinct ids ↔ id ∈ ids :=
  (perm_sort ids.eraseDups).mem_iff.trans List.mem_eraseDups

theorem length_eraseDups_le (ids : List JobId) : ids.eraseDups.length ≤ ids.length := by
  match ids with
  | [] => exact Nat.le_refl 0
  | id :: rest =>
    rw [List.eraseDups_cons]
    have hfilter := List.length_filter_le (fun other => !other == id) rest
    have herased := length_eraseDups_le (rest.filter fun other => !other == id)
    exact Nat.succ_le_succ (Nat.le_trans herased hfilter)
termination_by ids.length

theorem length_distinct_le (ids : List JobId) : (distinct ids).length ≤ ids.length := by
  rw [distinct, (perm_sort ids.eraseDups).length_eq]
  exact length_eraseDups_le ids

end JobId

end WorkQueue
