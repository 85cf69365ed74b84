import WorkQueue.Error
import WorkQueue.Text.Blank

/-!
# Reading job ids

From a key of the store (`JobId.ofBytes`) and from a text (`JobId.parse`), which may stand between
blanks and may use digits of either case.
-/

namespace WorkQueue.JobId

/-- The id that a key of the store holds. -/
def ofBytes (bytes : Bytes) : Except Error JobId :=
  match ofBytes? bytes with
  | some id => .ok id
  | none => .error (.idLength bytes.length)

@[simp] theorem ofBytes_bytes (id : JobId) : ofBytes id.bytes = .ok id := by
  rw [ofBytes, ofBytes?_bytes]

/-- The id that a text writes. -/
def parse (text : String) : Except Error JobId :=
  match Hex.read 32 (Text.trim text.toList) with
  | .ok bytes => ofBytes bytes
  | .error cause => .error (.decode (.idText text cause))

end WorkQueue.JobId
