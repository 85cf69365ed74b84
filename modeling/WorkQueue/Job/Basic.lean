import WorkQueue.JobId.Reading

/-!
# Jobs

The scheduler knows of a job its id and its bytes. How bytes read back become a job is up to a
`Parser`. A `RawJob` is nothing but its bytes.
-/

namespace WorkQueue

/-- What the scheduler knows of a job. -/
class Job (J : Type) where
  id : J → JobId
  bytes : J → Bytes

/-- A way to make jobs from bytes read back. -/
abbrev Parser (J : Type) := Bytes → Except Error J

/-- A job that is nothing but its bytes. -/
structure RawJob where
  content : Bytes
deriving DecidableEq, Repr

instance : Job RawJob where
  id job := JobId.ofContent job.content
  bytes job := job.content

/-- Any bytes are a raw job. -/
def RawJob.parse : Parser RawJob := fun bytes => .ok ⟨bytes⟩

end WorkQueue
