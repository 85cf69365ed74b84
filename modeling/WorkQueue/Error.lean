import WorkQueue.JobId.Basic

/-!
# Errors

`Error` lists what can go wrong, by cause. `Error.message` is the one place where an error is put
into words, and `Error.chain` adds the words for the causes behind it.

An error is fatal (`Error.isFatal`) when the stored state disagrees with itself, so that trying
again would not help.
-/

namespace WorkQueue

/-- A failed access to a file. -/
inductive FileError where
  | noSuchFile
  | alreadyExists
  | notADirectory
  | isADirectory
  | nameTooLong
  /-- There is a NUL in the path. -/
  | nulInName
  /-- The file was to hold text and does not. -/
  | notText
  /-- The store has been told to refuse writes. -/
  | writeRefused
deriving DecidableEq, Repr

/-- Stored bytes that nothing could have written. -/
inductive Damage where
  /-- The sequence number of an ordered set with a wrong number of bytes. -/
  | sequenceNumber (length : Nat)
  /-- A record of the log whose checksum does not match, with more of the log behind it. -/
  | checksum (offset rest : Nat)
  /-- An operation of a kind that does not exist. -/
  | operationTag (tag : UInt8)
  /-- A record that ends inside an operation. -/
  | operationCut
deriving DecidableEq, Repr

/-- Bytes or text that are no job or no id. -/
inductive DecodeError where
  | emptyJob
  /-- More dependencies are announced than the following `present` bytes can hold. -/
  | dependencies (announced present : Nat)
  /-- A text that is no id. -/
  | idText (text : String) (cause : HexError)
deriving DecidableEq, Repr

/-- A configuration that has the right form and is of no use. -/
inductive ConfigError where
  | noJobs
  | noDependents
  | noInterval
  | emptyNamespace
  | namespaceCharacter (name : String) (c : Char)
deriving DecidableEq, Repr

/-- A metric that could not be registered. -/
inductive MetricError where
  | duplicate
  | invalidName (name : String)
deriving DecidableEq, Repr

/-- Why an executor would not run a job. -/
inductive Refusal where
  | rejected (job : JobId)
  | dependencyPending (job dependency : JobId)
deriving DecidableEq, Repr

/-- What can go wrong. -/
inductive Error where
  /-- The key is not in the store, or the queue is empty. -/
  | notFound
  | file (cause : FileError)
  | corrupt (damage : Damage)
  | decode (cause : DecodeError)
  | idLength (found : Nat)
  | counterLength (found : Nat)
  /-- The job had left the runnable queue when the rest of its removal failed. -/
  | dequeue (job : JobId) (cause : Error)
  | config (cause : ConfigError)
  /-- The configuration is no TOML document, or has entries of a wrong name or type. -/
  | toml
  | metric (cause : MetricError)
  /-- The worker that owned the scheduler is gone. -/
  | closed
  | refused (cause : Refusal)
  /-- An executor or a parser did not return. -/
  | panicked
deriving DecidableEq, Repr

namespace FileError

/-- The error in words. -/
def message : FileError → String
  | .noSuchFile => "No such file or directory (os error 2)"
  | .alreadyExists => "File exists (os error 17)"
  | .notADirectory => "Not a directory (os error 20)"
  | .isADirectory => "Is a directory (os error 21)"
  | .nameTooLong => "File name too long (os error 36)"
  | .nulInName => "file name contained an unexpected NUL byte"
  | .notText => "stream did not contain valid UTF-8"
  | .writeRefused => "injected write failure"

end FileError

namespace Damage

/-- The damage in words. -/
def message : Damage → String
  | .sequenceNumber length => s!"sequence number of {length} bytes"
  | .checksum offset rest =>
    s!"checksum mismatch in record at offset {offset} with {rest} bytes of log after it"
  | .operationTag tag => s!"unknown log operation tag {tag.toNat}"
  | .operationCut => "log record ends mid-operation"

end Damage

namespace DecodeError

/-- The error in words. -/
def message : DecodeError → String
  | .emptyJob => "empty job"
  | .dependencies announced present =>
    s!"job declares {announced} dependencies but has {present} bytes"
  | .idText text cause => s!"invalid job ID {Text.Quoted.text text}: {cause.message}"

end DecodeError

namespace ConfigError

/-- The error in words. -/
def message : ConfigError → String
  | .noJobs => "[cache].jobs must be >= 1 (got 0)"
  | .noDependents => "[cache].dependents must be >= 1 (got 0)"
  | .noInterval => "[execution].progress_interval must be >= 1 (got 0)"
  | .emptyNamespace => "[metrics].namespace must not be empty"
  | .namespaceCharacter name c =>
    s!"[metrics].namespace '{name}' contains invalid character '{c}'"

end ConfigError

namespace MetricError

/-- The error in words. -/
def message : MetricError → String
  | .duplicate => "Duplicate metrics collector registration attempted"
  | .invalidName name => s!"Error: '{name}' is not a valid metric name"

end MetricError

namespace Refusal

/-- The refusal in words. -/
def message : Refusal → String
  | .rejected job => s!"executor rejected job {job.toHex}"
  | .dependencyPending job dependency =>
    s!"job {job.toHex} executed before its dependency {dependency.toHex}"

end Refusal

namespace Error

/-- The error in words. -/
def message : Error → String
  | .notFound => "not found"
  | .file cause => s!"IO error: {cause.message}"
  | .corrupt damage => s!"corrupt store data: {damage.message}"
  | .decode cause => s!"failed to decode job: {cause.message}"
  | .idLength found => s!"invalid job ID: expected 32 bytes, got {found}"
  | .counterLength found => s!"invalid pending jobs checkpoint: expected 8 bytes, got {found}"
  | .dequeue job cause =>
    s!"dequeue of job {job.toHex} failed after it left the runnable queue: {cause.message}"
  | .config cause => s!"Configuration error: {cause.message}"
  | .toml => "TOML parsing error"
  | .metric cause => s!"metrics error: {cause.message}"
  | .closed => "scheduler actor has shut down"
  | .refused cause => cause.message
  | .panicked => "scheduler actor panicked"

/-- The error in words, followed by the words for each cause behind it. -/
def chain : Error → List String
  | .dequeue job cause => (Error.dequeue job cause).message :: cause.chain
  | .file cause => [(Error.file cause).message, cause.message]
  | .metric cause => [(Error.metric cause).message, cause.message]
  | e => [e.message]

/-- What is reported for an error behind the removal from the runnable queue. What did not return
is no error, and goes through. -/
def dequeued (job : JobId) : Error → Error
  | .panicked => .panicked
  | cause => .dequeue job cause

/-- Whether the stored state disagrees with itself. -/
def isFatal : Error → Bool
  | .dequeue _ _ | .corrupt _ => true
  | _ => false

theorem dequeued_of_ne {job : JobId} {e : Error} (h : e ≠ .panicked) :
    e.dequeued job = .dequeue job e := by
  cases e with
  | panicked => exact absurd rfl h
  | _ => rfl

/-- Whether the key or the job asked for is just not there. -/
def isNotFound : Error → Bool
  | .notFound => true
  | _ => false

end Error

end WorkQueue
