import WorkQueue.Main
import WorkQueue.Proofs.Files.Directories
import WorkQueue.Proofs.Files.Reading
import WorkQueue.Proofs.Files.Extensions
import WorkQueue.Proofs.Log.Written
import WorkQueue.Proofs.Log.Frames
import WorkQueue.Proofs.Log.Torn
import WorkQueue.Proofs.Log.Overwritten
import WorkQueue.Proofs.Log.Canonical
import WorkQueue.Proofs.Log.Payloads
import WorkQueue.Proofs.Store.Agreement
import WorkQueue.Proofs.Store.Durable
import WorkQueue.Proofs.Store.Recovery
import WorkQueue.Proofs.Store.Opening
import WorkQueue.Proofs.Store.Compaction
import WorkQueue.Proofs.Store.Lengths
import WorkQueue.Proofs.Store.Narrow
import WorkQueue.Proofs.Store.Scan
import WorkQueue.Proofs.Store.Views
import WorkQueue.Proofs.OrderedSet.Runs
import WorkQueue.Proofs.OrderedSet.Contents
import WorkQueue.Proofs.OrderedSet.Sessions
import WorkQueue.Proofs.Store.Isolation
import WorkQueue.Proofs.Cache
import WorkQueue.Proofs.Cache.Capacity
import WorkQueue.Proofs.Metrics
import WorkQueue.Proofs.Metrics.Registrations
import WorkQueue.Proofs.JobId.Hexadecimal
import WorkQueue.Proofs.Job.Canonical
import WorkQueue.Proofs.Scheduler.Parts
import WorkQueue.Proofs.Scheduler.Plain
import WorkQueue.Proofs.Scheduler.Coherent
import WorkQueue.Proofs.Scheduler.Remembered
import WorkQueue.Proofs.Scheduler.Verbs
import WorkQueue.Proofs.Scheduler.Dequeue
import WorkQueue.Proofs.Scheduler.Buckets
import WorkQueue.Proofs.Scheduler.Rolls
import WorkQueue.Proofs.Scheduler.Books
import WorkQueue.Proofs.Scheduler.Filed
import WorkQueue.Proofs.Scheduler.Keeps
import WorkQueue.Proofs.Scheduler.Push
import WorkQueue.Proofs.Scheduler.Drain
import WorkQueue.Proofs.Scheduler.Reached
import WorkQueue.Proofs.Scheduler.Retry
import WorkQueue.Proofs.Scheduler.Placed
import WorkQueue.Proofs.Scheduler.Opened
import WorkQueue.Proofs.Scheduler.Release
import WorkQueue.Proofs.Scheduler.Tidy
import WorkQueue.Proofs.Scheduler.History
import WorkQueue.Proofs.Scheduler.InOrder
import WorkQueue.Proofs.Scheduler.Completion
import WorkQueue.Proofs.Scheduler.Sessions
import WorkQueue.Proofs.Scheduler.Unseen
import WorkQueue.Proofs.Scheduler.Held
import WorkQueue.Proofs.Scheduler.Accounts
import WorkQueue.Proofs.Scheduler.Orderly
import WorkQueue.Proofs.Scheduler.Outcomes
import WorkQueue.Proofs.Scheduler.Refusals
import WorkQueue.Proofs.Scheduler.Precedence
import WorkQueue.Proofs.Scheduler.Blind
import WorkQueue.Proofs.Scheduler.Entries
import WorkQueue.Proofs.Scheduler.Edits
import WorkQueue.Proofs.Scheduler.Undone
import WorkQueue.Proofs.Scheduler.Inventory
import WorkQueue.Proofs.Scheduler.Handle
import WorkQueue.Proofs.Scheduler.Idle
import WorkQueue.Proofs.Scheduler.Lined
import WorkQueue.Proofs.Scheduler.Backlog
import WorkQueue.Proofs.Scheduler.Sited
import WorkQueue.Proofs.Scheduler.Dwindling
import WorkQueue.Proofs.Scheduler.Cut
import WorkQueue.Proofs.Scheduler.Ending
import WorkQueue.Proofs.Scheduler.Fresh
import WorkQueue.Proofs.Config.Usable
import WorkQueue.Proofs.CommandLine.Turns
import WorkQueue.Proofs.CommandLine.Desk
import WorkQueue.Proofs.CommandLine.Invocations
import WorkQueue.Proofs.CommandLine.Spoilt
