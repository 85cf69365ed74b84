import WorkQueue.CommandLine.Run
import WorkQueue.Proofs.Scheduler.Idle

/-!
# Turns of a queue

What a run of the program comes to for who looks at its output: a `Turn` with a list of ids, which
is kept from one run to the next. `Turn.play` says what a turn tells and which list it leaves.

A push goes through files in turn, each with what can be read from it. Ids go to the end of the list
unless they are in it. A drain takes ids from the front. The other turns tell how long the list is,
empty it, or leave it alone.

What a turn writes at once may be too long for a record of the log. `Turn.Brings` says which
condition a turn brings a whole log into; if all that it writes fits (`Turn.Framed`), the log stays
whole (`Framed.brings`).
-/

namespace WorkQueue

open Log (Condition)

/-- A run as it is seen by the queue of ids that the runs share. -/
inductive Turn where
  /-- The files that are read one after the other, with what they hold. -/
  | push (files : List (String × Except FileError Bytes))
  | drain (limit : Option Nat)
  | stats (metrics : Bool)
  | missing
  | reset
  /-- The log, and why the file beside it cannot be opened, in which a new one is put together. -/
  | compact (path : String) (refusal : Option FileError)

namespace Turn

/-- The metrics that the caches of a scheduler start with. -/
def newMetrics : CacheMetrics × CacheMetrics :=
  (⟨"bootstrap_jobs_cache", 0, 0, 0⟩, ⟨"bootstrap_dependents_cache", 0, 0, 0⟩)

/-- A registry with the metrics of caches that were not used. -/
def newRegistry : Registry := ⟨newMetrics.1.families ++ newMetrics.2.families⟩

/-- The queue after an id has been pushed. -/
def enqueue (queue : List JobId) (id : JobId) : List JobId :=
  if id ∈ queue then queue else queue ++ [id]

/-- What is told of an id that is pushed. -/
def told (queue : List JobId) (id : JobId) : String :=
  if id ∈ queue then s!"{id.toHex} already queued" else id.toHex

/-- The files are pushed in turn. The first that cannot be read ends this. -/
def pushAll : List (String × Except FileError Bytes) → List JobId → Outcome × List JobId
  | [], queue => (⟨[], none⟩, queue)
  | (path, .error cause) :: _, queue => (⟨[], some (.jobFile path cause)⟩, queue)
  | (_, .ok bytes) :: rest, queue =>
    let id := Job.id (RawJob.mk bytes)
    let (outcome, left) := pushAll rest (enqueue queue id)
    ({ outcome with output := told queue id :: outcome.output }, left)

/-- What a turn tells, and the queue after it. -/
def play : Turn → List JobId → Outcome × List JobId
  | push files, queue => pushAll files queue
  | drain limit, queue =>
    let n := limit.elim queue.length (min · queue.length)
    (⟨(queue.take n).map JobId.toHex, none⟩, queue.drop n)
  | stats metrics, queue =>
    let counts := [s!"pending jobs:  {queue.length}", s!"runnable jobs: {queue.length}",
      "missing IDs:   0"]
    (⟨counts ++ if metrics then newRegistry.exposition else [], none⟩, queue)
  | missing, queue => (⟨[], none⟩, queue)
  | reset, _ => (⟨["cleared"], none⟩, [])
  | compact path none, queue => (⟨[s!"compacted {path} (1 records)"], none⟩, queue)
  | compact _ (some cause), queue => (⟨[], some (.error (.file cause))⟩, queue)

/-- What turns tell one after the other. -/
def playAll : List Turn → List JobId → List Outcome
  | [], _ => []
  | turn :: rest, queue => (turn.play queue).1 :: playAll rest (turn.play queue).2

/-- The queue after turns. -/
def left : List Turn → List JobId → List JobId
  | [], queue => queue
  | turn :: rest, queue => left rest (turn.play queue).2

theorem playAll_append (first second : List Turn) (queue : List JobId) :
    playAll (first ++ second) queue = playAll first queue ++ playAll second (left first queue) := by
  induction first generalizing queue with
  | nil => rfl
  | cons turn rest ih => simp only [List.cons_append, playAll, left, ih]

/-- What a turn writes at once fits into a record of the log. The table is the one before it. -/
def Framed (table : Table) : Turn → Prop
  | push files => ∀ path bytes, (path, .ok bytes) ∈ files →
      Log.Framed (Scheduler.filing (RawJob.mk bytes))
  | reset => Log.Framed (Scheduler.clearing table)
  | compact _ _ => Log.Framed (Store.snapshot table)
  | drain _ | stats _ | missing => True

/-- How many files a turn pushes. -/
def pushes : Turn → Nat
  | push files => files.length
  | _ => 0

/-- How many files turns push. -/
def allPushes : List Turn → Nat
  | [] => 0
  | turn :: rest => turn.pushes + allPushes rest

theorem allPushes_append (first second : List Turn) :
    allPushes (first ++ second) = allPushes first + allPushes second := by
  induction first with
  | nil => exact (Nat.zero_add _).symm
  | cons turn rest ih => simp only [List.cons_append, allPushes, ih, Nat.add_assoc]

/-! ## The condition of the log -/

/-- What pushing the contents of a file makes of the condition of the log. -/
def Pushes (c : Condition) (queue : List JobId) (bytes : Bytes) (c' : Condition) : Prop :=
  if Job.id (RawJob.mk bytes) ∈ queue then c' = c
  else c.Writes (Scheduler.filing (RawJob.mk bytes)) c'

/-- What pushing files in turn makes of it. -/
def PushesAll : Condition → List (String × Except FileError Bytes) → List JobId → Condition → Prop
  | c, [], _, c' => c' = c
  | c, (_, .error _) :: _, _, c' => c' = c
  | c, (_, .ok bytes) :: rest, queue, c' => ∃ mid, Pushes c queue bytes mid ∧
      PushesAll mid rest (enqueue queue (Job.id (RawJob.mk bytes))) c'

/-- The condition that a turn brings a whole log into. The table is the one before it. -/
def Brings (table : Table) (queue : List JobId) : Turn → Condition → Prop
  | push files, c => PushesAll .whole files queue c
  | reset, c => Condition.whole.Writes (Scheduler.clearing table) c
  | compact _ none, c => Condition.whole.Writes (Store.snapshot table) c
  | compact _ (some _), c | drain _, c | stats _, c | missing, c => c = .whole

theorem pushesAll_of_framed {c : Condition} {files : List (String × Except FileError Bytes)}
    (h : ∀ path bytes, (path, .ok bytes) ∈ files →
      Log.Framed (Scheduler.filing (RawJob.mk bytes))) (queue : List JobId) :
    PushesAll c files queue c := by
  induction files generalizing queue with
  | nil => rfl
  | cons file rest ih =>
    obtain ⟨path, read⟩ := file
    cases read with
    | error cause => rfl
    | ok bytes =>
      refine ⟨c, ?_, ih (fun path bytes hmem => h path bytes (List.mem_cons_of_mem _ hmem)) _⟩
      rw [Pushes]
      split
      · rfl
      · exact .framed (h path bytes List.mem_cons_self)

theorem Framed.brings {turn : Turn} {table : Table} (h : turn.Framed table) (queue : List JobId) :
    turn.Brings table queue .whole := by
  cases turn with
  | push files => exact pushesAll_of_framed h queue
  | reset => exact .framed h
  | compact path refusal =>
    cases refusal with
    | none => exact .framed h
    | some cause => rfl
  | drain limit => rfl
  | stats metrics => rfl
  | missing => rfl

end Turn

end WorkQueue
