import WorkQueue.Proofs.Store.Durable

/-!
# A log file and memory agree

A `Request` is what a store is asked to do. `Request.serve` has a store do one request after the
other, and goes on after an error. A store that is only in memory has nothing to do for `compact`
and `reopen`.

`serve_agrees`: whatever is asked of a store kept in a log file, with compaction and reopening in
between, it answers as a store in memory does that is asked the same. Only the lengths in the log
set a bound, which `AllFramed` states.
-/

namespace WorkQueue

/-- Something asked of a store. -/
inductive Request where
  | get (key : Bytes)
  | has (key : Bytes)
  | scan (lead : Bytes)
  | put (key value : Bytes)
  | delete (key : Bytes)
  | write (batch : Batch)
  | compact
  | reopen
deriving DecidableEq, Repr

/-- What a store answers. -/
inductive Answer where
  | done
  | value (bytes : Bytes)
  | flag (b : Bool)
  | entries (entries : List (Bytes × Bytes))
deriving DecidableEq, Repr

namespace Request

/-- Does what is asked. -/
def perform : Request → StoreM Answer
  | get key => return .value (← Store.get key)
  | has key => return .flag (← Store.has key)
  | scan lead => return .entries (← Store.scan lead)
  | put key value => do Store.put key value; return .done
  | delete key => do Store.delete key; return .done
  | write batch => do Store.write batch; return .done
  | compact => do Store.compact; return .done
  | reopen => do Store.reopen; return .done

/-- The answer or the error, and the store afterwards. -/
def attempt (request : Request) (s : Store) : Except Error Answer × Store :=
  match request.perform s with
  | .ok answer t => (.ok answer, t)
  | .error e t => (.error e, t)

/-- The answers to requests, one after the other, and the store afterwards. -/
def serve : List Request → Store → List (Except Error Answer) × Store
  | [], s => ([], s)
  | request :: rest, s =>
    let (answer, next) := request.attempt s
    let (answers, last) := serve rest next
    (answer :: answers, last)

/-- What a request writes to the log of a store with the given table has a length that can be
written. -/
def Framed (table : Table) : Request → Prop
  | put key value => Log.Framed [.put key value]
  | delete key => Log.Framed [.delete key]
  | write batch => Log.Framed batch
  | compact => Log.Framed (Store.snapshot table)
  | get _ | has _ | scan _ | reopen => True

/-- Everything that the requests write has a length that can be written. -/
def AllFramed : List Request → Store → Prop
  | [], _ => True
  | request :: rest, s => request.Framed s.table ∧ AllFramed rest (request.attempt s).2

theorem attempt_of_ok {request : Request} {s t : Store} {answer : Answer}
    (h : request.perform s = .ok answer t) : request.attempt s = (.ok answer, t) := by
  rw [attempt, h]

theorem attempt_of_error {request : Request} {s t : Store} {e : Error}
    (h : request.perform s = .error e t) : request.attempt s = (.error e, t) := by
  rw [attempt, h]

/-! ## One request -/

/-- A store in memory that holds what a store in a log file holds. -/
structure Agrees (s m : Store) : Prop where
  table : m.table = s.table
  log : m.log = none
  writesLeft : m.writesLeft = none

namespace Agrees

variable {s m : Store}

theorem write (h : Agrees s m) (batch : Batch) :
    ∃ m', Store.write batch m = .ok () m' ∧
      ∀ t, t.table = batch.apply s.table → Agrees t m' := by
  refine ⟨{ m with table := batch.apply m.table }, ?_, fun t ht => ⟨?_, h.log, h.writesLeft⟩⟩
  · simp only [Store.write, h.writesLeft, Store.land, h.log]
  · rw [ht, h.table]

/-- Requests that only read have the same answers. -/
theorem get (h : Agrees s m) (key : Bytes) :
    ((Request.get key).attempt s).1 = ((Request.get key).attempt m).1 ∧
      ((Request.get key).attempt s).2 = s ∧ ((Request.get key).attempt m).2 = m := by
  simp only [attempt, perform, Store.get, Runs.bind_apply, Store.get?, h.table]
  cases s.table.get? key <;> exact ⟨rfl, rfl, rfl⟩

end Agrees

open Store (Logged)

/-- A batch is written to both, whatever the request is called. -/
theorem attempt_agrees_of_write {s m : Store} {path : String} {location : Location}
    {batches : List Batch} (hs : Logged s path location batches) (hm : Agrees s m) {batch : Batch}
    (hb : Log.Framed batch) {request : Request}
    (hrequest : request.perform = (do Store.write batch; return .done)) :
    (∃ batches', Logged (request.attempt s).2 path location batches') ∧
      Agrees (request.attempt s).2 (request.attempt m).2 ∧
      (request ≠ .compact → (request.attempt s).1 = (request.attempt m).1) := by
  obtain ⟨t, batches', hok, hlog, htable⟩ := hs.write hb
  obtain ⟨m', hok', hagree⟩ := hm.write batch
  have ht : request.attempt s = (.ok .done, t) :=
    attempt_of_ok (by rw [hrequest]; exact Runs.bind_of_ok hok)
  have hm' : request.attempt m = (.ok .done, m') :=
    attempt_of_ok (by rw [hrequest]; exact Runs.bind_of_ok hok')
  rw [ht, hm']
  exact ⟨⟨batches', hlog⟩, hagree t htable, fun _ => rfl⟩

/-- One request keeps a store with its log, and has the answer that a store in memory gives. -/
theorem attempt_agrees {s m : Store} {path : String} {location : Location} {batches : List Batch}
    (hs : Logged s path location batches) (hm : Agrees s m) {request : Request}
    (hf : request.Framed m.table) :
    (∃ batches', Logged (request.attempt s).2 path location batches') ∧
      Agrees (request.attempt s).2 (request.attempt m).2 ∧
      (request ≠ .compact → (request.attempt s).1 = (request.attempt m).1) := by
  cases request with
  | get key =>
    obtain ⟨ha, hs', hm'⟩ := hm.get key
    rw [hs', hm']
    exact ⟨⟨batches, hs⟩, hm, fun _ => ha⟩
  | has key =>
    refine ⟨⟨batches, hs⟩, hm, fun _ => ?_⟩
    show Except.ok (Answer.flag (s.table.contains key)) = Except.ok (.flag (m.table.contains key))
    rw [hm.table]
  | scan lead =>
    refine ⟨⟨batches, hs⟩, hm, fun _ => ?_⟩
    show Except.ok (Answer.entries (s.table.scan lead)) = Except.ok (.entries (m.table.scan lead))
    rw [hm.table]
  | put key value => exact attempt_agrees_of_write hs hm hf rfl
  | delete key => exact attempt_agrees_of_write hs hm hf rfl
  | write batch => exact attempt_agrees_of_write hs hm hf rfl
  | compact =>
    have hmem : (Request.compact.attempt m).2 = m := by
      simp only [attempt, perform, Runs.bind_apply, Store.compact, hm.log, Runs.pure_apply]
    rw [hmem]
    rcases hs.compact (hm.table ▸ hf) with ⟨t, batches', hok, hlog, htable⟩ | ⟨cause, _, herr, -⟩
    · rw [attempt_of_ok (Runs.bind_of_ok hok)]
      exact ⟨⟨batches', hlog⟩, ⟨hm.table.trans htable.symm, hm.log, hm.writesLeft⟩,
        fun h => absurd rfl h⟩
    · rw [attempt_of_error (Runs.bind_of_error herr)]
      exact ⟨⟨batches, hs⟩, hm, fun h => absurd rfl h⟩
  | reopen =>
    have hok' : Store.reopen m = .ok () m := by simp only [Store.reopen, hm.log]
    rw [attempt_of_ok (Runs.bind_of_ok hs.reopen), attempt_of_ok (Runs.bind_of_ok hok')]
    exact ⟨⟨batches, hs⟩, hm, fun _ => rfl⟩

/-! ## A run of requests -/

theorem serve_agrees_from {s m : Store} {path : String} {location : Location}
    {batches : List Batch} (hs : Logged s path location batches) (hm : Agrees s m)
    {requests : List Request} (hf : AllFramed requests m) :
    (∃ batches', Logged (serve requests s).2 path location batches') ∧
      ∀ i : Nat, requests[i]? ≠ some Request.compact → (serve requests s).1[i]? = (serve requests m).1[i]? := by
  induction requests generalizing s m batches with
  | nil => exact ⟨⟨batches, hs⟩, fun _ _ => rfl⟩
  | cons request rest ih =>
    obtain ⟨hfirst, hrest⟩ := hf
    obtain ⟨⟨batches', hs'⟩, hm', hanswer⟩ := attempt_agrees hs hm hfirst
    obtain ⟨hlast, hanswers⟩ := ih hs' hm' hrest
    refine ⟨hlast, fun i hi => ?_⟩
    cases i with
    | zero =>
      show some (request.attempt s).1 = some (request.attempt m).1
      rw [hanswer fun h => hi (by rw [h]; rfl)]
    | succ i => exact hanswers i hi

/-- **A log file and memory agree.** A store that starts without a file answers every request but
compaction as a store in memory does, in every order of requests. Whatever has been asked of it,
opening its log again gives the same store with nothing cut off, the log holds as many records as
the store counts, and compaction fails only if its scratch file cannot be opened, changing
nothing. -/
theorem serve_agrees {path : String} {files files' : FileTree} {durable : Store}
    (hopen : Store.openLog path files = .ok durable files')
    (hnew : ∀ log, durable.log = some log → files.bytes? log.location = none)
    (requests : List Request) (hframed : AllFramed requests (Store.volatile files)) :
    (∀ i : Nat, requests[i]? ≠ some Request.compact →
      (serve requests durable).1[i]? = (serve requests (Store.volatile files)).1[i]?) ∧
    Store.reopen (serve requests durable).2 = .ok () (serve requests durable).2 ∧
    (∃ log bytes replay, (serve requests durable).2.log = some log ∧
      (serve requests durable).2.files.bytes? log.location = some bytes ∧
      Log.replay bytes = .ok replay ∧ replay.length = bytes.length ∧
      replay.batches.length = log.records) ∧
    (∀ e t, Store.compact (serve requests durable).2 = .error e t →
      t = (serve requests durable).2 ∧
      ∃ cause tree, e = .file cause ∧ FileTree.openFile (Store.scratchPath path)
        (serve requests durable).2.files = .error cause tree) := by
  obtain ⟨location, hlogged⟩ := Store.logged_of_openLog hopen hnew
  have hagree : Agrees durable (Store.volatile files) := ⟨hlogged.table.symm, rfl, rfl⟩
  obtain ⟨⟨batches, hlast⟩, hanswers⟩ := serve_agrees_from hlogged hagree hframed
  refine ⟨hanswers, hlast.reopen, ?_, fun e t he => ?_⟩
  · exact ⟨_, _, _, hlast.log, hlast.bytes, Log.replay_written hlast.framed, rfl, rfl⟩
  · simp only [Store.compact, hlast.log] at he
    split at he
    · rename_i cause tree ho
      cases he
      exact ⟨rfl, cause, tree, rfl, ho⟩
    · cases he

/-- Requests with a compaction and two restarts between the writes. -/
def restarts : List Request :=
  [.put [97] [1], .write [.put [98] [2], .delete [97]], .compact, .reopen, .put [97] [3], .reopen,
    .scan []]

/-- The entries are there after both restarts. -/
theorem serve_agrees_restarts : ∃ durable files', Store.openLog "q.db" .empty = .ok durable files' ∧
    (serve restarts durable).1[6]? = some (.ok (.entries [([97], [3]), ([98], [2])])) := by
  have hframed : AllFramed restarts (Store.volatile .empty) := by
    simp only [AllFramed, restarts, Framed]
    decide +kernel
  obtain ⟨durable, files', hopen, hnew⟩ : ∃ durable files',
      Store.openLog "q.db" .empty = .ok durable files' ∧
        ∀ log, durable.log = some log → FileTree.empty.bytes? log.location = none := by
    refine ⟨_, _, by with_unfolding_all rfl, ?_⟩
    rintro log ⟨⟩
    rfl
  obtain ⟨hanswers, -⟩ := serve_agrees hopen hnew restarts hframed
  refine ⟨durable, files', hopen, ?_⟩
  rw [hanswers 6 (by decide)]
  rfl

end Request

end WorkQueue
