import WorkQueue.Proofs.Scheduler.Keeps
import WorkQueue.Scheduler.Drain

/-!
# Pushing a job

What `push` does to the books of a scheduler. A job that is stored changes nothing (`push_known`).
Any other is stored and then noted, in the queue or under all that it waits for; a store that comes
to refuse writes stops this at the first write or at a later one (`push_new`).
-/

namespace WorkQueue

namespace Books

variable {J : Type}

/-- Notes that a job waits for each of some jobs. -/
def register (b : Books J) (dependencies : List JobId) (id : JobId) : Books J :=
  { b with waiting := fun d =>
      if d ∈ dependencies then (b.waiting d).add id else b.waiting d }

/-- Queues a job that waits for nothing, and notes all that any other waits for. -/
def note (b : Books J) (waits : List JobId) (id : JobId) : Books J :=
  if waits.isEmpty then b.enqueue id else b.register waits id

/-- Stores a job and notes what it waits for. -/
def push [Job J] (b : Books J) (job : J) (waits : List JobId) : Books J :=
  (b.put job).note waits (Job.id job)

@[simp] theorem jobs_note (b : Books J) (waits : List JobId) (id : JobId) :
    (b.note waits id).jobs = b.jobs := by
  rw [note]
  split <;> rfl

@[simp] theorem pending_note (b : Books J) (waits : List JobId) (id : JobId) :
    (b.note waits id).pending = b.pending := by
  rw [note]
  split <;> rfl

theorem register_cons (b : Books J) (dependency : JobId) (rest : List JobId) (id : JobId) :
    b.register (dependency :: rest) id = (b.wait dependency id).register rest id := by
  have htwice : ∀ r : Roll, (r.add id).add id = r.add id := fun r => by
    rw [Roll.add, if_pos (by simp)]
  simp only [register, wait, Books.mk.injEq, true_and, and_true]
  funext d
  by_cases hd : d = dependency
  · subst hd
    by_cases hr : d ∈ rest <;> simp [hr, htwice]
  · simp [hd]

end Books

namespace Scheduler

variable {J : Type} [Job J]

/-- What `push` does once a job is stored. -/
def note (waits : List JobId) (id : JobId) : LiveM (Scheduler J) Unit :=
  if waits.isEmpty then addRunnable id
  else waits.forM fun dependency => addDependency dependency id

theorem push_run (missing : J → Except Error (List JobId)) (job : J) (live : Live (Scheduler J)) :
    push missing job live = match hasJob (Job.id job) live with
      | .error e t => .error e t
      | .ok true t => .ok false t
      | .ok false t =>
        (do
          let waits ← MonadExcept.ofExcept (missing job)
          putJob job
          note waits (Job.id job)
          return true : LiveM (Scheduler J) Bool) t := by
  rw [push, Runs.bind_apply]
  cases hasJob (Job.id job) live with
  | error e t => rfl
  | ok known t =>
    cases known with
    | true => rfl
    | false =>
      simp only [Bool.false_eq_true, if_false, Runs.bind_apply]
      cases missing job with
      | error e => rfl
      | ok waits =>
        simp only [Runs.ofExcept_ok, note]
        cases putJob job t with
        | error e u => rfl
        | ok _ u =>
          cases waits.isEmpty <;> rfl

namespace Keeps

variable {ids : List JobId} {parse : Parser J} {b : Books J} {live : Live (Scheduler J)}

/-- Noting a job under one dependency after the other, all of them or those before the first
refused write. -/
theorem register (hids : Hashed ids) (id : JobId) :
    ∀ (waits : List JobId) (b : Books J) (live : Live (Scheduler J)), Keeps ids parse b live →
      waits ⊆ ids →
      (∀ d ∈ waits, id ∉ (b.waiting d).members → (b.waiting d).puts + 1 < UInt64.size) →
      (∃ live', waits.forM (Scheduler.addDependency · id) live = .ok ⟨⟩ live' ∧
        Keeps ids parse (b.register waits id) live' ∧
        (live.store.writesLeft = none → live'.store.writesLeft = none)) ∨
      (live.store.writesLeft ≠ none ∧ ∃ done d rest live', waits = done ++ d :: rest ∧
        waits.forM (Scheduler.addDependency · id) live = .error (.file .writeRefused) live' ∧
        Keeps ids parse (b.register done id) live' ∧
        id ∉ ((b.register done id).waiting d).members)
  | [], b, live, h, _, _ => .inl ⟨live, rfl, h, fun hs => hs⟩
  | d :: rest, b, live, h, hin, hroom => by
    rw [Runs.forM_cons_apply]
    rcases h.addDependency hids (hin List.mem_cons_self) id (hroom d List.mem_cons_self) with
      ⟨mid, hok, hmid, hn⟩ | ⟨hw, hnew, last, herr, hlast⟩
    · rw [hok]
      -- A dependency that is named twice needs room once.
      have hroom' : ∀ d' ∈ rest, id ∉ ((b.wait d id).waiting d').members →
          ((b.wait d id).waiting d').puts + 1 < UInt64.size := by
        intro d' hd' hnot
        by_cases he : d' = d
        · simp [Books.wait, he] at hnot
        · simp only [Books.wait, if_neg he] at hnot ⊢
          exact hroom d' (List.mem_cons_of_mem _ hd') hnot
      rcases register hids id rest _ mid hmid (fun d' hd' => hin (List.mem_cons_of_mem _ hd'))
          hroom' with ⟨last, hall, hlast, hn'⟩ | ⟨hw, done, d', rest', last, rfl, herr, hlast, hnot⟩
      · rw [← Books.register_cons] at hlast
        exact .inl ⟨last, hall, hlast, fun hs => hn' (hn hs)⟩
      · rw [← Books.register_cons] at hlast hnot
        exact .inr ⟨fun hs => hw (hn hs), d :: done, d', rest', last, rfl, herr, hlast, hnot⟩
    · rw [herr]
      exact .inr ⟨by simp [hw], [], d, rest, last, rfl, rfl, hlast, hnew⟩

/-- Queueing a job or noting what it waits for; where a write is refused, the job is missing from
the queue or from one of its dependencies. -/
theorem note (hids : Hashed ids) (h : Keeps ids parse b live) {waits : List JobId}
    (hin : waits ⊆ ids) (id : JobId) (hqueue : b.queue.puts + 1 < UInt64.size)
    (hroom : ∀ d, (b.waiting d).puts + 1 < UInt64.size) :
    (∃ live', Scheduler.note waits id live = .ok ⟨⟩ live' ∧ Keeps ids parse (b.note waits id) live' ∧
      (live.store.writesLeft = none → live'.store.writesLeft = none)) ∨
    (live.store.writesLeft ≠ none ∧ ∃ done rest live', waits = done ++ rest ∧
      Scheduler.note waits id live = .error (.file .writeRefused) live' ∧
      Keeps ids parse (b.register done id) live' ∧
      ((waits = [] ∧ id ∉ b.queue.members) ∨
        ∃ d ∈ waits, id ∉ ((b.register done id).waiting d).members)) := by
  rw [Scheduler.note, Books.note]
  by_cases he : waits.isEmpty
  · rw [if_pos he, if_pos he]
    have hnil := List.isEmpty_iff.mp he
    rcases h.addRunnable hids id fun _ => hqueue with hok | ⟨hw, hnew, last, herr, hlast⟩
    · exact .inl hok
    · exact .inr ⟨by simp [hw], [], [], last, hnil, herr, hlast, .inl ⟨hnil, hnew⟩⟩
  · rw [if_neg he, if_neg he]
    rcases Keeps.register hids id waits b live h hin fun d _ _ => hroom d with
      hok | ⟨hw, done, d, rest, last, hsplit, herr, hlast, hnot⟩
    · exact .inl hok
    · exact .inr ⟨hw, done, d :: rest, last, hsplit, herr, hlast, .inr ⟨d, by simp [hsplit], hnot⟩⟩

/-- A stored job is not pushed again, and nothing changes. -/
theorem push_known (h : Keeps ids parse b live) (missing : J → Except Error (List JobId)) {job : J}
    (hjob : (b.job? (Job.id job)).isSome = true) : push missing job live = .ok false live := by
  rw [push_run, h.hasJob, hjob]

/-- Nothing is pushed when it cannot be told what the job waits for. -/
theorem push_unknown (h : Keeps ids parse b live) {missing : J → Except Error (List JobId)}
    {job : J} {e : Error} (hjob : b.job? (Job.id job) = none) (hmissing : missing job = .error e) :
    push missing job live = .error e live := by
  rw [push_run, h.hasJob, hjob, hmissing]
  rfl

/-- A new job is stored and noted; or its first write is refused and nothing changes; or a later
write is refused, and the job stays stored but is not noted everywhere. -/
theorem push_new (hids : Hashed ids) (h : Keeps ids parse b live)
    {missing : J → Except Error (List JobId)} {job : J} {waits : List JobId}
    (hnew : b.job? (Job.id job) = none) (hmissing : missing job = .ok waits)
    (hjob : parse (Job.bytes job) = .ok job) (hin : waits ⊆ ids)
    (hpending : b.pending + 1 < UInt64.size) (hqueue : b.queue.puts + 1 < UInt64.size)
    (hroom : ∀ d, (b.waiting d).puts + 1 < UInt64.size) :
    (∃ live', push missing job live = .ok true live' ∧ Keeps ids parse (b.push job waits) live' ∧
      (live.store.writesLeft = none → live'.store.writesLeft = none)) ∨
    (live.store.writesLeft = some 0 ∧ push missing job live = .error (.file .writeRefused) live) ∨
    (live.store.writesLeft ≠ none ∧ live.store.writesLeft ≠ some 0 ∧
      ∃ done rest live', waits = done ++ rest ∧
        push missing job live = .error (.file .writeRefused) live' ∧
        Keeps ids parse ((b.put job).register done (Job.id job)) live' ∧
        ((waits = [] ∧ Job.id job ∉ b.queue.members) ∨
          ∃ d ∈ waits,
            Job.id job ∉ (((b.put job).register done (Job.id job)).waiting d).members)) := by
  rw [push_run, h.hasJob, hnew, hmissing]
  simp only [Option.isSome_none, Runs.bind_apply, Runs.ofExcept_ok]
  by_cases hw : live.store.writesLeft = some 0
  · rw [putJob_run, if_pos hw]
    exact .inr (.inl ⟨hw, rfl⟩)
  rcases h.putJob hids hjob hpending with ⟨mid, hok, hmid, hn⟩ | ⟨hw', -⟩
  · rw [hok]
    rcases hmid.note hids hin (Job.id job) hqueue hroom with
      ⟨last, hnote, hlast, hn'⟩ | ⟨hwm, done, rest, last, hsplit, herr, hlast, hnot⟩
    · simp only [hnote]
      exact .inl ⟨last, rfl, hlast, fun hs => hn' (hn hs)⟩
    · simp only [herr]
      exact .inr (.inr ⟨fun hs => hwm (hn hs), hw, done, rest, last, hsplit, rfl, hlast, hnot⟩)
  · exact absurd hw' hw

end Keeps

end Scheduler

end WorkQueue
