import Mathlib.Algebra.BigOperators.Group.Finset.Piecewise
import Mathlib.Algebra.Order.BigOperators.Group.Finset
import WorkQueue.Proofs.Scheduler.Drain
import WorkQueue.Proofs.Scheduler.Push

/-!
# The states a driver reaches

`Reached` are the states of a scheduler that is opened on a store without entries and then driven:
jobs are pushed and drained, caching is given up, the scheduler is opened again, and all that with a
store that may refuse writes at any time. `Reached.sound` gives the books of such a state.

Positions in the queue and in a bucket are numbered upwards, and the numbers must not run out. A
pushed job uses up one position in the queue, and each of its missing dependencies one position in
a bucket and later, when the job is released, one in the queue. `Bounded` keeps account of both.
-/

namespace WorkQueue

theorem Roll.length_add_le (r : Roll) (id : JobId) :
    (r.add id).members.length ≤ r.members.length + 1 := by
  rw [Roll.add]
  split <;> simp

namespace Books

variable {J : Type}

/-- How many jobs are noted under the ids of a list. -/
def noted (ids : List JobId) (b : Books J) : Nat :=
  ∑ d ∈ ids.toFinset, (b.waiting d).members.length

theorem noted_wait_le (ids : List JobId) (b : Books J) (dependency dependent : JobId) :
    (b.wait dependency dependent).noted ids ≤ b.noted ids + 1 := by
  have hone : ∀ d ∈ ids.toFinset, ((b.wait dependency dependent).waiting d).members.length ≤
      (b.waiting d).members.length + if d = dependency then 1 else 0 := by
    intro d _
    by_cases h : d = dependency
    · simpa only [wait, if_pos h] using Roll.length_add_le _ _
    · simp [wait, h]
  calc (b.wait dependency dependent).noted ids
      ≤ ∑ d ∈ ids.toFinset, ((b.waiting d).members.length + if d = dependency then 1 else 0) :=
        Finset.sum_le_sum hone
    _ = b.noted ids + if dependency ∈ ids.toFinset then 1 else 0 := by
        rw [Finset.sum_add_distrib, Finset.sum_ite_eq', noted]
    _ ≤ b.noted ids + 1 := by split <;> omega

theorem noted_register_le (ids : List JobId) (id : JobId) :
    ∀ (waits : List JobId) (b : Books J), (b.register waits id).noted ids ≤ b.noted ids + waits.length
  | [], _ => Nat.le_refl _
  | d :: rest, b => by
    have hrest := noted_register_le ids id rest (b.wait d id)
    have hfirst := noted_wait_le ids b d id
    rw [register_cons, List.length_cons]
    omega

theorem noted_release {ids : List JobId} (b : Books J) {dependency : JobId}
    (h : dependency ∈ ids) :
    (b.release dependency).noted ids + (b.waiting dependency).members.length = b.noted ids := by
  have hmem : dependency ∈ ids.toFinset := List.mem_toFinset.mpr h
  have hothers : ∑ d ∈ ids.toFinset.erase dependency, ((b.release dependency).waiting d).members.length
      = ∑ d ∈ ids.toFinset.erase dependency, (b.waiting d).members.length := by
    refine Finset.sum_congr rfl fun d hd => ?_
    simp only [release, if_neg (Finset.ne_of_mem_erase hd)]
  have hzero : ((b.release dependency).waiting dependency).members.length = 0 := by
    simp [release]
  rw [noted, noted, ← Finset.add_sum_erase _ _ hmem, ← Finset.add_sum_erase _ _ hmem, hothers, hzero]
  omega

end Books

namespace Scheduler

variable {W J : Type} [Job J] {ids : List JobId} {parse : Parser J}

/-- The books name only jobs of a list, and have used up at most `n` numbers, with those that are
noted and those that are still to be queued set aside. -/
structure Bounded (ids : List JobId) (n owed : Nat) (b : Books J) : Prop where
  named : ∀ job ∈ b.jobs, Job.id job ∈ ids
  pending : b.pending ≤ n
  waiting : ∀ d, (b.waiting d).puts ≤ n
  queue : b.queue.puts + b.noted ids + owed ≤ n

namespace Bounded

variable {n owed : Nat} {b : Books J}

theorem empty : Bounded ids 0 0 (Books.empty : Books J) :=
  ⟨nofun, Nat.le_refl _, fun _ => Nat.le_refl _, by simp [Books.empty, Books.noted, Roll.empty]⟩

theorem mono {n' owed' : Nat} (h : Bounded ids n owed b) (hn : n ≤ n') (howed : owed' ≤ owed) :
    Bounded ids n' owed' b :=
  ⟨h.named, h.pending.trans hn, fun d => (h.waiting d).trans hn, by have := h.queue; omega⟩

theorem put (h : Bounded ids n owed b) {job : J} (hid : Job.id job ∈ ids) :
    Bounded ids (n + 1) owed (b.put job) := by
  refine ⟨fun other hother => ?_, Nat.succ_le_succ h.pending,
    fun d => (h.waiting d).trans (Nat.le_succ n), h.queue.trans (Nat.le_succ n)⟩
  rcases List.mem_cons.mp hother with rfl | hother
  · exact hid
  · exact h.named other (List.mem_of_mem_filter hother)

theorem enqueue (h : Bounded ids n (owed + 1) b) (id : JobId) :
    Bounded ids n owed (b.enqueue id) := by
  refine ⟨h.named, h.pending, h.waiting, ?_⟩
  have hadd := Roll.puts_add_le b.queue id
  have hqueue := h.queue
  show (b.queue.add id).puts + b.noted ids + owed ≤ n
  omega

theorem register (h : Bounded ids n owed b) (waits : List JobId) (id : JobId) :
    Bounded ids (n + waits.length) owed (b.register waits id) := by
  refine ⟨h.named, h.pending.trans (Nat.le_add_right _ _), fun d => ?_, ?_⟩
  · have hd := h.waiting d
    simp only [Books.register]
    split
    · rename_i hmem
      have hadd := Roll.puts_add_le (b.waiting d) id
      have hlen := List.length_pos_of_mem hmem
      omega
    · omega
  · have hnoted := Books.noted_register_le ids id waits b
    have hqueue := h.queue
    show b.queue.puts + (b.register waits id).noted ids + owed ≤ n + waits.length
    omega

theorem dequeue (h : Bounded ids n owed b) : Bounded ids n owed b.dequeue :=
  ⟨h.named, h.pending, h.waiting, h.queue⟩

theorem drop (h : Bounded ids n owed b) (id : JobId) : Bounded ids n owed (b.drop id) :=
  ⟨fun job hjob => h.named job (List.mem_of_mem_filter hjob),
    (Nat.sub_le _ _).trans h.pending, h.waiting, h.queue⟩

theorem release (h : Bounded ids n owed b) {dependency : JobId} (hid : dependency ∈ ids) :
    Bounded ids n (owed + (b.waiting dependency).members.length) (b.release dependency) := by
  refine ⟨h.named, h.pending, fun d => ?_, ?_⟩
  · simp only [Books.release]
    split
    · exact (Roll.puts_cleared_le _).trans (h.waiting d)
    · exact h.waiting d
  · have hnoted := Books.noted_release b hid
    have hqueue := h.queue
    show b.queue.puts + (b.release dependency).noted ids + _ ≤ n
    omega

theorem push (h : Bounded ids n 0 b) {job : J} (hid : Job.id job ∈ ids) {waits : List JobId} {k : Nat}
    (hlen : waits.length ≤ k) : Bounded ids (n + 1 + k) 0 (b.push job waits) := by
  have hput := h.put hid
  rw [Books.push, Books.note]
  split
  · have hqueue := h.queue
    have hroom : Bounded ids (n + 1 + k) 1 (b.put job) := by
      refine ⟨hput.named, hput.pending.trans (by omega), fun d => (hput.waiting d).trans (by omega), ?_⟩
      show b.queue.puts + b.noted ids + 1 ≤ n + 1 + k
      omega
    exact hroom.enqueue _
  · exact (hput.register waits _).mono (by omega) (Nat.le_refl 0)

end Bounded

/-- A scheduler keeps bounded books. -/
def Sound (ids : List JobId) (parse : Parser J) (n owed : Nat) (live : Live (Scheduler J)) : Prop :=
  ∃ b, Keeps ids parse b live ∧ Bounded ids n owed b

namespace Sound

variable {n owed : Nat} {live : Live (Scheduler J)}

theorem mono {n' owed' : Nat} (h : Sound ids parse n owed live) (hn : n ≤ n')
    (howed : owed' ≤ owed) : Sound ids parse n' owed' live := by
  obtain ⟨b, hk, hb⟩ := h
  exact ⟨b, hk, hb.mono hn howed⟩

theorem getJob (hids : Hashed ids) (h : Sound ids parse n owed live) (id : JobId) :
    Sound ids parse n owed (Runs.final (Scheduler.getJob id live)) := by
  obtain ⟨b, hk, hb⟩ := h
  cases hjob : b.job? id with
  | none =>
    obtain ⟨live', herr, hk'⟩ := hk.getJob_none hids hjob
    rw [herr]
    exact ⟨b, hk', hb⟩
  | some job =>
    obtain ⟨live', hok, hk', -⟩ := hk.getJob hids hjob
    rw [hok]
    exact ⟨b, hk', hb⟩

theorem addRunnable (hids : Hashed ids) (h : Sound ids parse n (owed + 1) live)
    (hn : n < UInt64.size) (id : JobId) :
    Sound ids parse n owed (Runs.final (Scheduler.addRunnable id live)) := by
  obtain ⟨b, hk, hb⟩ := h
  have hqueue := hb.queue
  rcases hk.addRunnable hids id fun _ => by omega with ⟨live', hok, hk', -⟩ | ⟨-, -, live', herr, hk'⟩
  · rw [hok]
    exact ⟨_, hk', hb.enqueue id⟩
  · rw [herr]
    exact ⟨b, hk', hb.mono (Nat.le_refl n) (Nat.le_succ owed)⟩

theorem releaseOne (hids : Hashed ids) (h : Sound ids parse n (owed + 1) live)
    (hn : n < UInt64.size) (runner : Runner W J) (id : JobId) (w : W) :
    Sound ids parse n owed (Runs.final (Scheduler.releaseOne runner id (w, live))).2 := by
  have hget := h.getJob hids id
  rw [releaseOne_run]
  cases hx : Scheduler.getJob id live with
  | error e t =>
    rw [hx] at hget
    exact hget.mono (Nat.le_refl n) (Nat.le_succ owed)
  | ok job t =>
    rw [hx] at hget
    have hadd := hget.addRunnable hids hn id
    have hless := hget.mono (Nat.le_refl n) (Nat.le_succ owed)
    simp only [Runs.final_ok] at hadd hless ⊢
    rcases runner.missing w job with e | ⟨_ | ⟨d, rest⟩⟩
    · exact hless
    · simp only
      cases hy : Scheduler.addRunnable id t <;> rw [hy] at hadd <;> exact hadd
    · exact hless

theorem release (hids : Hashed ids) (hn : n < UInt64.size) (runner : Runner W J) :
    ∀ (taken : List JobId) (w : W) (live : Live (Scheduler J)),
      Sound ids parse n taken.length live →
      Sound ids parse n 0 (Runs.final (Scheduler.release runner taken (w, live))).2
  | [], _, _, h => h
  | id :: rest, w, live, h => by
    have hone := releaseOne hids h hn runner id w
    rw [release_cons]
    cases hx : Scheduler.releaseOne runner id (w, live) with
    | error e t =>
      rw [hx] at hone
      exact hone.mono (Nat.le_refl n) (Nat.zero_le _)
    | ok _ t =>
      rw [hx] at hone
      exact release hids hn runner rest t.1 t.2 hone

theorem executeNext (hids : Hashed ids) (h : Sound ids parse n 0 live) (hn : n < UInt64.size)
    (runner : Runner W J) (w : W) :
    Sound ids parse n 0 (Runs.final (Scheduler.executeNext runner (w, live))).2 := by
  obtain ⟨b, hk, hb⟩ := h
  rw [executeNext_run]
  rcases hk.removeRunnable hids with
    ⟨id, rest, job, t, -, hjob, hok, hkt, -⟩ | ⟨-, e, t, b', herr, hb', hkt⟩
  · have hbt : Bounded ids n 0 (b.dequeue.drop id) := hb.dequeue.drop id
    have hid : Job.id job ∈ ids := hb.named job (Books.mem_of_job? hjob).1
    simp only [hok]
    cases runner.execute job w with
    | error e w' => exact ⟨_, hkt, hbt⟩
    | ok _ w' =>
      rcases hkt.removeDependents hids hid with ⟨u, hok', hku, -⟩ | ⟨-, u, herr, hku⟩
      · simp only [hok']
        have howed := hbt.release hid
        rw [Nat.zero_add] at howed
        exact release hids hn runner _ w' u ⟨_, hku, howed⟩
      · simp only [herr]
        exact ⟨_, hku, hbt⟩
  · simp only [herr]
    rcases hb' with rfl | rfl
    · exact ⟨_, hkt, hb⟩
    · exact ⟨_, hkt, hb.dequeue⟩

theorem push (hids : Hashed ids) (h : Sound ids parse n 0 live)
    {missing : J → Except Error (List JobId)} {job : J} {k : Nat} (hid : Job.id job ∈ ids)
    (hjob : parse (Job.bytes job) = .ok job)
    (hwaits : ∀ waits, missing job = .ok waits → waits ⊆ ids ∧ waits.length ≤ k)
    (hn : n + 1 + k < UInt64.size) :
    Sound ids parse (n + 1 + k) 0 (Runs.final (Scheduler.push missing job live)) := by
  obtain ⟨b, hk, hb⟩ := h
  have hmono : Bounded ids (n + 1 + k) 0 b := hb.mono (by omega) (Nat.le_refl 0)
  cases hstored : b.job? (Job.id job) with
  | some other =>
    rw [hk.push_known missing (by rw [hstored]; rfl)]
    exact ⟨b, hk, hmono⟩
  | none =>
    cases hm : missing job with
    | error e =>
      rw [hk.push_unknown hstored hm]
      exact ⟨b, hk, hmono⟩
    | ok waits =>
      obtain ⟨hin, hlen⟩ := hwaits waits hm
      have hp := hb.pending
      have hq := hb.queue
      rcases hk.push_new hids hstored hm hjob hin (by omega) (by omega)
          (fun d => by have := hb.waiting d; omega) with
        ⟨u, hok, hku, -⟩ | ⟨-, herr⟩ | ⟨-, -, done, rest, u, hsplit, herr, hku, -⟩
      · rw [hok]
        exact ⟨_, hku, hb.push hid hlen⟩
      · rw [herr]
        exact ⟨b, hk, hmono⟩
      · rw [herr]
        have hdone : done.length ≤ waits.length := by
          rw [hsplit, List.length_append]
          omega
        exact ⟨_, hku, ((hb.put hid).register done _).mono (by omega) (Nat.le_refl 0)⟩

end Sound

/-- The states that a driver reaches when its jobs and their dependencies are among the ids of a
list, `n` being the number of pushes and of the dependencies that were missing in them. -/
inductive Reached (ids : List JobId) (parse : Parser J) : Nat → Live (Scheduler J) → Prop where
  | opened {store t : Store} {options : Options} {metrics : Option (CacheMetrics × CacheMetrics)}
      {scheduler : Scheduler J} (hempty : store.table = .empty)
      (hload : load parse options metrics store = .ok scheduler t) :
      Reached ids parse 0 ⟨scheduler, t⟩
  /-- The same entries in a store that refuses other writes, or whose log was compacted. -/
  | kept {n : Nat} {live : Live (Scheduler J)} {store : Store} (h : Reached ids parse n live)
      (ht : store.table = live.store.table) : Reached ids parse n ⟨live.memory, store⟩
  | reopened {n : Nat} {live : Live (Scheduler J)} {t : Store} {options : Options}
      {metrics : Option (CacheMetrics × CacheMetrics)} {scheduler : Scheduler J}
      (h : Reached ids parse n live)
      (hload : load parse options metrics live.store = .ok scheduler t) :
      Reached ids parse n ⟨scheduler, t⟩
  | disabled {n : Nat} {live : Live (Scheduler J)} (h : Reached ids parse n live) :
      Reached ids parse n (Runs.final (disableCaching live))
  | pushed {n k : Nat} {live : Live (Scheduler J)} {missing : J → Except Error (List JobId)}
      {job : J} (h : Reached ids parse n live) (hid : Job.id job ∈ ids)
      (hjob : parse (Job.bytes job) = .ok job)
      (hwaits : ∀ waits, missing job = .ok waits → waits ⊆ ids ∧ waits.length ≤ k) :
      Reached ids parse (n + 1 + k) (Runs.final (push missing job live))
  | drained {W : Type} {n : Nat} {live : Live (Scheduler J)} (h : Reached ids parse n live)
      (runner : Runner W J) (limit : Option Nat) (w : W) :
      Reached ids parse n (Runs.final (drain runner limit (w, live))).2

/-- A reached scheduler keeps bounded books, as long as there are numbers for all positions. -/
theorem Reached.sound {n : Nat} {live : Live (Scheduler J)} (hids : Hashed ids)
    (h : Reached ids parse n live) (hn : n < UInt64.size) : Sound ids parse n 0 live := by
  induction h with
  | opened hempty hload => exact ⟨.empty, (keeps_of_load hids hempty hload).1, .empty⟩
  | kept _ ht ih =>
    obtain ⟨b, hk, hb⟩ := ih hn
    exact ⟨b, hk.of_table ht, hb⟩
  | reopened _ hload ih =>
    obtain ⟨b, hk, hb⟩ := ih hn
    obtain ⟨scheduler, hload', hk'⟩ := hk.reopen _ _
    rw [hload] at hload'
    cases hload'
    exact ⟨b, hk', hb⟩
  | disabled _ ih =>
    obtain ⟨b, hk, hb⟩ := ih hn
    obtain ⟨live', hok, hk', -⟩ := hk.disableCaching
    rw [hok]
    exact ⟨b, hk', hb⟩
  | pushed _ hid hjob hwaits ih =>
    exact (ih (by omega)).push hids hid hjob hwaits hn
  | drained _ runner limit w ih =>
    have hround : Runs.Preserves (fun s => Sound ids parse _ 0 s.2) (executeNext runner) :=
      fun s hs => hs.executeNext hids hn runner s.1
    exact preserves_drain hround limit (w, _) (ih hn)

/-! ## Two jobs -/

/-- A job that waits for nothing. -/
def forerunner : LinkedJob := ⟨[], [1]⟩

/-- A job that waits for `forerunner`. -/
def follower : LinkedJob := ⟨[Job.id forerunner], [2]⟩

/-- What a linked job misses when nothing has been executed. -/
def missesAll (job : LinkedJob) : Except Error (List JobId) := .ok (job.missing [])

end Scheduler

end WorkQueue
