import Mathlib.Data.List.DropRight
import WorkQueue.Proofs.Scheduler.Held
import WorkQueue.Proofs.Scheduler.Reached

/-!
# The number of pending jobs

What a session says about the number of pending jobs: it is that of the jobs that were stored less
that of the jobs that were taken out, since everything was taken out for the last time
(`pending_balance`). The account is followed exchange after exchange (`Accounts.exchange`).
-/

namespace WorkQueue.Scheduler

variable {J : Type}

/-! ## The account -/

/-- The exchanges after the last one that took everything out. -/
def sinceClear (trace : List (Exchange J)) : List (Exchange J) := trace.rtakeWhile (!·.clears)

theorem sinceClear_append {x : Exchange J} (h : x.clears = false) (trace : List (Exchange J)) :
    sinceClear (trace ++ [x]) = sinceClear trace ++ [x] :=
  List.rtakeWhile_concat_pos _ _ _ (by rw [h]; rfl)

theorem sinceClear_of_clears {x : Exchange J} (h : x.clears = true) (trace : List (Exchange J)) :
    sinceClear (trace ++ [x]) = [] :=
  List.rtakeWhile_concat_neg _ _ _ (by rw [h]; exact Bool.false_ne_true)

theorem toNat_stageIncrement {counter : Counter} (h : counter.count.toNat + 1 < UInt64.size) :
    counter.stageIncrement.1.toNat = counter.count.toNat + 1 := by
  have hlargest : counter.count ≠ Counter.largest := by
    intro he
    rw [he] at h
    exact absurd h (by decide)
  simp only [Counter.stageIncrement, if_neg hlargest, UInt64.toNat_add, UInt64.toNat_one]
  exact Nat.mod_eq_of_lt h

theorem toNat_stageDecrement {counter : Counter} (h : 0 < counter.count.toNat) :
    counter.stageDecrement.1.toNat + 1 = counter.count.toNat := by
  have hne : counter.count ≠ 0 := by
    intro he
    rw [he] at h
    exact absurd h (by decide)
  simp only [Counter.stageDecrement, if_neg hne]
  have hle : (1 : UInt64) ≤ counter.count := UInt64.le_iff_toNat_le.mpr h
  rw [UInt64.toNat_sub_of_le _ _ hle, UInt64.toNat_one]
  omega

variable [Job J]

/-- The number of pending jobs and that of the stored jobs agree with what was done since everything
was taken out. -/
structure Balanced (since : List (Exchange J)) (live : Live (Scheduler J)) : Prop where
  balance : live.memory.pending.count.toNat + since.countP Exchange.removes =
    since.countP Exchange.puts
  stored_le : jobsSpace.size live.store.table ≤ live.memory.pending.count.toNat
  stored_eq : (∀ x ∈ since, x.replaces = false) →
    jobsSpace.size live.store.table = live.memory.pending.count.toNat

/-- The account is in balance, as long as the number can be kept. -/
def Accounts (since : List (Exchange J)) (live : Live (Scheduler J)) : Prop :=
  since.countP Exchange.puts < UInt64.size → Balanced since live

/-- The account is one of the table and of the number alone. -/
theorem Accounts.of_eq {since : List (Exchange J)} {live live' : Live (Scheduler J)}
    (h : Accounts since live) (hcount : live'.memory.pending.count = live.memory.pending.count)
    (htable : live'.store.table = live.store.table) : Accounts since live' := by
  intro hlt
  obtain ⟨hbalance, hle, heq⟩ := h hlt
  rw [← hcount, ← htable] at hle heq
  rw [← hcount] at hbalance
  exact ⟨hbalance, hle, heq⟩

/-- The account after one more exchange. -/
theorem Accounts.exchange {trace : List (Exchange J)} {live live' : Live (Scheduler J)}
    (h : Accounts (sinceClear trace) live) {x : Exchange J} (hx : Change live live' x) :
    Accounts (sinceClear (trace ++ [x])) live' := by
  -- What is counted of an exchange that does not clear.
  have hcounts : ∀ p : Exchange J → Bool, (sinceClear trace ++ [x]).countP p =
      (sinceClear trace).countP p + if p x then 1 else 0 := by
    intro p
    rw [List.countP_append, List.countP_singleton]
  have hputs' := hcounts Exchange.puts
  have hremoves' := hcounts Exchange.removes
  intro hlt
  cases hx with
  | put job hputs hremoves hclears hreplaces hstored hcount =>
    rw [sinceClear_append hclears] at hlt ⊢
    simp only [hputs, if_true] at hputs'
    simp only [hremoves, Bool.false_eq_true, if_false] at hremoves'
    obtain ⟨hbalance, hle, heq⟩ := h (by omega)
    have hsize := Namespace.size_of_put hstored
    have hnext : live'.memory.pending.count.toNat = live.memory.pending.count.toNat + 1 := by
      rw [hcount]
      exact toNat_stageIncrement (by omega)
    refine ⟨by omega, by split at hsize <;> omega, fun hnone => ?_⟩
    have := heq fun y hy => hnone y (List.mem_append_left _ hy)
    rw [← hreplaces, hnone x (by simp)] at hsize
    simp only [Bool.false_eq_true, if_false] at hsize
    omega
  | removed id hputs hremoves hclears hknown hstored hcount =>
    rw [sinceClear_append hclears] at hlt ⊢
    simp only [hputs, Bool.false_eq_true, if_false] at hputs'
    simp only [hremoves, if_true] at hremoves'
    obtain ⟨hbalance, hle, heq⟩ := h (by omega)
    have hsize := Namespace.size_of_erase hknown hstored
    have hprevious : live'.memory.pending.count.toNat + 1 = live.memory.pending.count.toNat := by
      rw [hcount]
      exact toNat_stageDecrement (by omega)
    refine ⟨by omega, by omega, fun hnone => ?_⟩
    have := heq fun y hy => hnone y (List.mem_append_left _ hy)
    omega
  | cleared hclears hstored hcount =>
    rw [sinceClear_of_clears hclears]
    have hsize := Namespace.size_eq_zero hstored
    exact ⟨by rw [hcount]; rfl, by omega, fun _ => by rw [hsize, hcount]; rfl⟩
  | still hputs hremoves hclears hstored hcount =>
    rw [sinceClear_append hclears] at hlt ⊢
    simp only [hputs, Bool.false_eq_true, if_false] at hputs'
    simp only [hremoves, Bool.false_eq_true, if_false] at hremoves'
    obtain ⟨hbalance, hle, heq⟩ := h (by omega)
    have hsize : jobsSpace.size live'.store.table = jobsSpace.size live.store.table :=
      Namespace.size_congr fun key => by rw [hstored]
    rw [← hcount] at hbalance hle heq
    refine ⟨by omega, by omega, fun hnone => ?_⟩
    have := heq fun y hy => hnone y (List.mem_append_left _ hy)
    omega

/-! ## A whole session -/

section Sessions

variable {parse : Parser J} {live : Live (Scheduler J)} {trace : List (Exchange J)}

/-- Every move is carried out, and keeps the account. -/
theorem Held.play (h : Held live) (ha : Accounts (sinceClear trace) live) (move : Move J) :
    ∃ xs live', move.play parse live = .ok xs live' ∧ Held live' ∧
      Accounts (sinceClear (trace ++ xs)) live' := by
  cases move with
  | ask verb =>
    obtain ⟨x, live', hattempt, hlive', hchange⟩ := h.changes verb
    refine ⟨[x], live', ?_, hlive', ha.exchange hchange⟩
    rw [Move.play, Runs.bind_of_ok hattempt]
    rfl
  | grant left =>
    refine ⟨[], _, rfl, h.withWrites left, ?_⟩
    rw [List.append_nil]
    exact ha.of_eq rfl rfl
  | disableCaching =>
    refine ⟨[], _, rfl, ⟨⟨h.jobs.space_eq, nofun⟩, ⟨h.dependents.space_eq, nofun⟩, h.runnable,
      h.missing, h.pending⟩, ?_⟩
    rw [List.append_nil]
    exact ha.of_eq rfl rfl
  | reopen options metrics =>
    obtain ⟨scheduler, hload⟩ : ∃ scheduler : Scheduler J,
        load parse options metrics live.store = .ok scheduler live.store :=
      load_of_agrees h.pending h.runnable h.missing options metrics
    have hcoherent : Coherent [] parse _ := coherent_of_load hload
    have hcount : scheduler.pending.count = live.memory.pending.count :=
      BigEndian.encodeWord_injective
        (Option.some.inj (hcoherent.pending.count.symm.trans h.pending.count))
    refine ⟨[], ⟨scheduler, live.store⟩, ?_, hcoherent.placed.held, ?_⟩
    · rw [Move.play, Runs.bind_of_ok (restart_run hload)]
      rfl
    · rw [List.append_nil]
      exact ha.of_eq hcount rfl

theorem Held.playAll (h : Held live) (ha : Accounts (sinceClear trace) live)
    (moves : List (Move J)) :
    ∃ xs live', Move.playAll parse moves live = .ok xs live' ∧ Held live' ∧
      Accounts (sinceClear (trace ++ xs)) live' := by
  induction moves generalizing live trace with
  | nil => exact ⟨[], live, rfl, h, by rwa [List.append_nil]⟩
  | cons move rest ih =>
    obtain ⟨first, mid, hfirst, hmid, hmid'⟩ := h.play ha move
    obtain ⟨others, live', hothers, hlive', hlive''⟩ := ih hmid hmid'
    refine ⟨first ++ others, live', ?_, hlive', by rwa [← List.append_assoc]⟩
    rw [Move.playAll, Runs.bind_of_ok hfirst, Runs.bind_of_ok hothers]
    rfl

/-- A session with a scheduler that was opened on a store without entries keeps the account. -/
theorem playAll_of_empty {options : Options} {metrics : Option (CacheMetrics × CacheMetrics)}
    {store t : Store} {scheduler : Scheduler J} (hempty : store.table = .empty)
    (hload : load parse options metrics store = .ok scheduler t) (moves : List (Move J)) :
    ∃ trace live, Move.playAll parse moves ⟨scheduler, t⟩ = .ok trace live ∧ Held live ∧
      Accounts (sinceClear trace) live := by
  obtain ⟨hkeeps, -⟩ := keeps_of_load hashed_nil hempty hload
  have hcount : scheduler.pending.count = 0 := by
    have := hkeeps.pendingCount
    exact (EStateM.Result.ok.inj this).1
  have hsize : jobsSpace.size t.table = 0 := by
    refine Namespace.size_eq_zero fun key => Option.eq_none_iff_forall_ne_some.mpr fun value hv => ?_
    obtain ⟨id, rfl⟩ := hkeeps.filed.jobs_only key value hv
    cases (hkeeps.filed.jobs id).symm.trans hv
  have hstart : Accounts (sinceClear ([] : List (Exchange J))) ⟨scheduler, t⟩ := fun _ =>
    ⟨by rw [hcount]; rfl, by rw [hsize]; exact Nat.zero_le _, fun _ => by rw [hsize, hcount]; rfl⟩
  exact hkeeps.coherent.placed.held.playAll hstart moves

end Sessions

/-- Taking out the first job of the queue would have to take one from zero. -/
def TakesFromZero (live : Live (Scheduler J)) : Prop :=
  ∃ key mid id job found, onRunnable IdSet.pop live = .ok key mid ∧ JobId.ofBytes key = .ok id ∧
    getJob id mid = .ok job found ∧ found.memory.pending.count = 0

omit [Job J] in
theorem Held.not_takesFromZero {live : Live (Scheduler J)} (h : Held live)
    (hle : jobsSpace.size live.store.table ≤ live.memory.pending.count.toNat) :
    ¬ TakesFromZero live := by
  rintro ⟨key, mid, id, job, found, hpop, -, hget, hzero⟩
  have hmid := still_pop.of_ok h.still hpop
  obtain ⟨found', hfound', ⟨job', hok, hknown⟩ | ⟨e, herr⟩⟩ := hmid.getJob id
  · cases hget.symm.trans hok
    have := Namespace.size_pos hknown
    rw [hfound'.pending] at hzero
    rw [hzero] at hle
    exact absurd (Nat.lt_of_lt_of_le this hle) (by decide)
  · cases hget.symm.trans herr

omit [Job J] in
/-- Once the stored number has been deleted, a scheduler can be opened, and counts the stored jobs. -/
theorem Held.recount {live : Live (Scheduler J)} (h : Held live) (parse : Parser J)
    (options : Options) (metrics : Option (CacheMetrics × CacheMetrics)) :
    ∃ s scheduler t, pendingSpace.delete Counter.key (live.withWrites none).store = .ok () s ∧
      load parse options metrics s = .ok scheduler t ∧
      scheduler.pending.count = .ofNat (jobsSpace.size live.store.table) := by
  have hdelete : pendingSpace.delete Counter.key (live.withWrites none).store =
      .ok () ((live.withWrites none).store.after [.delete (pendingSpace.key Counter.key)]) := rfl
  have hholds : pendingSpace.Holds [.delete (pendingSpace.key Counter.key)] := by
    intro op hop
    rw [List.mem_singleton.mp hop]
    exact ⟨_, rfl⟩
  have hview : ∀ part : Part, part.rank ≠ Part.pending.rank →
      part.space.view ((live.withWrites none).store.after
        [.delete (pendingSpace.key Counter.key)]).table = part.space.view live.store.table := by
    intro part hne
    rw [Store.table_after]
    exact Namespace.view_apply (Part.apart_of_rank_ne hne.symm) hholds _
  have hnone : pendingSpace.view ((live.withWrites none).store.after
      [.delete (pendingSpace.key Counter.key)]).table Counter.key = none := by
    rw [Store.table_after, Batch.apply_cons, Batch.apply_nil, Operation.apply,
      Namespace.view_erase, if_pos rfl]
  obtain ⟨scheduler, t, hload, hcount⟩ := load_of_uncounted parse hnone (by simp [Live.withWrites])
    (h.runnable.of_view (hview .runnable (by decide)))
    (h.missing.of_view (hview .missing (by decide))) options metrics
  have hjobs : jobsSpace.view _ = jobsSpace.view live.store.table := hview .jobs (by decide)
  have hsize : jobsSpace.size _ = jobsSpace.size live.store.table :=
    Namespace.size_congr fun key => by rw [hjobs]
  rw [hsize] at hcount
  exact ⟨_, scheduler, t, hdelete, hload, hcount⟩

/-- Whatever is asked of a scheduler that was opened on a store without entries, the number of
pending jobs in memory is the stored one. It is the number of jobs that were stored less that of the
jobs that were taken out since everything was taken out, unless more were stored than can be
counted; there are no more stored jobs than that, so nothing is ever taken from zero. If no job was
stored in place of another, it is the number of stored jobs, which is found again if the stored
number is lost. -/
theorem pending_balance {parse : Parser J} {options : Options}
    {metrics : Option (CacheMetrics × CacheMetrics)} {store t : Store} {scheduler : Scheduler J}
    (hempty : store.table = .empty) (hload : load parse options metrics store = .ok scheduler t)
    (moves : List (Move J)) :
    ∃ trace live n,
      Move.playAll parse moves ⟨scheduler, t⟩ = .ok trace live ∧
      pendingCount live = .ok n live ∧
      pendingSpace.view live.store.table Counter.key = some (BigEndian.encodeWord n) ∧
      ((sinceClear trace).countP Exchange.puts < UInt64.size →
        n.toNat + (sinceClear trace).countP Exchange.removes =
          (sinceClear trace).countP Exchange.puts ∧
        jobsSpace.size live.store.table ≤ n.toNat ∧
        ¬ TakesFromZero live ∧
        ((∀ x ∈ sinceClear trace, x.replaces = false) →
          jobsSpace.size live.store.table = n.toNat ∧
          ∀ options metrics, ∃ s scheduler u,
            pendingSpace.delete Counter.key (live.withWrites none).store = .ok () s ∧
            load parse options metrics s = .ok scheduler u ∧
            pendingCount ⟨scheduler, u⟩ = .ok n ⟨scheduler, u⟩)) := by
  obtain ⟨trace, live, hplay, hheld, haccounts⟩ := playAll_of_empty hempty hload moves
  refine ⟨trace, live, live.memory.pending.count, hplay, rfl, hheld.pending.count, fun hlt => ?_⟩
  obtain ⟨hbalance, hle, heq⟩ := haccounts hlt
  refine ⟨hbalance, hle, hheld.not_takesFromZero hle, fun hnone => ⟨heq hnone, ?_⟩⟩
  intro options metrics
  obtain ⟨s, scheduler, u, hdelete, hload, hrecount⟩ := hheld.recount parse options metrics
  refine ⟨s, scheduler, u, hdelete, hload, ?_⟩
  rw [heq hnone, UInt64.ofNat_toNat] at hrecount
  rw [← hrecount]
  rfl

/-- Two jobs are stored, and one is taken out at the second attempt, after the scheduler has been
opened again. -/
def secondAttempt : List (Move LinkedJob) :=
  [.ask ⟨.putJob forerunner, trivial⟩, .ask ⟨.putJob follower, trivial⟩,
    .ask ⟨.addRunnable (Job.id forerunner), trivial⟩, .grant (some 1),
    .ask ⟨.removeRunnable, trivial⟩, .grant none, .reopen ⟨false, 0, 0, ""⟩ none,
    .ask ⟨.addRunnable (Job.id forerunner), trivial⟩, .ask ⟨.removeRunnable, trivial⟩]

theorem pending_balance_secondAttempt : ∃ scheduler t trace live,
    load LinkedJob.parse ⟨true, 4, 4, ""⟩ none (.volatile .empty) = .ok scheduler t ∧
    Move.playAll LinkedJob.parse secondAttempt ⟨scheduler, t⟩ = .ok trace live ∧
    pendingCount live = .ok 1 live ∧ jobsSpace.size live.store.table = 1 := by
  have hnone : (Store.volatile .empty).table = .empty := rfl
  obtain ⟨scheduler, t, hload⟩ := load_of_empty LinkedJob.parse hnone rfl ⟨true, 4, 4, ""⟩ none
  obtain ⟨trace, live, n, hplay, hcount, -, hbalance⟩ := pending_balance hnone hload secondAttempt
  have htally : (match load LinkedJob.parse ⟨true, 4, 4, ""⟩ none (.volatile .empty) with
    | .error _ _ => false
    | .ok scheduler t => match Move.playAll LinkedJob.parse secondAttempt ⟨scheduler, t⟩ with
      | .error _ _ => false
      | .ok trace _ => (sinceClear trace).countP Exchange.puts == 2 &&
        (sinceClear trace).countP Exchange.removes == 1 &&
        (sinceClear trace).all fun x => !x.replaces) = true := by decide +kernel
  simp only [hload, hplay, Bool.and_eq_true, beq_iff_eq, List.all_eq_true] at htally
  obtain ⟨⟨hputs, hremoves⟩, hreplaces⟩ := htally
  obtain ⟨hn, -, -, hstored⟩ := hbalance (by rw [hputs]; decide)
  have hone : n = 1 := by
    rw [hputs, hremoves] at hn
    exact UInt64.toNat.inj (by simpa using hn)
  have hsize := (hstored fun x hx => by simpa using hreplaces x hx).1
  exact ⟨scheduler, t, trace, live, hload, hplay, hone ▸ hcount, by rw [hsize, hone]; rfl⟩

end WorkQueue.Scheduler
