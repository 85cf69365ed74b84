import WorkQueue.Proofs.Scheduler.Edits
import WorkQueue.Proofs.Scheduler.Reached

/-!
# Verbs that fail

A verb that writes once and fails leaves the store as it was, and whoever asks later cannot tell
(`Recalls.undone`). A verb on missing ids writes once for each of them, so when it fails it has done
its work for the first ones (`Settling.forM_error`). Either can be done again once writes are granted:
`verb_again` says that it succeeds then, and comes to the same as if it had never failed.
-/

namespace WorkQueue

namespace Store

/-- A batch is written the same if all later writes are granted. -/
theorem after_granted (s : Store) (batch : Batch) :
    { s with writesLeft := none }.after batch = { s.after batch with writesLeft := none } := by
  simp only [after, land]
  split
  · split <;> rfl
  · rfl

end Store

namespace OrderedSet

variable {α : Type} {set : OrderedSet} {m : Bytes} {s t : Store}

theorem put_granted {r : Bool × OrderedSet} (h : set.put m s = .ok r t) :
    set.put m { s with writesLeft := none } = .ok r { t with writesLeft := none } := by
  rw [put_run] at h ⊢
  split at h
  · rename_i hm
    cases h
    exact if_pos hm
  · rename_i hm
    split at h
    · cases h
    · cases h
      rw [if_neg hm, if_neg (by simp), Store.after_granted]

theorem put_ok (set : OrderedSet) (m : Bytes) (h : s.writesLeft = none) :
    ∃ r t, set.put m s = .ok r t ∧ t.writesLeft = none := by
  rw [put_run]
  split
  · exact ⟨_, _, rfl, h⟩
  · rw [if_neg (by simp [h])]
    exact ⟨_, _, rfl, by simp [h]⟩

theorem takeAll_granted (set : OrderedSet) {convert : Bytes → Except Error α} {taken : List α}
    (h : s.writesLeft = none)
    (htaken : ((listed set.space s.table).mapM fun e => convert e.2) = .ok taken) :
    ∃ r t, set.takeAll convert s = .ok r t := by
  rw [takeAll_run, htaken]
  simp only
  split
  · exact ⟨_, _, rfl⟩
  · rw [if_neg (by simp [h])]
    exact ⟨_, _, rfl⟩

theorem delete_granted {b : Bool} (h : set.delete m s = .ok b t) :
    set.delete m { s with writesLeft := none } = .ok b { t with writesLeft := none } := by
  rw [delete_run] at h ⊢
  cases hv : set.space.view s.table (indexKey m) with
  | none =>
    rw [hv] at h
    cases h
    rfl
  | some value =>
    cases hseq : readSeq value with
    | error e => simp [hv, hseq] at h
    | ok seq =>
      simp only [hv, hseq] at h ⊢
      split at h
      · cases h
      · cases h
        rw [if_neg (by simp), Store.after_granted]

end OrderedSet

namespace Scheduler

open OrderedSet (indexed listed stored)
open Runs (final mapState)

variable {J α : Type} {ids : List JobId}

/-! ## Loops that can be done again -/

/-- Steps each of which is done or leaves all as it was, and which do nothing more once they are
done. -/
structure Settling {σ β : Type} (f : β → LiveM σ PUnit) (Settled : β → Live σ → Prop) : Prop where
  undone : ∀ {b s e t}, f b s = .error e t → t = s
  granted : ∀ {b s t}, f b s = .ok ⟨⟩ t → f b (s.withWrites none) = .ok ⟨⟩ (t.withWrites none)
  settles : ∀ {b s t}, f b s = .ok ⟨⟩ t → Settled b t
  keeps : ∀ {b b' s t}, f b s = .ok ⟨⟩ t → Settled b' s → Settled b' t
  again : ∀ {b s}, Settled b s → f b (s.withWrites none) = .ok ⟨⟩ (s.withWrites none)

namespace Settling

variable {σ β : Type} {f : β → LiveM σ PUnit} {Settled : β → Live σ → Prop}

theorem keeps_forM (h : Settling f Settled) {b : β} {l : List β} {s t : Live σ}
    (hl : l.forM f s = .ok ⟨⟩ t) (hb : Settled b s) : Settled b t := by
  induction l generalizing s with
  | nil =>
    cases hl
    exact hb
  | cons a rest ih =>
    rw [Runs.forM_cons_apply] at hl
    cases ha : f a s with
    | error e mid =>
      rw [ha] at hl
      cases hl
    | ok _ mid =>
      rw [ha] at hl
      exact ih hl (h.keeps ha hb)

/-- A loop that fails has done its first steps, and to begin again from there comes to the same as
to begin where it began. -/
theorem forM_error (h : Settling f Settled) {l : List β} {s t : Live σ} {e : Error}
    (hl : l.forM f s = .error e t) :
    ∃ done, done <+: l ∧ done.forM f s = .ok ⟨⟩ t ∧
      l.forM f (t.withWrites none) = l.forM f (s.withWrites none) := by
  induction l generalizing s with
  | nil => cases hl
  | cons a rest ih =>
    rw [Runs.forM_cons_apply] at hl
    cases ha : f a s with
    | error e' mid =>
      rw [ha] at hl
      cases hl
      obtain rfl := h.undone ha
      exact ⟨[], List.nil_prefix, rfl, rfl⟩
    | ok _ mid =>
      rw [ha] at hl
      obtain ⟨done, hdone, hok, hagain⟩ := ih hl
      refine ⟨a :: done, List.cons_prefix_cons.mpr ⟨rfl, hdone⟩, ?_, ?_⟩
      · rw [Runs.forM_cons_apply, ha]
        exact hok
      · have hsettled := h.keeps_forM hok (h.settles ha)
        rw [Runs.forM_cons_apply, Runs.forM_cons_apply, h.again hsettled, h.granted ha]
        exact hagain

end Settling

theorem discard_push (id : JobId) (live : Live IdSet) :
    discard (IdSet.push id) live = match live.memory.order.put id.bytes live.store with
      | .ok r t => .ok ⟨⟩ ⟨{ live.memory with order := r.2 }, t⟩
      | .error e t => .error e ⟨live.memory, t⟩ := by
  rw [Runs.discard_apply]
  simp only [IdSet.push, LiveM.renew, Runs.bind_apply]
  cases live.memory.order.put id.bytes live.store <;> rfl

theorem discard_erase (id : JobId) (live : Live IdSet) :
    discard (IdSet.erase id) live = match live.memory.order.delete id.bytes live.store with
      | .ok _ t => .ok ⟨⟩ ⟨live.memory, t⟩
      | .error e t => .error e ⟨live.memory, t⟩ := by
  rw [Runs.discard_apply]
  simp only [IdSet.erase, LiveM.memory, LiveM.onStore, Runs.bind_apply]
  cases live.memory.order.delete id.bytes live.store <;> rfl

section Steps

variable {id : JobId} {live live' : Live IdSet}

theorem push_eq_ok (h : discard (IdSet.push id) live = .ok ⟨⟩ live') :
    ∃ r t, live.memory.order.put id.bytes live.store = .ok r t ∧
      live' = ⟨{ live.memory with order := r.2 }, t⟩ := by
  rw [discard_push] at h
  cases hput : live.memory.order.put id.bytes live.store with
  | ok r t =>
    rw [hput] at h
    cases h
    exact ⟨r, t, rfl, rfl⟩
  | error e t =>
    rw [hput] at h
    cases h

theorem push_eq_error {e : Error} (h : discard (IdSet.push id) live = .error e live') :
    live' = live := by
  rw [discard_push] at h
  cases hput : live.memory.order.put id.bytes live.store with
  | ok r t =>
    rw [hput] at h
    cases h
  | error e' t =>
    rw [hput] at h
    cases h
    rw [(OrderedSet.steady_put id.bytes).error hput]

theorem erase_eq_ok (h : discard (IdSet.erase id) live = .ok ⟨⟩ live') :
    ∃ b t, live.memory.order.delete id.bytes live.store = .ok b t ∧ live' = ⟨live.memory, t⟩ := by
  rw [discard_erase] at h
  cases hdelete : live.memory.order.delete id.bytes live.store with
  | ok b t =>
    rw [hdelete] at h
    cases h
    exact ⟨b, t, rfl, rfl⟩
  | error e t =>
    rw [hdelete] at h
    cases h

theorem erase_eq_error {e : Error} (h : discard (IdSet.erase id) live = .error e live') :
    live' = live := by
  rw [discard_erase] at h
  cases hdelete : live.memory.order.delete id.bytes live.store with
  | ok b t =>
    rw [hdelete] at h
    cases h
  | error e' t =>
    rw [hdelete] at h
    cases h
    rw [OrderedSet.delete_error hdelete]

end Steps

/-- An id that has been added is a member. -/
theorem settling_push : Settling (fun id => discard (IdSet.push id))
    fun id live => indexed live.memory.order.space live.store.table id.bytes = true where
  undone := push_eq_error
  granted := by
    intro id live live' h
    obtain ⟨r, t, hput, rfl⟩ := push_eq_ok h
    rw [discard_push]
    simp only [Live.withWrites, OrderedSet.put_granted hput]
  settles := by
    intro id live live' h
    obtain ⟨r, t, hput, rfl⟩ := push_eq_ok h
    have hspace := ((OrderedSet.steady_put id.bytes).inside hput).1
    simp only [hspace]
    exact (OrderedSet.indexed_put hput id.bytes).mpr (.inr rfl)
  keeps := by
    intro id other live live' h hother
    obtain ⟨r, t, hput, rfl⟩ := push_eq_ok h
    have hspace := ((OrderedSet.steady_put id.bytes).inside hput).1
    simp only [hspace]
    exact (OrderedSet.indexed_put hput other.bytes).mpr (.inl hother)
  again := by
    intro id live h
    rw [discard_push, OrderedSet.put_run]
    simp only [Live.withWrites, h, if_true]

/-- An id that has been taken out is no member. -/
theorem settling_erase : Settling (fun id => discard (IdSet.erase id))
    fun id live => indexed live.memory.order.space live.store.table id.bytes = false where
  undone := erase_eq_error
  granted := by
    intro id live live' h
    obtain ⟨b, t, hdelete, rfl⟩ := erase_eq_ok h
    rw [discard_erase]
    simp only [Live.withWrites, OrderedSet.delete_granted hdelete]
  settles := by
    intro id live live' h
    obtain ⟨b, t, hdelete, rfl⟩ := erase_eq_ok h
    rw [Bool.eq_false_iff, ne_eq, OrderedSet.indexed_delete hdelete]
    exact fun hid => hid.2 rfl
  keeps := by
    intro id other live live' h hother
    obtain ⟨b, t, hdelete, rfl⟩ := erase_eq_ok h
    rw [Bool.eq_false_iff, ne_eq, OrderedSet.indexed_delete hdelete]
    exact fun hid => absurd hid.1 (by simp [hother])
  again := by
    intro id live h
    have hnone : live.memory.order.space.view live.store.table (OrderedSet.indexKey id.bytes) = none := by
      simpa [indexed] using h
    rw [discard_erase, OrderedSet.delete_run]
    simp only [Live.withWrites, hnone]

/-! ## Actions that fail -/

variable {live failed : Live (Scheduler J)}

/-- A loop over the missing ids that fails has been carried out for the first ones. -/
theorem onMissing_forM {f : JobId → LiveM IdSet PUnit} {Settled : JobId → Live IdSet → Prop}
    (h : Settling f Settled) {l : List JobId} {e : Error}
    (hfail : onMissing (l.forM f) live = .error e failed) :
    ∃ done, done <+: l ∧ onMissing (done.forM f) live = .ok ⟨⟩ failed ∧
      onMissing (l.forM f) (failed.withWrites none) =
        onMissing (l.forM f) (live.withWrites none) := by
  simp only [onMissing, LiveM.onPart] at hfail ⊢
  cases hl : l.forM f ⟨live.memory.missing, live.store⟩ with
  | ok _ part =>
    rw [hl] at hfail
    cases hfail
  | error e' part =>
    rw [hl] at hfail
    cases hfail
    obtain ⟨done, hdone, hok, hagain⟩ := h.forM_error hl
    refine ⟨done, hdone, by rw [hok], ?_⟩
    simp only [Live.withWrites] at hagain ⊢
    rw [hagain]

theorem onSet_error {space : Namespace} {action : OrderedSet → StoreM (α × OrderedSet)}
    (hs : OrderedSet.Steady action) {s t : Store} {e : Error}
    (h : Plain.onSet space action s = .error e t) : t = s := by
  cases hstored : stored space s.table with
  | error e' =>
    rw [Plain.onSet, Runs.bind_apply, OrderedSet.load_run, hstored] at h
    cases h
    rfl
  | ok set =>
    rw [onSet_run hstored, Runs.bind_apply] at h
    cases haction : action set s with
    | error e' u =>
      rw [haction] at h
      cases h
      exact hs.error haction
    | ok r u =>
      rw [haction] at h
      cases h

/-- What is done to a bucket and fails changes no more than which buckets are remembered. -/
theorem Recalls.undone_onDependents (h : Recalls ids live) {dependency : JobId}
    {x : LiveM Dependents α} {y : StoreM α}
    (hlocal : Local ids (.bucket dependency) (BucketsAgree ids) x y)
    (hy : ∀ s t e, y s = .error e t → t = s) {e : Error}
    (hfail : onDependents x live = .error e failed) :
    ∃ d, BucketsAgree ids d live.store.table ∧ failed = Scheduler.withDependents d live := by
  obtain ⟨hr, hagree, -⟩ := hlocal ⟨live.memory.dependents, live.store⟩ h.buckets
  rw [onDependents, LiveM.onPart] at hfail
  cases hx : x ⟨live.memory.dependents, live.store⟩ with
  | ok a part =>
    rw [hx] at hfail
    cases hfail
  | error e' part =>
    rw [hx] at hfail hr hagree
    cases hfail
    have hstore : part.store = live.store := hy _ _ _ hr.symm
    rw [Runs.final_error, hstore] at hagree
    exact ⟨part.memory, hagree, by rw [Scheduler.withDependents, hstore]⟩

theorem Recalls.undone_add (hids : Hashed ids) (h : Recalls ids live) {dependency : JobId}
    (hid : dependency ∈ ids) (dependent : JobId) {e : Error}
    (hfail : onDependents (Dependents.add dependency dependent) live = .error e failed) :
    ∃ d, BucketsAgree ids d live.store.table ∧ failed = Scheduler.withDependents d live := by
  have hsteady := OrderedSet.steady_put dependent.bytes
  refine h.undone_onDependents (local_withBucket hids hid hsteady).discard ?_ hfail
  intro s t e' herr
  rw [Runs.discard_apply] at herr
  cases hput : Plain.onSet (bucketSpace dependency) (·.put dependent.bytes) s with
  | ok b u =>
    rw [hput] at herr
    cases herr
  | error e'' u =>
    rw [hput] at herr
    cases herr
    exact onSet_error hsteady hput

theorem Recalls.undone_removeAll (hids : Hashed ids) (h : Recalls ids live) {dependency : JobId}
    (hid : dependency ∈ ids) {e : Error}
    (hfail : onDependents (Dependents.removeAll dependency) live = .error e failed) :
    ∃ d, BucketsAgree ids d live.store.table ∧ failed = Scheduler.withDependents d live := by
  have hsteady := OrderedSet.steady_takeAll JobId.ofBytes
  exact h.undone_onDependents (local_withBucket hids hid hsteady)
    (fun _ _ _ => onSet_error hsteady) hfail

/-! ## Where writes are granted -/

theorem Recalls.ok_onDependents (h : Recalls ids live) {dependency : JobId} {x : LiveM Dependents α}
    {y : StoreM α} (hlocal : Local ids (.bucket dependency) (BucketsAgree ids) x y) {a : α} {t : Store}
    (hy : y live.store = .ok a t) : ∃ live', onDependents x live = .ok a live' := by
  obtain ⟨hr, -, -⟩ := hlocal ⟨live.memory.dependents, live.store⟩ h.buckets
  rw [hy] at hr
  rw [onDependents, LiveM.onPart]
  cases hx : x ⟨live.memory.dependents, live.store⟩ with
  | ok b part =>
    rw [hx] at hr
    obtain ⟨rfl, -⟩ := EStateM.Result.ok.inj hr
    exact ⟨_, rfl⟩
  | error e part =>
    rw [hx] at hr
    cases hr

theorem Recalls.ok_add (hids : Hashed ids) (h : Recalls ids live)
    (hentries : Entries ids live.store.table) (hw : live.store.writesLeft = none)
    {dependency : JobId} (hid : dependency ∈ ids) (dependent : JobId) :
    ∃ a live', onDependents (Dependents.add dependency dependent) live = .ok a live' := by
  have hpart : Part.Of ids (.bucket dependency) := hid
  obtain ⟨set, hset⟩ : ∃ set, stored (bucketSpace dependency) live.store.table = .ok set :=
    hentries.stored hids hpart trivial
  obtain ⟨r, t, hput, -⟩ := OrderedSet.put_ok set dependent.bytes hw
  have hplain : Plain.addDependency dependency dependent live.store = .ok ⟨⟩ t := by
    rw [Plain.addDependency, Runs.discard_apply, onSet_run hset, Runs.bind_apply, hput]
    rfl
  exact ⟨_, h.ok_onDependents
    (local_withBucket hids hid (OrderedSet.steady_put dependent.bytes)).discard hplain⟩

theorem Recalls.ok_removeAll (hids : Hashed ids) (h : Recalls ids live)
    (hentries : Entries ids live.store.table) (hw : live.store.writesLeft = none)
    {dependency : JobId} (hid : dependency ∈ ids) :
    ∃ a live', onDependents (Dependents.removeAll dependency) live = .ok a live' := by
  have hpart : Part.Of ids (.bucket dependency) := hid
  obtain ⟨set, hset⟩ : ∃ set, stored (bucketSpace dependency) live.store.table = .ok set :=
    hentries.stored hids hpart trivial
  obtain ⟨members, hmembers⟩ : ∃ members, ((listed (bucketSpace dependency) live.store.table).mapM
      fun e => JobId.ofBytes e.2) = .ok members := hentries.listed_ids hids hpart trivial
  rw [← OrderedSet.space_of_stored hset] at hmembers
  obtain ⟨r, t, htake⟩ := OrderedSet.takeAll_granted set hw hmembers
  have hplain : Plain.removeDependents dependency live.store = .ok r.1 t := by
    rw [Plain.removeDependents, onSet_run hset, Runs.bind_apply, htake]
    rfl
  exact ⟨_, h.ok_onDependents
    (local_withBucket hids hid (OrderedSet.steady_takeAll JobId.ofBytes)) hplain⟩

theorem ok_onMissing {x : LiveM IdSet α}
    (hx : ∃ a part, x ⟨live.memory.missing, live.store⟩ = .ok a part) :
    ∃ a live', onMissing x live = .ok a live' := by
  obtain ⟨a, part, hx⟩ := hx
  rw [onMissing, LiveM.onPart, hx]
  exact ⟨_, _, rfl⟩

theorem ok_pushAll (missing : List JobId) {part : Live IdSet}
    (hw : part.store.writesLeft = none) : ∃ a part', IdSet.pushAll missing part = .ok a part' := by
  have hstep : ∀ (id : JobId) (part : Live IdSet), part.store.writesLeft = none →
      ∃ part', discard (IdSet.push id) part = .ok ⟨⟩ part' ∧ part'.store.writesLeft = none := by
    intro id part hw
    obtain ⟨r, t, hput, ht⟩ := OrderedSet.put_ok part.memory.order id.bytes hw
    rw [discard_push, hput]
    exact ⟨_, rfl, ht⟩
  obtain ⟨part', hok, -⟩ := Runs.forM_ok hstep missing hw
  exact ⟨_, part', hok⟩

/-- Members are taken out where every sequence number can be read. -/
theorem ok_eraseAll (hids : Hashed ids) (missing : List JobId) {part : Live IdSet}
    (hw : part.store.writesLeft = none) (hspace : part.memory.order.space = missingSpace)
    (hentries : Entries ids part.store.table) :
    ∃ a part', IdSet.eraseAll missing part = .ok a part' := by
  have hstep : ∀ (id : JobId) (part : Live IdSet), (part.store.writesLeft = none ∧
      part.memory.order.space = missingSpace ∧ Entries ids part.store.table) →
      ∃ part', discard (IdSet.erase id) part = .ok ⟨⟩ part' ∧ part'.store.writesLeft = none ∧
        part'.memory.order.space = missingSpace ∧ Entries ids part'.store.table := by
    rintro id part ⟨hw, hspace, hentries⟩
    rw [discard_erase, OrderedSet.delete_run, hspace]
    cases hv : missingSpace.view part.store.table (OrderedSet.indexKey id.bytes) with
    | none => exact ⟨_, rfl, hw, hspace, hentries⟩
    | some value =>
      have hread : ∃ seq, OrderedSet.readSeq value = .ok seq :=
        hentries.readSeq hids (show Part.Of ids .missing from trivial) trivial hv
      obtain ⟨seq, hseq⟩ := hread
      simp only [hseq, hw]
      refine ⟨_, rfl, by simp [hw], hspace, ?_⟩
      rw [Store.table_after]
      exact hentries.apply nofun
  obtain ⟨part', hok, -⟩ := Runs.forM_ok hstep missing ⟨hw, hspace, hentries⟩
  exact ⟨_, part', hok⟩

/-! ## Verbs -/

section Verbs

variable [Job J]

/-- A verb that writes once at most. -/
def Verb.Single (verb : Verb J) : Prop :=
  match verb.1 with
  | .putJob _ | .addRunnable _ | .addDependency _ _ | .removeDependents _ | .clear => True
  | _ => False

/-- A verb that writes once for each of its ids at most, and the same verb with the first ones. -/
def Verb.Begins (verb first : Verb J) : Prop :=
  match verb.1, first.1 with
  | .addMissing missing, .addMissing done | .removeMissing missing, .removeMissing done =>
    done <+: missing
  | _, _ => False

/-- A verb that writes for one missing id after the other. -/
def Verb.OneByOne (verb : Verb J) : Prop := verb.Begins verb

/-- A verb fails as the action does whose value it dresses as a reply. -/
theorem Verb.error_of_run {x : LiveM (Scheduler J) α} (f : α → Reply J) {verb : Verb J}
    (hverb : verb.1.perform = DrainM.onQueue do return f (← x)) {e : Error}
    (hfail : verb.run live = .error e failed) : x live = .error e failed := by
  rw [Verb.run_eq hverb] at hfail
  rcases Runs.bind_eq_error.mp hfail with hx | ⟨_, _, -, hpure⟩
  · exact hx
  · cases hpure

/-- A verb that writes once and fails leaves the store as it was. -/
theorem Recalls.undone (hids : Hashed ids) (h : Recalls ids live) {verb : Verb J}
    (hb : verb.1.buckets ⊆ ids) (hsingle : verb.Single) {e : Error}
    (hfail : verb.run live = .error e failed) :
    ∃ d, BucketsAgree ids d live.store.table ∧ failed = Scheduler.withDependents d live := by
  have hsame : failed = live →
      ∃ d, BucketsAgree ids d live.store.table ∧ failed = Scheduler.withDependents d live :=
    fun he => ⟨_, h.buckets, he⟩
  obtain ⟨command, hverb⟩ := verb
  cases command with
  | putJob job =>
    have hput : putJob job live = .error e failed := Verb.error_of_run (fun _ => .done) rfl hfail
    rw [putJob_run] at hput
    split at hput <;> cases hput
    exact hsame rfl
  | addRunnable id =>
    have hadd : addRunnable id live = .error e failed :=
      Verb.error_of_run (fun _ => .done) rfl hfail
    rw [addRunnable_run] at hadd
    cases hput : live.memory.runnable.order.put id.bytes live.store with
    | ok r t =>
      rw [hput] at hadd
      cases hadd
    | error e' t =>
      obtain rfl := (OrderedSet.steady_put id.bytes).error hput
      rw [hput] at hadd
      cases hadd
      exact hsame rfl
  | addDependency dependency dependent =>
    exact h.undone_add hids (hb (List.mem_singleton_self _)) dependent
      (Verb.error_of_run (fun _ => .done) rfl hfail)
  | removeDependents dependency =>
    exact h.undone_removeAll hids (hb (List.mem_singleton_self _))
      (Verb.error_of_run .ids rfl hfail)
  | clear =>
    have hclear : Scheduler.clear live = .error e failed :=
      Verb.error_of_run (fun _ => .done) rfl hfail
    rw [h.held.inPlace.clear_run] at hclear
    split at hclear <;> cases hclear
    exact hsame rfl
  | _ => exact hsingle.elim

/-- A verb that is a loop over the missing ids. -/
theorem Verb.begun_of_loop {m : List JobId → Verb J} {f : JobId → LiveM IdSet PUnit}
    {Settled : JobId → Live IdSet → Prop} (h : Settling f Settled)
    (hrun : ∀ l, (m l).run = (do onMissing (l.forM f); return .done)) {l : List JobId} {e : Error}
    (hfail : (m l).run live = .error e failed) :
    ∃ done, done <+: l ∧ (m done).run live = .ok .done failed ∧
      (m l).run (failed.withWrites none) = (m l).run (live.withWrites none) := by
  rw [hrun] at hfail
  rcases Runs.bind_eq_error.mp hfail with hloop | ⟨_, _, -, hpure⟩
  · obtain ⟨done, hdone, hok, hagain⟩ := onMissing_forM h hloop
    refine ⟨done, hdone, ?_, ?_⟩
    · rw [hrun]
      exact Runs.bind_of_ok hok
    · rw [hrun, Runs.bind_apply, Runs.bind_apply, hagain]
  · cases hpure

/-- A verb on missing ids that fails has been carried out for the first ones, and to do it again
comes to the same as to do it where it was begun. -/
theorem Verb.begun {verb : Verb J} (hloop : verb.OneByOne) {e : Error}
    (hfail : verb.run live = .error e failed) :
    ∃ first, verb.Begins first ∧ first.run live = .ok .done failed ∧
      verb.run (failed.withWrites none) = verb.run (live.withWrites none) := by
  obtain ⟨command, hverb⟩ := verb
  cases command with
  | addMissing missing =>
    obtain ⟨done, hdone, hok, hagain⟩ := Verb.begun_of_loop (m := fun l => ⟨.addMissing l, trivial⟩)
      settling_push (fun _ => Verb.run_eq rfl) hfail
    exact ⟨⟨.addMissing done, trivial⟩, hdone, hok, hagain⟩
  | removeMissing missing =>
    obtain ⟨done, hdone, hok, hagain⟩ :=
      Verb.begun_of_loop (m := fun l => ⟨.removeMissing l, trivial⟩)
        settling_erase (fun _ => Verb.run_eq rfl) hfail
    exact ⟨⟨.removeMissing done, trivial⟩, hdone, hok, hagain⟩
  | _ => exact hloop.elim

/-! ## Doing it again -/

/-- A verb succeeds as the action does whose value it dresses as a reply. -/
theorem Verb.ok_of_run {x : LiveM (Scheduler J) α} (f : α → Reply J) {verb : Verb J}
    (hverb : verb.1.perform = DrainM.onQueue do return f (← x))
    (hx : ∃ a live', x live = .ok a live') : ∃ reply live', verb.run live = .ok reply live' := by
  obtain ⟨a, live', hx⟩ := hx
  rw [Verb.run_eq hverb]
  exact ⟨f a, live', Runs.bind_of_ok hx⟩

/-- Where all can be read and writes are granted, nothing can fail. -/
theorem Recalls.granted (hids : Hashed ids) (h : Recalls ids live)
    (hentries : Entries ids live.store.table) (hw : live.store.writesLeft = none) {verb : Verb J}
    (hb : verb.1.buckets ⊆ ids) (hverb : verb.Single ∨ verb.OneByOne) :
    ∃ reply live', verb.run live = .ok reply live' := by
  have hwrite : ¬ live.store.writesLeft = some 0 := by simp [hw]
  obtain ⟨command, hcommand⟩ := verb
  cases command with
  | putJob job =>
    refine Verb.ok_of_run (fun _ => .done) rfl ?_
    rw [putJob_run, if_neg hwrite]
    exact ⟨_, _, rfl⟩
  | addRunnable id =>
    refine Verb.ok_of_run (fun _ => .done) rfl ?_
    obtain ⟨r, t, hput, -⟩ := OrderedSet.put_ok live.memory.runnable.order id.bytes hw
    rw [addRunnable_run, hput]
    exact ⟨_, _, rfl⟩
  | addDependency dependency dependent =>
    exact Verb.ok_of_run (fun _ => .done) rfl
      (h.ok_add hids hentries hw (hb (List.mem_singleton_self _)) dependent)
  | removeDependents dependency =>
    exact Verb.ok_of_run .ids rfl (h.ok_removeAll hids hentries hw (hb (List.mem_singleton_self _)))
  | addMissing missing =>
    exact Verb.ok_of_run (fun _ => .done) rfl (ok_onMissing (ok_pushAll missing hw))
  | removeMissing missing =>
    exact Verb.ok_of_run (fun _ => .done) rfl (ok_onMissing (ok_eraseAll hids missing hw
      (OrderedSet.space_of_stored h.held.missing.order) hentries))
  | clear =>
    refine Verb.ok_of_run (fun _ => .done) rfl ?_
    rw [h.held.inPlace.clear_run, if_neg hwrite]
    exact ⟨_, _, rfl⟩
  | _ => exact (hverb.elim id id).elim

/-- Two schedulers give the same replies in a session and leave the same store after each verb and
in the end. -/
def Alike (parse : Parser J) (later : List (Move J)) (live live' : Live (Scheduler J)) : Prop :=
  ∃ trace u u', Move.playAll parse later live = .ok trace u ∧
    Move.playAll parse later live' = .ok trace u' ∧ u.store = u'.store

/-- Nobody sees which buckets are remembered. -/
theorem Recalls.alike (hids : Hashed ids) (h : Recalls ids live) {d : Dependents}
    (hd : BucketsAgree ids d live.store.table) {parse : Parser J} {later : List (Move J)}
    (hb : later.flatMap Move.buckets ⊆ ids) :
    Alike parse later (Scheduler.withDependents d live) live := by
  obtain ⟨trace, live', hplay, -⟩ : ∃ trace live', Move.playAll parse later live = .ok trace live' ∧
      Recalls ids live' ∧ True :=
    h.playAll hids (P := fun _ _ => True) (fun _ _ _ _ => trivial) [] trivial hb
  have hblind : Blind ids (Move.playAll parse later) := blind_playAll hids hb
  obtain ⟨-, d', -, hsame⟩ := hblind live d h hd
  rw [hplay] at hsame
  exact ⟨trace, _, _, hsame, hplay, rfl⟩

/-- **A verb that fails can be done again.** Whatever has been asked of a scheduler that was opened
on a store without entries, and after however many writes the store refuses all others: a verb that
writes once and fails leaves the store as it was and cannot be told from one that was never asked; a
verb on missing ids that fails is the verb done with the first ones. Asked again where writes are
granted, it succeeds, with the reply, the store and all that follows of a verb that had not failed. -/
theorem verb_again {parse : Parser J} {options : Options}
    {metrics : Option (CacheMetrics × CacheMetrics)} {store t : Store} {scheduler : Scheduler J}
    (hempty : store.table = .empty) (hload : load parse options metrics store = .ok scheduler t)
    {moves : List (Move J)} {trace : List (Exchange J)} {live failed : Live (Scheduler J)}
    (hplay : Move.playAll parse moves ⟨scheduler, t⟩ = .ok trace live) {verb : Verb J}
    (hverb : verb.Single ∨ verb.OneByOne) {n : Nat} {e : Error}
    (hfail : verb.run (live.withWrites (some n)) = .error e failed) (later : List (Move J))
    (hhashed : Hashed
      (moves.flatMap Move.buckets ++ verb.1.buckets ++ later.flatMap Move.buckets)) :
    (verb.Single → failed.store = (live.withWrites (some n)).store ∧
      Alike parse later failed (live.withWrites (some n))) ∧
    (verb.OneByOne → ∃ first, verb.Begins first ∧
      first.run (live.withWrites (some n)) = .ok .done failed) ∧
    ∃ reply again never, verb.run (failed.withWrites none) = .ok reply again ∧
      verb.run (live.withWrites none) = .ok reply never ∧ again.store = never.store ∧
      Alike parse later again never := by
  generalize hids : moves.flatMap Move.buckets ++ verb.1.buckets ++
    later.flatMap Move.buckets = ids at hhashed
  have hmoves : moves.flatMap Move.buckets ⊆ ids := by simp [← hids]
  have hb : verb.1.buckets ⊆ ids := by simp [← hids]
  have hlater : later.flatMap Move.buckets ⊆ ids := by simp [← hids]
  obtain ⟨_, _, hplay', hlive, hentries⟩ := playAll_recalls hempty hload hhashed hmoves
  cases hplay.symm.trans hplay'
  obtain ⟨reply, never, hnever⟩ :=
    (hlive.withWrites none).granted hhashed hentries rfl hb hverb
  have hblind := blind_verb hhashed hb (live.withWrites none)
  have hrecalls := (hblind _ (hlive.withWrites none) hlive.buckets).1
  rw [hnever] at hrecalls
  refine ⟨fun hsingle => ?_, fun hloop => ?_, ?_⟩
  · obtain ⟨d, hd, rfl⟩ := (hlive.withWrites (some n)).undone hhashed hb hsingle hfail
    exact ⟨rfl, (hlive.withWrites (some n)).alike hhashed hd hlater⟩
  · obtain ⟨first, hfirst, hok, -⟩ := Verb.begun hloop hfail
    exact ⟨first, hfirst, hok⟩
  · rcases hverb with hsingle | hloop
    · obtain ⟨d, hd, rfl⟩ := (hlive.withWrites (some n)).undone hhashed hb hsingle hfail
      obtain ⟨-, d', hd', hagain⟩ := hblind d (hlive.withWrites none) hd
      rw [hnever] at hagain hd'
      exact ⟨reply, _, never, hagain, hnever, rfl, hrecalls.alike hhashed hd' hlater⟩
    · obtain ⟨-, -, -, hagain⟩ := Verb.begun hloop hfail
      exact ⟨reply, never, never, hagain.trans hnever, hnever, rfl,
        hrecalls.alike hhashed hrecalls.buckets hlater⟩

/-- A job is stored that another waits for. -/
def waitingSession : List (Move LinkedJob) :=
  [.ask ⟨.putJob forerunner, trivial⟩, .ask ⟨.putJob follower, trivial⟩,
    .ask ⟨.addDependency (Job.id forerunner) (Job.id follower), trivial⟩]

/-- Three missing ids are added, the first of them twice. -/
def threeMissing : Verb LinkedJob :=
  ⟨.addMissing [Job.id follower, Job.id follower, Job.id forerunner], trivial⟩

/-- The second write of the loop is refused. -/
theorem verb_again_secondId : ∃ scheduler t trace live e failed reply again never,
    load LinkedJob.parse ⟨true, 4, 4, ""⟩ none (.volatile .empty) = .ok scheduler t ∧
    Move.playAll LinkedJob.parse waitingSession ⟨scheduler, t⟩ = .ok trace live ∧
    threeMissing.run (live.withWrites (some 1)) = .error e failed ∧
    threeMissing.run (failed.withWrites none) = .ok reply again ∧
    threeMissing.run (live.withWrites none) = .ok reply never ∧
    again.store = never.store ∧
    Alike LinkedJob.parse [.ask ⟨.removeDependents (Job.id forerunner), trivial⟩] again never := by
  have hnone : (Store.volatile .empty).table = .empty := rfl
  have hloop : threeMissing.OneByOne := List.prefix_refl _
  obtain ⟨scheduler, t, hload⟩ := load_of_empty LinkedJob.parse hnone rfl ⟨true, 4, 4, ""⟩ none
  obtain ⟨trace, live, hplay, -⟩ := playAll_recalls hnone hload
    (show Hashed [Job.id forerunner] by decide +kernel)
    (show waitingSession.flatMap Move.buckets ⊆ _ by decide +kernel)
  have hrefused : (match load LinkedJob.parse ⟨true, 4, 4, ""⟩ none (.volatile .empty) with
    | .error _ _ => false
    | .ok scheduler t => match Move.playAll LinkedJob.parse waitingSession ⟨scheduler, t⟩ with
      | .error _ _ => false
      | .ok _ live => match threeMissing.run (live.withWrites (some 1)) with
        | .error _ _ => true
        | .ok _ _ => false) = true := by decide +kernel
  simp only [hload, hplay] at hrefused
  split at hrefused
  · rename_i e failed hfail
    obtain ⟨-, -, reply, again, never, hagain, hnever, hstore, halike⟩ :=
      verb_again hnone hload hplay (.inr hloop) hfail
        [.ask ⟨.removeDependents (Job.id forerunner), trivial⟩] (by decide +kernel)
    exact ⟨scheduler, t, trace, live, e, failed, reply, again, never, hload, hplay, hfail, hagain,
      hnever, hstore, halike⟩
  · cases hrefused

end Verbs

end Scheduler

end WorkQueue
