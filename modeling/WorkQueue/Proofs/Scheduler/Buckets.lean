import Mathlib.Data.List.Basic
import WorkQueue.Proofs.OrderedSet.Sessions
import WorkQueue.Proofs.Scheduler.Rolls
import WorkQueue.Proofs.Scheduler.Verbs
import WorkQueue.Proofs.Store.Isolation

/-!
# Buckets are lists

A `Move` is what is asked of `Dependents`, and `Move.onLists` the same of `Waits`, which has a list
of ids for each id and a number of writes that are left. A session of such moves is played on both.

* `Refines`: what ties remembered buckets and the entries of all buckets to lists;
* `Refines.acted`: a change of one bucket changes one list;
* `Refines.move`: a move does the same to both, or fails for both and changes nothing;
* `Refines.simulates`: so does any other event of a session;
* `session_eq_lists`: so a session in a namespace that is empty at first has the replies of lists.
-/

namespace WorkQueue.Dependents

open OrderedSet (Lists Listing Steady stored)

open Session (Player)

open Scheduler (Hashed)

variable {α : Type}

/-! ## Moves -/

/-- What is asked of the dependents, by the type of the reply. -/
inductive Move : Type → Type where
  | add (dependency dependent : JobId) : Move Unit
  | removeAll (dependency : JobId) : Move (List JobId)
  | of (dependency : JobId) : Move (List JobId)
  | flush : Move Unit
  | disableCaching : Move Unit
  | clear : Move Unit

namespace Move

/-- Has the dependents make a move. Clearing takes out all entries of the namespace in one write,
and forgets the remembered buckets then. -/
def perform : Move α → LiveM Dependents α
  | add dependency dependent => Dependents.add dependency dependent
  | removeAll dependency => Dependents.removeAll dependency
  | of dependency => Dependents.of dependency
  | flush => LiveM.update Dependents.flush
  | disableCaching => LiveM.update Dependents.disableCaching
  | clear => do
    let d ← LiveM.memory
    let batch ← LiveM.onStore d.space.stageClear
    LiveM.onStore (Store.write batch)
    LiveM.update Dependents.flush

/-- The ids whose buckets a move uses. -/
def buckets : Move α → List JobId
  | add dependency _ | removeAll dependency | of dependency => [dependency]
  | flush | disableCaching | clear => []

/-- How often a move adds a dependent. -/
def adds : Move α → Nat
  | add _ _ => 1
  | _ => 0

end Move

/-- A list of ids for each id, of which each change takes one write. -/
structure Waits where
  waiting : JobId → List JobId
  /-- The number of changes before all further ones are refused; `none` refuses no change. -/
  writesLeft : Option Nat

/-- An action on the lists. -/
abbrev WaitsM := EStateM Error Waits

namespace Waits

/-- Changes the lists, unless that is refused. -/
def become (waiting : JobId → List JobId) (reply : α) : WaitsM α := fun w =>
  if w.writesLeft = some 0 then .error (.file .writeRefused) w
  else .ok reply ⟨waiting, w.writesLeft.map (· - 1)⟩

/-- One of the lists. -/
def listing (w : Waits) (dependency : JobId) : Listing :=
  ⟨(w.waiting dependency).map JobId.bytes, w.writesLeft⟩

theorem become_refused {w : Waits} (h : w.writesLeft = some 0) (waiting : JobId → List JobId)
    (reply : α) : become waiting reply w = .error (.file .writeRefused) w := if_pos h

theorem become_ok {w : Waits} (h : w.writesLeft ≠ some 0) (waiting : JobId → List JobId)
    (reply : α) : become waiting reply w = .ok reply ⟨waiting, w.writesLeft.map (· - 1)⟩ :=
  if_neg h

theorem listing_update_self (waiting : JobId → List JobId) (left : Option Nat)
    (dependency : JobId) (waits : List JobId) :
    listing ⟨Function.update waiting dependency waits, left⟩ dependency =
      ⟨waits.map JobId.bytes, left⟩ := by
  simp only [listing, Function.update_self]

theorem listing_update_of_ne {dependency k : JobId} (h : k ≠ dependency)
    (waiting : JobId → List JobId) (left : Option Nat) (waits : List JobId) :
    listing ⟨Function.update waiting dependency waits, left⟩ k =
      ⟨(waiting k).map JobId.bytes, left⟩ := by
  simp only [listing, Function.update_of_ne h]

theorem mem_listing {w : Waits} {dependency id : JobId} :
    id.bytes ∈ (w.listing dependency).members ↔ id ∈ w.waiting dependency :=
  List.mem_map_of_injective fun _ _ => JobId.ext

end Waits

/-- Makes a move on the lists. -/
def Move.onLists : Move α → WaitsM α
  | add dependency dependent => fun w =>
    if dependent ∈ w.waiting dependency then .ok () w
    else Waits.become
      (Function.update w.waiting dependency (w.waiting dependency ++ [dependent])) () w
  | removeAll dependency => fun w =>
    if w.waiting dependency = [] then .ok (w.waiting dependency) w
    else Waits.become (Function.update w.waiting dependency []) (w.waiting dependency) w
  | of dependency => fun w => .ok (w.waiting dependency) w
  | flush | disableCaching => fun w => .ok () w
  | clear => Waits.become (fun _ => []) ()

/-- Adding to one of the lists is putting. -/
theorem Waits.onList_put (w : Waits) (dependency dependent : JobId) :
    (OrderedSet.Move.put dependent.bytes).onList (w.listing dependency) =
      if dependent ∈ w.waiting dependency then .ok false (w.listing dependency)
      else if w.writesLeft = some 0 then .error (.file .writeRefused) (w.listing dependency)
      else .ok true ⟨(w.waiting dependency ++ [dependent]).map JobId.bytes,
        w.writesLeft.map (· - 1)⟩ := by
  simp only [OrderedSet.Move.onList, Waits.mem_listing]
  split
  · rfl
  · simp only [Listing.become, listing, List.map_append, List.map_cons, List.map_nil]
    rfl

/-- The ids of one of the lists can all be taken. -/
theorem Waits.onList_takeAll (w : Waits) (dependency : JobId) :
    (OrderedSet.Move.takeAll JobId.ofBytes).onList (w.listing dependency) =
      if w.waiting dependency = [] then .ok (w.waiting dependency) (w.listing dependency)
      else if w.writesLeft = some 0 then .error (.file .writeRefused) (w.listing dependency)
      else .ok (w.waiting dependency) ⟨[], w.writesLeft.map (· - 1)⟩ := by
  simp only [OrderedSet.Move.onList, listing, Scheduler.Rolled.mapM_ofBytes, List.map_eq_nil_iff,
    Listing.become]
  rfl

/-! ## One move -/

/-- Remembered buckets are those that the store holds, and the entries of each bucket of the ids of
a list are those of a list of `w`. -/
structure Refines (space : Namespace) (ids : List JobId) (adds : Nat) (live : Live Dependents)
    (w : Waits) : Prop where
  space_eq : live.memory.space = space
  writesLeft : live.store.writesLeft = w.writesLeft
  remembered : live.memory.caching = true → ∀ k b, live.memory.buckets.find? k = some b →
    k ∈ ids ∧ stored (space.nested k.bytes) live.store.table = .ok b
  bucket : ∀ k ∈ ids, ∃ b,
    OrderedSet.Refines (space.nested k.bytes) adds ⟨b, live.store⟩ (w.listing k)

/-- A key of a bucket is one of the namespace around it. -/
theorem key_nested (space : Namespace) (name key : Bytes) :
    (space.nested name).key key = space.key (Blake3.hash name ++ key) :=
  List.append_assoc _ _ _

/-- A set that refines a list is the one that the store holds. -/
theorem stored_of_refines {space : Namespace} {puts : Nat} {live : Live OrderedSet} {l : Listing}
    (h : OrderedSet.Refines space puts live l) :
    stored space live.store.table = .ok live.memory := by
  obtain ⟨entries, tail, hlists, hmemory, -, -, -⟩ := h
  rw [hlists.stored, hmemory]

namespace Refines

variable {space : Namespace} {ids : List JobId} {n n' : Nat} {live : Live Dependents} {w : Waits}
  {d' : Dependents} {dependency : JobId} {bucket : OrderedSet}

theorem mono (h : Refines space ids n live w) (hle : n ≤ n') : Refines space ids n' live w :=
  ⟨h.space_eq, h.writesLeft, h.remembered, fun k hk => (h.bucket k hk).imp fun _ hb => hb.mono hle⟩

/-- A store that shows the same in all buckets refines the same lists. -/
theorem of_view (h : Refines space ids n live w) {t : Store} {left : Option Nat}
    (hview : ∀ k ∈ ids, (space.nested k.bytes).view t.table =
      (space.nested k.bytes).view live.store.table) (hleft : t.writesLeft = left) :
    Refines space ids n ⟨live.memory, t⟩ ⟨w.waiting, left⟩ := by
  refine ⟨h.space_eq, hleft, fun hcaching k b hk => ?_, fun k hk => ?_⟩
  · obtain ⟨hid, hstored⟩ := h.remembered hcaching k b hk
    exact ⟨hid, (OrderedSet.stored_of_view (hview k hid)).trans hstored⟩
  · obtain ⟨b, hb⟩ := h.bucket k hk
    exact ⟨b, hb.of_view (hview k hk) hleft⟩

/-- Once one bucket has changed, one list has changed. -/
theorem acted (h : Refines space ids n live w) (hhashed : Hashed ids) (hid : dependency ∈ ids)
    {batch : Batch} (hb : (space.nested dependency.bytes).Holds batch) {t : Store}
    (ht : t.table = batch.apply live.store.table)
    (hd : Remembers live.memory d' dependency (some bucket)) (hle : n ≤ n') {l : Listing}
    {waits : List JobId}
    (hbucket : OrderedSet.Refines (space.nested dependency.bytes) n' ⟨bucket, t⟩ l)
    (hl : l.members = waits.map JobId.bytes) :
    Refines space ids n' ⟨d', t⟩ ⟨Function.update w.waiting dependency waits, l.writesLeft⟩ := by
  have hleft : t.writesLeft = l.writesLeft := by
    obtain ⟨-, -, -, -, -, hleft, -⟩ := hbucket
    exact hleft
  have hview : ∀ k ∈ ids, k ≠ dependency → (space.nested k.bytes).view t.table =
      (space.nested k.bytes).view live.store.table := by
    intro k hk hne
    have hhash : Blake3.hash dependency.bytes ≠ Blake3.hash k.bytes := fun he =>
      hne (hhashed k hk dependency hid he.symm)
    rw [ht]
    exact Namespace.view_apply (Namespace.apart_of_hash_ne space hhash) hb _
  refine ⟨hd.space_eq.trans h.space_eq, hleft, fun hcaching k b hk => ?_, fun k hk => ?_⟩
  · rw [hd.caching_eq] at hcaching
    rcases hd.found hcaching k b hk with ⟨rfl, he⟩ | ⟨hne, hk⟩
    · cases he
      exact ⟨hid, stored_of_refines hbucket⟩
    · obtain ⟨hk, hstored⟩ := h.remembered hcaching k b hk
      exact ⟨hk, (OrderedSet.stored_of_view (hview k hk hne)).trans hstored⟩
  · by_cases he : k = dependency
    · subst he
      refine ⟨bucket, ?_⟩
      rw [Waits.listing_update_self, ← hl]
      exact hbucket
    · obtain ⟨b, hb⟩ := h.bucket k hk
      refine ⟨b, ?_⟩
      rw [Waits.listing_update_of_ne he]
      exact (hb.of_view (hview k hk he) hleft).mono hle

/-- Forgetting buckets leaves them as they are stored. -/
theorem flushed (h : Refines space ids n live w) :
    Refines space ids n ⟨live.memory.flush, live.store⟩ w := by
  refine ⟨h.space_eq, h.writesLeft, fun _ k b hk => ?_, h.bucket⟩
  cases (Cache.find?_flush live.memory.buckets k).symm.trans hk

/-- What a move can come to on dependents and on lists: the same reply of both, or the same error,
with the store and the lists as they were. -/
def Steps (space : Namespace) (ids : List JobId) (n : Nat) (live : Live Dependents) (w : Waits)
    (m : Move α) : Prop :=
  (∃ a live' w', m.perform live = .ok a live' ∧ m.onLists w = .ok a w' ∧
    Refines space ids n live' w') ∨
  ∃ e live', m.perform live = .error e live' ∧ m.onLists w = .error e w ∧
    live'.store = live.store ∧ Refines space ids n live' w

/-- An action on a bucket is one on a set in memory that refines a list. What it makes of the set,
it makes of the list; an error changes neither. -/
theorem withBucket (h : Refines space ids n live w) (hhashed : Hashed ids)
    (hid : dependency ∈ ids) {action : OrderedSet → StoreM (α × OrderedSet)} (hs : Steady action) :
    ∃ b, OrderedSet.Refines (space.nested dependency.bytes) n ⟨b, live.store⟩
        (w.listing dependency) ∧
      (∀ a b' t, action b live.store = .ok (a, b') t →
        ∃ live', Dependents.withBucket dependency action live = .ok a live' ∧
          ∀ n' l waits, n ≤ n' →
            OrderedSet.Refines (space.nested dependency.bytes) n' ⟨b', t⟩ l →
            l.members = waits.map JobId.bytes →
            Refines space ids n' live'
              ⟨Function.update w.waiting dependency waits, l.writesLeft⟩) ∧
      ∀ e t, action b live.store = .error e t →
        ∃ live', Dependents.withBucket dependency action live = .error e live' ∧
          live'.store = live.store ∧ Refines space ids n live' w := by
  obtain ⟨b, hb⟩ := h.bucket dependency hid
  have hstored := stored_of_refines hb
  have hspace := OrderedSet.space_of_stored hstored
  have hown : live.memory.bucketSpace dependency = space.nested dependency.bytes := by
    rw [bucketSpace, h.space_eq]
  have hused : live.memory.usedBucket dependency live.store.table = .ok b := by
    refine (usedBucket_eq_stored fun hcaching b' hb' => ?_).trans (hown ▸ hstored)
    rw [hown]
    exact (h.remembered hcaching dependency b' hb').2
  have hacts := withBucket_acts live.memory dependency action live.store
  simp only [Acts, hused] at hacts
  refine ⟨b, hb, fun a b' t hrun => ?_, fun e t hrun => ?_⟩
  · rw [hrun] at hacts
    obtain ⟨d', hx, hd⟩ := hacts
    obtain ⟨-, batch, hbatch, ht⟩ := hs.inside hrun
    exact ⟨_, hx, fun n' l waits hle hb' hl =>
      h.acted hhashed hid (hspace ▸ hbatch) ht hd hle hb' hl⟩
  · obtain rfl := hs.error hrun
    rw [hrun] at hacts
    obtain ⟨d', hx, hd⟩ := hacts
    have hsame := h.acted hhashed hid (OrderedSet.holds_nil _) rfl hd (Nat.le_refl n) hb rfl
    rw [Function.update_eq_self] at hsame
    exact ⟨_, hx, rfl, hsame⟩

/-- A move of an ordered set that is made on a bucket is made on its list. -/
theorem renewed (h : Refines space ids n live w) (hhashed : Hashed ids) (hid : dependency ∈ ids)
    {action : OrderedSet → StoreM (α × OrderedSet)} (hs : Steady action) {m : OrderedSet.Move α}
    (hm : m.perform = LiveM.renew action) (hle : n ≤ n')
    (hsteps : ∀ b, OrderedSet.Refines (space.nested dependency.bytes) n ⟨b, live.store⟩
        (w.listing dependency) →
      OrderedSet.Refines.Steps (space.nested dependency.bytes) n' ⟨b, live.store⟩
        (w.listing dependency) m) :
    (∃ a live' l, m.onList (w.listing dependency) = .ok a l ∧
      Dependents.withBucket dependency action live = .ok a live' ∧
      ∀ waits, l.members = waits.map JobId.bytes →
        Refines space ids n' live' ⟨Function.update w.waiting dependency waits, l.writesLeft⟩) ∨
    ∃ e live', m.onList (w.listing dependency) = .error e (w.listing dependency) ∧
      Dependents.withBucket dependency action live = .error e live' ∧
      live'.store = live.store ∧ Refines space ids n live' w := by
  obtain ⟨b, hb, hok, herror⟩ := h.withBucket hhashed hid hs
  rcases hsteps b hb with ⟨a, ⟨b', t⟩, l, hset, hlist, hl⟩ | ⟨e, hset, hlist⟩
  · rw [hm, LiveM.renew] at hset
    cases hrun : action b live.store with
    | error e t =>
      rw [hrun] at hset
      cases hset
    | ok r t =>
      rw [hrun] at hset
      cases hset
      obtain ⟨live', hx, h'⟩ := hok r.1 r.2 t hrun
      exact .inl ⟨r.1, live', l, hlist, hx, fun waits hwaits => h' n' l waits hle hl hwaits⟩
  · rw [hm, LiveM.renew] at hset
    cases hrun : action b live.store with
    | error e' t =>
      rw [hrun] at hset
      cases hset
      obtain ⟨live', hx, h'⟩ := herror e _ hrun
      exact .inr ⟨e, live', hlist, hx, h'⟩
    | ok r t =>
      rw [hrun] at hset
      cases hset

theorem add (h : Refines space ids n live w) (hhashed : Hashed ids) (hid : dependency ∈ ids)
    (dependent : JobId) (hroom : n + 1 < UInt64.size) :
    Steps space ids (n + 1) live w (.add dependency dependent) := by
  have hlist := w.onList_put dependency dependent
  rcases h.renewed hhashed hid (OrderedSet.steady_put dependent.bytes) rfl (Nat.le_succ n)
    fun b hb => hb.put dependent.bytes hroom with
    ⟨a, live', l, hset, hrun, h'⟩ | ⟨e, live', hset, hrun, hstore, h'⟩
  · have hperform : (Move.add dependency dependent).perform live = .ok () live' := by
      rw [Move.perform, Dependents.add, Runs.discard_apply, hrun]
    refine .inl ⟨(), live', ?_⟩
    rw [hset] at hlist
    split at hlist
    · rename_i hmem
      cases hlist
      refine ⟨w, hperform, if_pos hmem, ?_⟩
      have hsame := h' (w.waiting dependency) rfl
      rwa [Function.update_eq_self] at hsame
    · rename_i hmem
      split at hlist
      · cases hlist
      · rename_i hw
        cases hlist
        exact ⟨_, hperform, (if_neg hmem).trans (Waits.become_ok hw _ _), h' _ rfl⟩
  · have hperform : (Move.add dependency dependent).perform live = .error e live' := by
      rw [Move.perform, Dependents.add, Runs.discard_apply, hrun]
    refine .inr ⟨e, live', hperform, ?_, hstore, h'.mono (Nat.le_succ n)⟩
    rw [hset] at hlist
    split at hlist
    · cases hlist
    · rename_i hmem
      split at hlist
      · rename_i hw
        cases hlist
        exact (if_neg hmem).trans (Waits.become_refused hw _ _)
      · cases hlist

theorem removeAll (h : Refines space ids n live w) (hhashed : Hashed ids)
    (hid : dependency ∈ ids) : Steps space ids n live w (.removeAll dependency) := by
  have hlist := w.onList_takeAll dependency
  rcases h.renewed hhashed hid (OrderedSet.steady_takeAll JobId.ofBytes) rfl (Nat.le_refl n)
    fun b hb => hb.takeAll JobId.ofBytes with
    ⟨a, live', l, hset, hrun, h'⟩ | ⟨e, live', hset, hrun, hstore, h'⟩
  · refine .inl ⟨a, live', ?_⟩
    rw [hset] at hlist
    split at hlist
    · rename_i hnil
      cases hlist
      refine ⟨w, hrun, if_pos hnil, ?_⟩
      have hsame := h' (w.waiting dependency) rfl
      rwa [Function.update_eq_self] at hsame
    · rename_i hsome
      split at hlist
      · cases hlist
      · rename_i hw
        cases hlist
        exact ⟨_, hrun, (if_neg hsome).trans (Waits.become_ok hw _ _), h' [] rfl⟩
  · refine .inr ⟨e, live', hrun, ?_, hstore, h'⟩
    rw [hset] at hlist
    split at hlist
    · cases hlist
    · rename_i hsome
      split at hlist
      · rename_i hw
        cases hlist
        exact (if_neg hsome).trans (Waits.become_refused hw _ _)
      · cases hlist

theorem of (h : Refines space ids n live w) (hhashed : Hashed ids) (hid : dependency ∈ ids) :
    Steps space ids n live w (.of dependency) := by
  obtain ⟨b, hb, hok, -⟩ := h.withBucket hhashed hid Scheduler.steady_listIds
  have hspace := OrderedSet.space_of_stored (stored_of_refines hb)
  obtain ⟨entries, tail, hlists, -, hmembers, -, -⟩ := id hb
  have hrun : Scheduler.Plain.listIds b live.store =
      .ok (w.waiting dependency, b) live.store := by
    rw [Scheduler.listIds_run, hspace, hlists.members, hmembers, Waits.listing,
      Scheduler.Rolled.mapM_ofBytes]
  obtain ⟨live', hx, h'⟩ := hok _ _ _ hrun
  have hsame := h' n _ (w.waiting dependency) (Nat.le_refl n) hb rfl
  rw [Function.update_eq_self] at hsame
  exact .inl ⟨w.waiting dependency, live', w, hx, rfl, hsame⟩

theorem flush (h : Refines space ids n live w) : Steps space ids n live w .flush :=
  .inl ⟨(), _, w, rfl, rfl, h.flushed⟩

theorem disableCaching (h : Refines space ids n live w) :
    Steps space ids n live w .disableCaching :=
  .inl ⟨(), _, w, rfl, rfl, h.space_eq, h.writesLeft, nofun, h.bucket⟩

/-- Clearing takes out the entries of all buckets in one write. -/
theorem clear (h : Refines space ids n live w) : Steps space ids n live w .clear := by
  obtain ⟨d, s⟩ := live
  have hspace : d.space = space := h.space_eq
  by_cases hw : s.writesLeft = some 0
  · have hrun : Move.clear.perform ⟨d, s⟩ = .error (.file .writeRefused) ⟨d, s⟩ := by
      simp only [Move.perform, Runs.bind_apply, LiveM.memory, LiveM.onStore,
        Namespace.stageClear_run, Store.write_refused hw]
    exact .inr ⟨_, _, hrun, Waits.become_refused (h.writesLeft ▸ hw) _ _, rfl, h⟩
  · have hrun : Move.clear.perform ⟨d, s⟩ =
        .ok () ⟨d.flush, s.after ((s.table.scan space.lead).map fun e => .delete e.1)⟩ := by
      simp only [Move.perform, Runs.bind_apply, LiveM.memory, LiveM.onStore, LiveM.update,
        Namespace.stageClear_run, hspace, Store.write_ok hw]
    refine .inl ⟨(), _, _, hrun, Waits.become_ok (h.writesLeft ▸ hw) _ _, hspace, ?_,
      fun _ k b hk => ?_, ?_⟩
    · rw [Store.writesLeft_after, ← h.writesLeft]
    · cases (Cache.find?_flush d.buckets k).symm.trans hk
    · intro k hk
      have hnone : ∀ key, (space.nested k.bytes).view (s.after
          ((s.table.scan space.lead).map fun e => .delete e.1)).table key = none := by
        intro key
        rw [Store.table_after, Namespace.view, key_nested]
        exact Namespace.view_of_entries_filter (Namespace.entries_apply_cleared space s.table) _
      refine ⟨⟨space.nested k.bytes, 0⟩, [], 0, OrderedSet.lists_empty hnone, rfl, rfl, ?_,
        Nat.zero_le _⟩
      rw [Store.writesLeft_after, h.writesLeft]
      rfl

/-- A move does the same to the dependents and to the lists, or fails for both and changes neither
the store nor the lists. -/
theorem move (h : Refines space ids n live w) (hhashed : Hashed ids) (m : Move α)
    (hids : m.buckets ⊆ ids) (hroom : n + m.adds < UInt64.size) :
    Steps space ids (n + m.adds) live w m := by
  cases m with
  | add dependency dependent =>
    exact h.add hhashed (hids List.mem_cons_self) dependent hroom
  | removeAll dependency => exact h.removeAll hhashed (hids List.mem_cons_self)
  | of dependency => exact h.of hhashed (hids List.mem_cons_self)
  | flush => exact h.flush
  | disableCaching => exact h.disableCaching
  | clear => exact h.clear

end Refines

/-! ## Sessions -/

/-- What happens in a session on dependents. -/
abbrev Event := Session.Event Move

/-- The ids whose buckets an event uses. -/
def Event.buckets : Event → List JobId
  | .move m => m.buckets
  | _ => []

/-- How often dependents are added. -/
def adds (events : List Event) : Nat := Session.total Move.adds events

/-- A session on dependents, with the replies to the moves and what there is in the end. -/
def session (events : List Event) (live : Live Dependents) :
    List (Runs.Outcome Error) × Live Dependents :=
  (Player.ofLive Move.perform).play events live

/-- Events that happen to lists. What is written elsewhere takes a write as a change does. -/
def listsPlayer : Player Move Waits where
  perform := Move.onLists
  grant writesLeft w := { w with writesLeft }
  elsewhere _ w := Runs.final (Waits.become w.waiting () w)

/-- The same session on lists. -/
def listsSession (events : List Event) (w : Waits) : List (Runs.Outcome Error) × Waits :=
  listsPlayer.play events w

namespace Refines

variable {space : Namespace} {ids : List JobId} {n : Nat} {live : Live Dependents} {w : Waits}

theorem elsewhere (h : Refines space ids n live w) {batch : Batch}
    (hout : ∀ op ∈ batch, ∀ k, op.key ≠ space.key k) :
    Refines space ids n { live with store := Runs.final (Store.write batch live.store) }
      (Runs.final (Waits.become w.waiting () w)) := by
  by_cases hw : live.store.writesLeft = some 0
  · rw [Store.write_refused hw, Waits.become_refused (h.writesLeft ▸ hw)]
    exact h
  · rw [Store.write_ok hw, Waits.become_ok (h.writesLeft ▸ hw)]
    refine h.of_view (fun k _ => ?_) (by rw [Runs.final_ok, Store.writesLeft_after, h.writesLeft])
    rw [Runs.final_ok, Store.table_after]
    funext key
    refine Batch.get?_apply_of_not_mem fun op hop => ?_
    rw [key_nested]
    exact hout op hop _

theorem simulates (space : Namespace) (hhashed : Hashed ids) :
    Session.Simulates (.ofLive Move.perform) listsPlayer Move.adds UInt64.size
      (fun event => event.Outside space ∧ Event.buckets event ⊆ ids) (Refines space ids) where
  move m hallowed hadds h := by
    rcases h.move hhashed m hallowed.2 hadds with
      ⟨a, live', w', hset, hlist, h'⟩ | ⟨e, live', hset, hlist, -, h'⟩
    all_goals
      simp only [Player.ofLive, listsPlayer, Runs.attempt, hset, hlist]
      exact ⟨rfl, h'⟩
  grant _ h := h.of_view (fun _ _ => rfl) rfl
  elsewhere _ hallowed h := h.elsewhere hallowed.1

/-- The replies of a session are those of the lists, which are in the end what the buckets hold. -/
theorem session (h : Refines space ids n live w) (hhashed : Hashed ids) {events : List Event}
    (hids : ∀ event ∈ events, event.buckets ⊆ ids)
    (hout : ∀ event ∈ events, event.Outside space) (hroom : n + adds events < UInt64.size) :
    (Dependents.session events live).1 = (listsSession events w).1 ∧
      Refines space ids (n + adds events) (Dependents.session events live).2
        (listsSession events w).2 :=
  (simulates space hhashed).play (fun event he => ⟨hout event he, hids event he⟩) h hroom

end Refines

/-- Dependents that are kept in a namespace without keys, and used by themselves there, have for
fewer than `2 ^ 64` additions the replies of a list of ids for each id, whatever number of buckets
is remembered and whatever writes are refused in between. In the end each bucket holds the ids of
its list in their order, none of them twice, and a further move that fails changes neither the store
nor the lists. -/
theorem session_eq_lists {space : Namespace} {s : Store} {events : List Event} (capacity : Nat)
    (metrics : Option CacheMetrics) (hempty : ∀ key, space.view s.table key = none)
    (hhashed : Hashed (events.flatMap Event.buckets))
    (hout : ∀ event ∈ events, event.Outside space) (hadds : adds events < UInt64.size) :
    ∃ last w,
      (session events ⟨.new space (.new capacity metrics), s⟩).2 = last ∧
      (listsSession events ⟨fun _ => [], s.writesLeft⟩).2 = w ∧
      (session events ⟨.new space (.new capacity metrics), s⟩).1 =
        (listsSession events ⟨fun _ => [], s.writesLeft⟩).1 ∧
      (∀ k ∈ events.flatMap Event.buckets, (w.waiting k).Nodup ∧ ∃ entries tail,
        Lists (space.nested k.bytes) last.store.table entries tail ∧
        entries.map (·.2) = (w.waiting k).map JobId.bytes) ∧
      ∀ (α : Type) (m : Move α) (e : Error) (live : Live Dependents),
        m.buckets ⊆ events.flatMap Event.buckets → adds events + m.adds < UInt64.size →
          m.perform last = .error e live →
            live.store = last.store ∧ m.onLists w = .error e w := by
  have hstart : Refines space (events.flatMap Event.buckets) 0
      ⟨.new space (.new capacity metrics), s⟩ ⟨fun _ => [], s.writesLeft⟩ := by
    refine ⟨rfl, rfl, fun _ k b hk => ?_, fun k _ => ?_⟩
    · cases hk
    · have hnone : ∀ key, (space.nested k.bytes).view s.table key = none := fun key => by
        rw [Namespace.view, key_nested]
        exact hempty _
      exact ⟨⟨_, 0⟩, [], 0, OrderedSet.lists_empty hnone, rfl, rfl, rfl, Nat.le_refl 0⟩
  have hids : ∀ event ∈ events, event.buckets ⊆ events.flatMap Event.buckets :=
    fun event hevent k hk => List.mem_flatMap.mpr ⟨event, hevent, hk⟩
  obtain ⟨hreplies, hlast⟩ := hstart.session hhashed hids hout (by rwa [Nat.zero_add])
  rw [Nat.zero_add] at hlast
  refine ⟨_, _, rfl, rfl, hreplies, fun k hk => ?_, fun α m e live hm hroom herror => ?_⟩
  · obtain ⟨b, hb⟩ := hlast.bucket k hk
    have hnodup := List.Pairwise.of_map JobId.bytes (fun _ _ hne he => hne (congrArg _ he)) hb.nodup
    obtain ⟨entries, tail, hlists, -, hmembers, -, -⟩ := hb
    exact ⟨hnodup, entries, tail, hlists, hmembers⟩
  · rcases hlast.move hhashed m hm hroom with
      ⟨a, live', w', hset, -, -⟩ | ⟨e', live', hset, hlist, hstore, -⟩
    · cases hset.symm.trans herror
    · cases hset.symm.trans herror
      exact ⟨hstore, hlist⟩

/-- An id of one repeated byte. -/
def idOf (byte : UInt8) : JobId := ⟨List.replicate 32 byte, List.length_replicate⟩

/-- Two buckets, of which one is remembered at a time. A refused removal changes nothing, and what
has been taken out can be added again, also after everything has been cleared. -/
def twoBuckets : List Event :=
  [.move (.add (idOf 1) (idOf 3)), .move (.add (idOf 2) (idOf 3)), .move (.add (idOf 1) (idOf 4)),
    .move (.add (idOf 1) (idOf 3)), .grant (some 0), .move (.removeAll (idOf 1)), .grant (some 2),
    .elsewhere [.put [1] [2]], .move (.removeAll (idOf 1)), .move (.removeAll (idOf 1)),
    .move (.add (idOf 1) (idOf 3)), .move (.of (idOf 2)), .move .flush, .grant none,
    .move (.add (idOf 1) (idOf 4)), .move (.of (idOf 1)), .move .clear, .move (.of (idOf 2)),
    .move .disableCaching, .move (.add (idOf 2) (idOf 1)), .move (.removeAll (idOf 2))]

theorem session_eq_lists_twoBuckets :
    (session twoBuckets ⟨.new ⟨[9]⟩ (.new 1 none), .volatile .empty⟩).1 =
      [⟨Unit, .ok ()⟩, ⟨Unit, .ok ()⟩, ⟨Unit, .ok ()⟩, ⟨Unit, .ok ()⟩,
        ⟨List JobId, .error (.file .writeRefused)⟩, ⟨List JobId, .ok [idOf 3, idOf 4]⟩,
        ⟨List JobId, .ok []⟩, ⟨Unit, .error (.file .writeRefused)⟩, ⟨List JobId, .ok [idOf 3]⟩,
        ⟨Unit, .ok ()⟩, ⟨Unit, .ok ()⟩, ⟨List JobId, .ok [idOf 4]⟩, ⟨Unit, .ok ()⟩,
        ⟨List JobId, .ok []⟩, ⟨Unit, .ok ()⟩, ⟨Unit, .ok ()⟩, ⟨List JobId, .ok [idOf 1]⟩] := by
  have hempty : ∀ key, Namespace.view ⟨[9]⟩ (Store.volatile .empty).table key = none :=
    fun _ => rfl
  have hout : ∀ event ∈ twoBuckets, event.Outside ⟨[9]⟩ := by
    simp [twoBuckets, Session.Event.Outside, Operation.key, Namespace.key]
  have hhashed : Hashed (twoBuckets.flatMap Event.buckets) := by decide +kernel
  obtain ⟨-, -, -, -, hreplies, -⟩ := session_eq_lists 1 none hempty hhashed hout (by decide)
  rw [hreplies]
  rfl

end WorkQueue.Dependents
