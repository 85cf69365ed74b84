import Mathlib.Tactic.Choose
import WorkQueue.Proofs.Scheduler.Accounts
import WorkQueue.Proofs.Scheduler.Rolls
import WorkQueue.Proofs.Scheduler.Undone

/-!
# The keys of a scheduler's store

`Inventory` lists the keys of a store: the number of jobs, one key for each stored job, and for each
set two keys for each member and one for the tail. `no_orphans` says that the store of a scheduler
has these keys and no others, whatever it has been put through.

What an exchange does to one set is one of four things (`SetChange`, `Edit.setChange`), and each of
them keeps the entries of the set in order (`Stocked.change`).
-/

namespace WorkQueue.Scheduler

open BigEndian (encodeWord)
open OrderedSet (Lists tailKey indexKey memberKey indexed listed stored)

variable {J : Type} {ids : List JobId} {part : Part} {s t : Store}
  {entries : List (UInt64 × Bytes)} {tail : UInt64}

/-! ## One set -/

theorem Added.onlyIn {new : List JobId} (h : Added part new s t) : OnlyIn part s.table t.table := by
  induction h with
  | nil => exact .refl _ _
  | @cons s _ set id _ hstored _ _ ih =>
    refine .trans ⟨set.additions id.bytes, ?_, Store.table_after _ _⟩ ih
    rw [← OrderedSet.space_of_stored hstored]
    exact OrderedSet.holds_additions set _

theorem Taken.onlyIn (h : Taken part s t) : OnlyIn part s.table t.table := by
  induction h with
  | nil => exact .refl _ _
  | @cons s _ set seq member hstored _ _ ih =>
    refine .trans ⟨set.removal seq member, ?_, Store.table_after _ _⟩ ih
    rw [← OrderedSet.space_of_stored hstored]
    exact OrderedSet.holds_removal set seq member

/-- Other parts look the same, buckets as well if their ids have different hashes. -/
theorem OnlyIn.view_of_ne {t t' : Table} (h : OnlyIn part t t') (hids : Hashed ids)
    (hpart : part.Of ids) {other : Part} (hother : other.Of ids) (hne : part ≠ other) :
    other.space.view t' = other.space.view t := by
  obtain ⟨batch, hb, rfl⟩ := h
  exact Namespace.view_apply (Part.apart hids hpart hother hne) hb t

/-- Added ids stand at the end, under the next numbers. -/
theorem Added.lists {new : List JobId} (h : Added part new s t)
    (hl : Lists part.space s.table entries tail) (hroom : tail.toNat + new.length < UInt64.size) :
    ∃ fresh tail', fresh.map (·.2) = new.map JobId.bytes ∧
      tail'.toNat = tail.toNat + new.length ∧ Lists part.space t.table (entries ++ fresh) tail' := by
  induction h generalizing entries tail with
  | nil => exact ⟨[], tail, rfl, rfl, by rwa [List.append_nil]⟩
  | @cons s _ set id new hstored hnew _ ih =>
    rw [List.length_cons] at hroom
    cases hl.stored.symm.trans hstored
    have hout : id.bytes ∉ entries.map (·.2) := by
      rw [← hl.indexed_iff, hnew]
      exact Bool.false_ne_true
    have hput := hl.put hout (by omega)
    have hnext : (tail + 1).toNat = tail.toNat + 1 := by
      rw [UInt64.toNat_add]
      exact Nat.mod_eq_of_lt (show tail.toNat + 1 < UInt64.size by omega)
    rw [← Store.table_after] at hput
    obtain ⟨fresh, tail', hfresh, htail, hlists⟩ := ih hput (by omega)
    refine ⟨(tail, id.bytes) :: fresh, tail', ?_, ?_, ?_⟩
    · rw [List.map_cons, List.map_cons, hfresh]
    · rw [htail, hnext, List.length_cons]
      omega
    · rwa [List.append_assoc] at hlists

/-- The members that are left stand as they stood. -/
theorem Taken.lists (h : Taken part s t) (hl : Lists part.space s.table entries tail) :
    ∃ left, left.Sublist entries ∧ Lists part.space t.table left tail := by
  induction h generalizing entries with
  | nil => exact ⟨entries, .refl _, hl⟩
  | @cons s _ set seq member hstored hindex _ ih =>
    cases hl.stored.symm.trans hstored
    obtain ⟨seq', hmem, hseq⟩ := (hl.index member _).mp hindex
    obtain rfl := BigEndian.encodeWord_inj.mp hseq
    have hdelete := hl.delete hmem
    rw [← Store.table_after] at hdelete
    obtain ⟨left, hleft, hlists⟩ := ih hdelete
    exact ⟨left, hleft.trans List.filter_sublist, hlists⟩

/-- All that an exchange can do to a set, if it does not clear: the set stays as it was, ids are added
at its end, members are taken out of the queue or of the missing ids, or a bucket is emptied. -/
inductive SetChange (part : Part) (room : Nat) (t t' : Table) (entries : List (UInt64 × Bytes))
    (tail : UInt64) : Prop
  | still (h : part.space.view t' = part.space.view t)
  | grown (new : List JobId) (fresh : List (UInt64 × Bytes)) (tail' : UInt64)
      (hroom : new.length ≤ room) (hfresh : fresh.map (·.2) = new.map JobId.bytes)
      (htail : tail'.toNat = tail.toNat + new.length)
      (h : Lists part.space t' (entries ++ fresh) tail')
  | shrunk (hpart : part = .runnable ∨ part = .missing) (left : List (UInt64 × Bytes))
      (hleft : left.Sublist entries) (h : Lists part.space t' left tail)
  | emptied (dependency : JobId) (hpart : part = .bucket dependency)
      (h : Lists part.space t' [] 0)

/-- Storing a job or taking one out leaves every set as it was. -/
theorem view_with_jobs (hids : Hashed ids) (hpart : part.Of ids) (hset : part.IsSet)
    {op : Operation} {ops : Batch} {key : Bytes} (hop : op.key = jobsSpace.key key)
    (hops : Counts ops) (t : Table) :
    part.space.view (Batch.apply (op :: ops) t) = part.space.view t := by
  refine Part.view_apply hids (within_jobs_pending hop hops.holds) part hpart ?_ t
  cases part <;> first | exact hset.elim | simp

theorem Edit.setChange {room : Nat} (h : Edit ids room s t) (hids : Hashed ids)
    (hpart : part.Of ids) (hset : part.IsSet) (hl : Lists part.space s.table entries tail)
    (hroom : tail.toNat + room < UInt64.size) :
    SetChange part room s.table t.table entries tail := by
  cases h with
  | adds other hother _ new hnew h =>
    by_cases he : other = part
    · subst he
      obtain ⟨fresh, tail', hfresh, htail, hlists⟩ := h.lists hl (by omega)
      exact .grown new fresh tail' hnew hfresh htail hlists
    · exact .still (h.onlyIn.view_of_ne hids hother hpart he)
  | takes h =>
    by_cases he : Part.missing = part
    · subst he
      obtain ⟨left, hleft, hlists⟩ := h.lists hl
      exact .shrunk (.inr rfl) left hleft hlists
    · exact .still (h.onlyIn.view_of_ne hids trivial hpart he)
  | empties dependency hid set hstored h =>
    rw [h, Store.table_after]
    by_cases he : Part.bucket dependency = part
    · subst he
      cases hl.stored.symm.trans hstored
      exact .emptied dependency rfl hl.takeAll
    · have hholds := OrderedSet.holds_removals set (listed (bucketSpace dependency) s.table)
      rw [OrderedSet.space_of_stored hstored] at hholds
      have honly : OnlyIn (.bucket dependency) s.table _ := ⟨_, hholds, rfl⟩
      exact .still (honly.view_of_ne hids hid hpart he)
  | stores id bytes ops hops h =>
    rw [h, Store.table_after]
    exact .still (view_with_jobs hids hpart hset rfl hops _)
  | dequeues mid hmid h =>
    have hlast : part.space.view t.table = part.space.view mid.table := by
      rcases h with rfl | ⟨id, ops, hops, rfl⟩
      · rfl
      · rw [Store.table_after]
        exact view_with_jobs hids hpart hset rfl hops _
    by_cases he : Part.runnable = part
    · subst he
      obtain ⟨left, hleft, hlists⟩ := hmid.lists hl
      exact .shrunk (.inl rfl) left hleft (hlists.of_view hlast)
    · exact .still (hlast.trans (hmid.onlyIn.view_of_ne hids trivial hpart he))

/-! ## What was added since everything was taken out -/

/-- An id became a member of a set. -/
def Exchange.Admits (x : Exchange J) (space : Namespace) : Prop :=
  ∃ id : JobId, indexed space x.before.table id.bytes = false ∧
    indexed space x.after.table id.bytes = true

/-- At most so many ids were added to sets. -/
def room : List (Exchange J) → Nat
  | [] => 0
  | x :: since => x.verb.room + room since

theorem room_append (since : List (Exchange J)) (x : Exchange J) :
    room (since ++ [x]) = room since + x.verb.room := by
  induction since with
  | nil => exact Nat.add_comm _ _
  | cons first rest ih => rw [List.cons_append, room, room, ih, Nat.add_assoc]

/-- Whether a set has a tail: a bucket if it has members, the others if something was added. -/
def Begun (since : List (Exchange J)) (entries : List (UInt64 × Bytes)) : Part → Prop
  | .bucket _ => entries ≠ []
  | part => ∃ x ∈ since, x.Admits part.space

/-- The entries of a set are in order, and it has a tail if it should. -/
structure Stocked (since : List (Exchange J)) (t : Table) (part : Part)
    (entries : List (UInt64 × Bytes)) (tail : UInt64) : Prop where
  lists : Lists part.space t entries tail
  bound : tail.toNat ≤ room since
  begun : tail.toNat ≠ 0 ↔ Begun since entries part

variable {since : List (Exchange J)} {x : Exchange J}

/-- What begins a set in an exchange begins it since everything was taken out. -/
theorem begun_append (hpart : part = .runnable ∨ part = .missing)
    (entries' : List (UInt64 × Bytes)) :
    Begun (since ++ [x]) entries' part ↔ Begun since entries part ∨ x.Admits part.space := by
  rcases hpart with rfl | rfl <;>
    simp only [Begun, List.mem_append, List.mem_singleton, or_and_right, exists_or, exists_eq_left]

/-- A set either has a tail whenever it has members, or is the queue or the set of missing ids. -/
theorem Part.IsSet.cases (h : part.IsSet) :
    (part = .runnable ∨ part = .missing) ∨ ∃ dependency, part = .bucket dependency := by
  cases part with
  | jobs => exact h.elim
  | pending => exact h.elim
  | runnable => exact .inl (.inl rfl)
  | missing => exact .inl (.inr rfl)
  | bucket dependency => exact .inr ⟨dependency, rfl⟩

/-- Nothing is admitted to a set whose members were there before. -/
theorem not_admits (hl : Lists part.space x.before.table entries tail)
    {left : List (UInt64 × Bytes)} {tail' : UInt64} (hleft : left ⊆ entries)
    (h : Lists part.space x.after.table left tail') : ¬ x.Admits part.space := by
  rintro ⟨id, hbefore, hafter⟩
  rw [h.indexed_iff] at hafter
  have hmem : id.bytes ∈ entries.map (·.2) := List.map_subset _ hleft hafter
  rw [← hl.indexed_iff, hbefore] at hmem
  cases hmem

theorem admits_iff (hl : Lists part.space x.before.table entries tail) {new : List JobId}
    {fresh : List (UInt64 × Bytes)} {tail' : UInt64} (hfresh : fresh.map (·.2) = new.map JobId.bytes)
    (h : Lists part.space x.after.table (entries ++ fresh) tail') :
    x.Admits part.space ↔ new ≠ [] := by
  constructor
  · rintro hadmits rfl
    have hnone : fresh = [] := List.map_eq_nil_iff.mp hfresh
    subst hnone
    exact not_admits hl (by simp) h hadmits
  · intro hnew
    obtain ⟨id, rest, rfl⟩ := List.exists_cons_of_ne_nil hnew
    have hmem : id.bytes ∈ fresh.map (·.2) := by simp [hfresh]
    have hdistinct := h.distinct
    rw [List.map_append, List.nodup_append] at hdistinct
    refine ⟨id, ?_, ?_⟩
    · rw [Bool.eq_false_iff, ne_eq, hl.indexed_iff]
      exact fun hold => hdistinct.2.2 _ hold _ hmem rfl
    · rw [h.indexed_iff, List.map_append]
      exact List.mem_append_right _ hmem

/-- The entries of a set are in order after an exchange that did not clear. -/
theorem Stocked.change (h : Stocked since x.before.table part entries tail) (hset : part.IsSet)
    (hx : SetChange part x.verb.room x.before.table x.after.table entries tail) :
    ∃ entries' tail', Stocked (since ++ [x]) x.after.table part entries' tail' := by
  obtain ⟨hl, hbound, hbegun⟩ := h
  have hroom := room_append since x
  cases hx with
  | still hview =>
    have hl' := hl.of_view hview
    refine ⟨entries, tail, hl', by omega, ?_⟩
    rcases hset.cases with hpart | ⟨dependency, rfl⟩
    · rw [begun_append hpart entries, hbegun, or_iff_left (not_admits hl (by simp) hl')]
    · exact hbegun
  | grown new fresh tail' hnew hfresh htail hl' =>
    refine ⟨entries ++ fresh, tail', hl', by omega, ?_⟩
    have hlength : fresh.length = new.length := by simpa using congrArg List.length hfresh
    rcases hset.cases with hpart | ⟨dependency, rfl⟩
    · rw [begun_append hpart, ← hbegun, admits_iff hl hfresh hl', ← List.length_pos_iff_ne_nil]
      omega
    · show tail'.toNat ≠ 0 ↔ entries ++ fresh ≠ []
      have hbucket : tail.toNat ≠ 0 ↔ entries ≠ [] := hbegun
      rw [← List.length_pos_iff_ne_nil, List.length_append]
      rw [← List.length_pos_iff_ne_nil] at hbucket
      omega
  | shrunk hpart left hleft hl' =>
    refine ⟨left, tail, hl', by omega, ?_⟩
    rw [begun_append hpart, hbegun, or_iff_left (not_admits hl hleft.subset hl')]
  | emptied dependency hpart hl' =>
    subst hpart
    exact ⟨[], 0, hl', by simp, by simp [Begun]⟩

/-- Nothing is left of a set when everything is taken out. -/
theorem stocked_of_none (hset : part.IsSet) {t : Table} (h : ∀ key, part.space.view t key = none) :
    Stocked ([] : List (Exchange J)) t part [] 0 := by
  refine ⟨OrderedSet.lists_empty h, Nat.le_refl 0, ?_⟩
  rcases hset.cases with (rfl | rfl) | ⟨dependency, rfl⟩ <;> simp [Begun]

/-- The entries of every set are in order, as long as the numbers last. -/
def Shelves (ids : List JobId) (since : List (Exchange J)) (t : Table) : Prop :=
  room since < UInt64.size → ∀ part : Part, part.Of ids → part.IsSet →
    ∃ entries tail, Stocked since t part entries tail

theorem Shelves.exchange (hids : Hashed ids) {trace : List (Exchange J)}
    (h : Shelves ids (sinceClear trace) x.before.table) (hx : x.Writes ids) :
    Shelves ids (sinceClear (trace ++ [x])) x.after.table := by
  intro hlt part hpart hset
  cases hx with
  | edits hclears hedit =>
    rw [sinceClear_append hclears] at hlt ⊢
    rw [room_append] at hlt
    obtain ⟨entries, tail, hstocked⟩ := h (by omega) part hpart hset
    have hbound := hstocked.bound
    exact hstocked.change hset (hedit.setChange hids hpart hset hstocked.lists (by omega))
  | clears hclears hafter =>
    rw [sinceClear_of_clears hclears, hafter, Store.table_after]
    refine ⟨[], 0, stocked_of_none hset (view_clearing part ?_ _)⟩
    cases part <;> first | exact hset.elim | simp [Part.rank]

/-! ## All keys -/

/-- The keys of a store, by the members of each set with their numbers and by the number that comes
next, and what the scheduler answers. -/
structure Inventory [Job J] (ids : List JobId) (since : List (Exchange J))
    (live : Live (Scheduler J)) (members : Part → List (UInt64 × JobId)) (next : Part → UInt64) :
    Prop where
  /-- There are these keys and no others. -/
  keys : ∀ key, (live.store.table.get? key).isSome ↔
    key = pendingSpace.key Counter.key ∨
    (∃ id, hasJob id live = .ok true live ∧ key = jobsSpace.key id.bytes) ∨
    ∃ part : Part, part.Of ids ∧ part.IsSet ∧
      ((∃ e ∈ members part, key = part.space.key (memberKey e.1) ∨
          key = part.space.key (indexKey e.2.bytes)) ∨
        next part ≠ 0 ∧ key = part.space.key tailKey)
  /-- They hold the members, their numbers and the number that comes next. -/
  member : ∀ part : Part, part.Of ids → part.IsSet → ∀ e ∈ members part,
    part.space.view live.store.table (memberKey e.1) = some e.2.bytes ∧
    part.space.view live.store.table (indexKey e.2.bytes) = some (encodeWord e.1) ∧
    e.1 < next part
  tail : ∀ part : Part, part.Of ids → part.IsSet → next part ≠ 0 →
    part.space.view live.store.table tailKey = some (encodeWord (next part))
  /-- A number leads to a key exactly if the key leads to the number. -/
  paired : ∀ part : Part, part.Of ids → part.IsSet → ∀ seq key,
    part.space.view live.store.table (memberKey seq) = some key ↔
      part.space.view live.store.table (indexKey key) = some (encodeWord seq)
  /-- No number and no member occurs twice. -/
  distinct : ∀ part : Part, part.Of ids → part.IsSet →
    ((members part).map (·.1)).Nodup ∧ ((members part).map (·.2)).Nodup
  runnable : runnableIds live = .ok ((members .runnable).map (·.2)) live
  missing : missingIds live = .ok ((members .missing).map (·.2)) live
  waiting : ∀ dependency ∈ ids, ∃ live', onDependents (Dependents.of dependency) live =
    .ok ((members (.bucket dependency)).map (·.2)) live'
  /-- Both other sets have a tail if something was added since everything was taken out. -/
  added : ∀ part, part = .runnable ∨ part = .missing →
    (next part ≠ 0 ↔ ∃ x ∈ since, x.Admits part.space)
  /-- A bucket has one if it has members. -/
  noted : ∀ dependency ∈ ids,
    (next (.bucket dependency) ≠ 0 ↔ members (.bucket dependency) ≠ [])

/-- Members of a set that are ids, as they are stored. -/
def inBytes (members : List (UInt64 × JobId)) : List (UInt64 × Bytes) :=
  members.map fun e => (e.1, e.2.bytes)

theorem mem_inBytes {members : List (UInt64 × JobId)} {e : UInt64 × JobId} (h : e ∈ members) :
    (e.1, e.2.bytes) ∈ inBytes members :=
  List.mem_map_of_mem (f := fun e : UInt64 × JobId => (e.1, e.2.bytes)) h

theorem inBytes_members (members : List (UInt64 × JobId)) :
    (inBytes members).map (·.2) = (members.map (·.2)).map JobId.bytes := by
  simp [inBytes]

theorem exists_inBytes (h : ∀ e ∈ entries, ∃ id : JobId, e.2 = id.bytes) :
    ∃ members, entries = inBytes members := by
  induction entries with
  | nil => exact ⟨[], rfl⟩
  | cons e rest ih =>
    obtain ⟨id, hid⟩ := h e List.mem_cons_self
    obtain ⟨members, rfl⟩ := ih fun e he => h e (List.mem_cons_of_mem _ he)
    refine ⟨(e.1, id) :: members, ?_⟩
    show e :: inBytes members = (e.1, id.bytes) :: inBytes members
    rw [← hid]

/-- The members of all sets, read as ids. -/
theorem exists_members (hids : Hashed ids) {t : Table} (hentries : Entries ids t)
    (h : ∀ part : Part, part.Of ids → part.IsSet →
      ∃ entries tail, Stocked since t part entries tail) :
    ∃ (members : Part → List (UInt64 × JobId)) (next : Part → UInt64), ∀ part : Part,
      part.Of ids → part.IsSet → Stocked since t part (inBytes (members part)) (next part) := by
  have hall : ∀ part : Part, ∃ (members : List (UInt64 × JobId)) (next : UInt64), part.Of ids →
      part.IsSet → Stocked since t part (inBytes members) next := by
    intro part
    by_cases hpart : part.Of ids ∧ part.IsSet
    · obtain ⟨entries, next, hstocked⟩ := h part hpart.1 hpart.2
      have hread : ∀ e ∈ entries, ∃ id : JobId, e.2 = id.bytes := fun e he =>
        (hentries.setEntry hids hpart.1 hpart.2 ((hstocked.lists.member e.1 e.2).mpr he)).id
          ⟨encodeWord e.1, rfl⟩
      obtain ⟨members, rfl⟩ := exists_inBytes hread
      exact ⟨members, next, fun _ _ => hstocked⟩
    · exact ⟨[], 0, fun hids hset => absurd ⟨hids, hset⟩ hpart⟩
  choose members next hstocked using hall
  exact ⟨members, next, hstocked⟩

section Members

variable {space : Namespace} {t : Table} {members : List (UInt64 × JobId)}

theorem view_members (h : Lists space t (inBytes members) tail) {e : UInt64 × JobId}
    (he : e ∈ members) :
    space.view t (memberKey e.1) = some e.2.bytes ∧
    space.view t (indexKey e.2.bytes) = some (encodeWord e.1) ∧ e.1 < tail :=
  ⟨(h.member _ _).mpr (mem_inBytes he), (h.index _ _).mpr ⟨e.1, mem_inBytes he, rfl⟩,
    h.below _ (mem_inBytes he)⟩

theorem view_tail (h : Lists space t entries tail) (hne : tail ≠ 0) :
    space.view t tailKey = some (encodeWord tail) := by
  rw [h.tail_eq, if_neg hne]

/-- What a set has is the tail or belongs to a member. -/
theorem key_of_view (h : Lists space t (inBytes members) tail) {key value : Bytes}
    (hentry : SetEntry key value) (hview : space.view t key = some value) :
    (∃ e ∈ members, key = memberKey e.1 ∨ key = indexKey e.2.bytes) ∨ tail ≠ 0 ∧ key = tailKey := by
  rcases hentry with ⟨rfl, -⟩ | ⟨id, rfl, -⟩ | ⟨seq, rfl, -⟩
  · refine .inr ⟨fun hzero => ?_, rfl⟩
    rw [h.tail_eq, if_pos hzero] at hview
    cases hview
  · obtain ⟨seq, hmem, -⟩ := (h.index _ _).mp hview
    obtain ⟨e, he, heq⟩ := List.mem_map.mp hmem
    exact .inl ⟨e, he, .inr (by rw [(Prod.mk.inj heq).2])⟩
  · obtain ⟨e, he, heq⟩ := List.mem_map.mp ((h.member _ _).mp hview)
    exact .inl ⟨e, he, .inl (by rw [(Prod.mk.inj heq).1])⟩

theorem view_paired (h : Lists space t entries tail) (seq : UInt64) (key : Bytes) :
    space.view t (memberKey seq) = some key ↔ space.view t (indexKey key) = some (encodeWord seq) := by
  rw [h.member, h.index]
  constructor
  · exact fun hmem => ⟨seq, hmem, rfl⟩
  · rintro ⟨seq', hmem, he⟩
    rwa [BigEndian.encodeWord_inj.mp he]

theorem nodup_members (h : Lists space t (inBytes members) tail) :
    (members.map (·.1)).Nodup ∧ (members.map (·.2)).Nodup := by
  have hascending := h.ascending
  have hdistinct := h.distinct
  rw [inBytes, List.pairwise_map] at hascending
  rw [inBytes_members] at hdistinct
  refine ⟨List.pairwise_map.mpr (hascending.imp fun hlt he => ?_), hdistinct.of_map _⟩
  rw [he] at hlt
  exact UInt64.lt_irrefl _ hlt

theorem listed_members (h : Lists space t (inBytes members) tail) :
    (listed space t).map (·.2) = (members.map (·.2)).map JobId.bytes := by
  rw [h.members, inBytes_members]

end Members

variable {live : Live (Scheduler J)} {members : List (UInt64 × JobId)}

/-- A job is found in the cache only if it is stored. -/
theorem Held.hasJob (h : Held live) (id : JobId) : Scheduler.hasJob id live =
    .ok (jobsSpace.view live.store.table id.bytes).isSome live := by
  have hhas : live.memory.jobs.has id live.store =
      .ok (jobsSpace.view live.store.table id.bytes).isSome live.store := by
    rw [JobStore.has]
    split
    · rename_i hcached
      obtain ⟨hcaching, hcontains⟩ := Bool.and_eq_true_iff.mp hcached
      obtain ⟨job, hjob⟩ := Cache.contains_iff.mp hcontains
      rw [h.jobs.stored hcaching id job hjob]
      rfl
    · rw [h.jobs.space_eq, Namespace.has_run]
  have hrun : Scheduler.hasJob id live = LiveM.onStore (live.memory.jobs.has id) live := rfl
  rw [hrun, LiveM.onStore, hhas]

theorem ids_run {set : IdSet} {space : Namespace} (hset : stored space s.table = .ok set.order)
    (h : Lists space s.table (inBytes members) tail) : set.ids s = .ok (members.map (·.2)) s := by
  rw [IdSet.ids, Runs.bind_apply, OrderedSet.members_run, OrderedSet.space_of_stored hset]
  simp only
  rw [Runs.mapM_ofExcept, listed_members h, Rolled.mapM_ofBytes]

theorem Held.runnableIds_eq (h : Held live)
    (hl : Lists runnableSpace live.store.table (inBytes members) tail) :
    runnableIds live = .ok (members.map (·.2)) live := by
  have hrun : runnableIds live = LiveM.onStore live.memory.runnable.ids live := rfl
  rw [hrun, LiveM.onStore, ids_run h.runnable.order hl]

theorem Held.missingIds_eq (h : Held live)
    (hl : Lists missingSpace live.store.table (inBytes members) tail) :
    missingIds live = .ok (members.map (·.2)) live := by
  have hrun : missingIds live = LiveM.onStore live.memory.missing.ids live := rfl
  rw [hrun, LiveM.onStore, ids_run h.missing.order hl]

theorem Recalls.dependents_of (hids : Hashed ids) (h : Recalls ids live) {dependency : JobId}
    (hid : dependency ∈ ids)
    (hl : Lists (bucketSpace dependency) live.store.table (inBytes members) tail) :
    ∃ live', onDependents (Dependents.of dependency) live = .ok (members.map (·.2)) live' := by
  have hplain : Plain.dependentsOf dependency live.store = .ok (members.map (·.2)) live.store := by
    rw [Plain.dependentsOf, onSet_run hl.stored, Runs.bind_apply, listIds_run]
    simp only [listed_members hl, Rolled.mapM_ofBytes]
    rfl
  exact h.ok_onDependents (local_withBucket hids hid steady_listIds) hplain

theorem inventory [Job J] (hids : Hashed ids) (h : Recalls ids live)
    (hentries : Entries ids live.store.table)
    (hshelves : ∀ part : Part, part.Of ids → part.IsSet →
      ∃ entries tail, Stocked since live.store.table part entries tail) :
    ∃ members next, Inventory ids since live members next := by
  obtain ⟨members, next, hstocked⟩ := exists_members hids hentries hshelves
  have hnext : ∀ part, next part ≠ 0 ↔ (next part).toNat ≠ 0 := fun part => by
    rw [ne_eq, ← UInt64.toNat_inj]
    rfl
  refine ⟨members, next, {
    keys := fun key => ?_
    member := fun part hpart hset e he => view_members (hstocked part hpart hset).lists he
    tail := fun part hpart hset => view_tail (hstocked part hpart hset).lists
    paired := fun part hpart hset => view_paired (hstocked part hpart hset).lists
    distinct := fun part hpart hset => nodup_members (hstocked part hpart hset).lists
    runnable := h.held.runnableIds_eq (hstocked .runnable trivial trivial).lists
    missing := h.held.missingIds_eq (hstocked .missing trivial trivial).lists
    waiting := fun dependency hid =>
      h.dependents_of hids hid (hstocked (.bucket dependency) hid trivial).lists
    added := fun part hpart => ?_
    noted := fun dependency hid => ?_ }⟩
  · rw [Option.isSome_iff_exists]
    constructor
    · rintro ⟨value, hvalue⟩
      obtain ⟨part, hpart, k, rfl, hallows⟩ := hentries key value hvalue
      by_cases hset : part.IsSet
      · refine .inr (.inr ⟨part, hpart, hset, ?_⟩)
        rcases key_of_view (hstocked part hpart hset).lists ((Part.allows_iff hset).mp hallows)
          hvalue with ⟨e, he, rfl | rfl⟩ | ⟨hne, rfl⟩
        · exact .inl ⟨e, he, .inl rfl⟩
        · exact .inl ⟨e, he, .inr rfl⟩
        · exact .inr ⟨hne, rfl⟩
      · cases part with
        | jobs =>
          obtain ⟨id, rfl⟩ := hallows
          have hstored : jobsSpace.view live.store.table id.bytes = some value := hvalue
          refine .inr (.inl ⟨id, ?_, rfl⟩)
          rw [h.held.hasJob, hstored]
          rfl
        | pending => exact .inl (by rw [hallows.1]; rfl)
        | _ => exact absurd trivial hset
    · rintro (rfl | ⟨id, hjob, rfl⟩ | ⟨part, hpart, hset, ⟨e, he, rfl | rfl⟩ | ⟨hne, rfl⟩⟩)
      · exact ⟨_, h.held.pending.count⟩
      · rw [h.held.hasJob] at hjob
        exact Option.isSome_iff_exists.mp (EStateM.Result.ok.inj hjob).1
      · exact ⟨_, (view_members (hstocked part hpart hset).lists he).1⟩
      · exact ⟨_, (view_members (hstocked part hpart hset).lists he).2.1⟩
      · exact ⟨_, view_tail (hstocked part hpart hset).lists hne⟩
  · rcases hpart with rfl | rfl
    · exact (hnext _).trans (hstocked .runnable trivial trivial).begun
    · exact (hnext _).trans (hstocked .missing trivial trivial).begun
  · have hbegun := (hstocked (.bucket dependency) hid trivial).begun
    rw [hnext, hbegun, Begun, inBytes, ne_eq, List.map_eq_nil_iff]

variable [Job J]

/-- **No orphan keys.** Whatever is asked of a scheduler that was opened on a store without entries,
with writes refused at any time, the store has the keys of an inventory and no others, unless more
ids were added since everything was taken out than there are numbers. -/
theorem no_orphans {parse : Parser J} {options : Options}
    {metrics : Option (CacheMetrics × CacheMetrics)} {store t : Store} {scheduler : Scheduler J}
    (hempty : store.table = .empty) (hload : load parse options metrics store = .ok scheduler t)
    {moves : List (Move J)} (hhashed : Hashed (moves.flatMap Move.buckets)) :
    ∃ trace live, Move.playAll parse moves ⟨scheduler, t⟩ = .ok trace live ∧
      (room (sinceClear trace) < UInt64.size → ∃ members next,
        Inventory (moves.flatMap Move.buckets) (sinceClear trace) live members next) := by
  have hcoherent : Coherent (moves.flatMap Move.buckets) parse ⟨scheduler, t⟩ := coherent_of_load hload
  have htable : t.table = Batch.apply firstBatch .empty := by
    rw [store_of_load hempty hload, Store.table_after, hempty]
  have hstart : Shelves (J := J) (moves.flatMap Move.buckets) [] t.table := by
    intro _ part hpart hset
    rw [htable]
    refine ⟨[], 0, stocked_of_none hset (view_firstBatch hhashed hpart ?_)⟩
    rintro rfl
    exact hset
  obtain ⟨trace, live, hplay, hlive, hentries, hshelves⟩ := hcoherent.recalls.playAll hhashed
    (P := fun trace t => Entries (moves.flatMap Move.buckets) t ∧
      Shelves (moves.flatMap Move.buckets) (sinceClear trace) t)
    (fun _ _ h hx => ⟨h.1.exchange hx, h.2.exchange hhashed hx⟩) []
    ⟨htable ▸ entries_firstBatch, hstart⟩ (List.Subset.refl _)
  exact ⟨trace, live, hplay, fun hroom => inventory hhashed hlive hentries (hshelves hroom)⟩

/-- Clearing is refused, and a missing id is taken out after the scheduler has been opened again. -/
def refusedClear : List (Move LinkedJob) :=
  [.ask ⟨.putJob forerunner, trivial⟩, .ask ⟨.addRunnable (Job.id forerunner), trivial⟩,
    .ask ⟨.addDependency (Job.id forerunner) (Job.id follower), trivial⟩,
    .ask ⟨.addMissing [Job.id follower], trivial⟩, .grant (some 0), .ask ⟨.clear, trivial⟩,
    .grant none, .reopen ⟨false, 0, 0, ""⟩ none, .ask ⟨.removeMissing [Job.id follower], trivial⟩]

theorem no_orphans_refusedClear : ∃ scheduler t trace live members next,
    load LinkedJob.parse ⟨true, 4, 4, ""⟩ none (.volatile .empty) = .ok scheduler t ∧
    Move.playAll LinkedJob.parse refusedClear ⟨scheduler, t⟩ = .ok trace live ∧
    Inventory [Job.id forerunner] (sinceClear trace) live members next := by
  have hnone : (Store.volatile .empty).table = .empty := rfl
  obtain ⟨scheduler, t, hload⟩ := load_of_empty LinkedJob.parse hnone rfl ⟨true, 4, 4, ""⟩ none
  obtain ⟨trace, live, hplay, hinventory⟩ :=
    no_orphans hnone hload (show Hashed (refusedClear.flatMap Move.buckets) by decide +kernel)
  have hfew : (match load LinkedJob.parse ⟨true, 4, 4, ""⟩ none (.volatile .empty) with
    | .error _ _ => false
    | .ok scheduler t => match Move.playAll LinkedJob.parse refusedClear ⟨scheduler, t⟩ with
      | .error _ _ => false
      | .ok trace _ => room (sinceClear trace) == 3) = true := by decide +kernel
  simp only [hload, hplay, beq_iff_eq] at hfew
  obtain ⟨members, next, h⟩ := hinventory (by rw [hfew]; decide)
  exact ⟨scheduler, t, trace, live, members, next, hload, hplay, h⟩

end WorkQueue.Scheduler
