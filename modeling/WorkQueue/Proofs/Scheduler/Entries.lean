import WorkQueue.Proofs.OrderedSet.Contents
import WorkQueue.Proofs.Scheduler.Placed

/-!
# The entries of a scheduler's store

`Entries` says that a table has no entries but those that the parts of a scheduler make: jobs under
ids, the number of jobs, and in each set members, sequence numbers and a tail. A batch keeps that if
all that it puts is such an entry (`Entries.apply`), and whatever is read from such a table can be
read (`Entries.stored`, `Entries.readSeq`, `Entries.listed_ids`), even where sequence numbers have come
round to zero.
-/

namespace WorkQueue.Scheduler

open BigEndian (encodeWord)
open OrderedSet (tailKey indexKey memberKey listed)

variable {ids : List JobId} {t : Table}

/-! ## What entries look like -/

/-- An entry of an ordered set of ids: its tail, the sequence number of an id, or an id. -/
def SetEntry (key value : Bytes) : Prop :=
  (key = tailKey ∧ ∃ seq, value = encodeWord seq) ∨
    (∃ id : JobId, key = indexKey id.bytes ∧ ∃ seq, value = encodeWord seq) ∨
    ∃ seq, key = memberKey seq ∧ ∃ id : JobId, value = id.bytes

theorem SetEntry.seq {key value : Bytes} (h : SetEntry key value) (hkey : ∀ seq, key ≠ memberKey seq) :
    ∃ seq, value = encodeWord seq := by
  rcases h with ⟨-, hseq⟩ | ⟨id, -, hseq⟩ | ⟨seq, hmember, -⟩
  · exact hseq
  · exact hseq
  · exact absurd hmember (hkey seq)

theorem SetEntry.id {key value : Bytes} (h : SetEntry key value)
    (hkey : [OrderedSet.memberTag] <+: key) : ∃ id : JobId, value = id.bytes := by
  rcases h with ⟨rfl, -⟩ | ⟨id, rfl, -⟩ | ⟨seq, -, hid⟩
  · exact absurd hkey (by simp [OrderedSet.memberTag, tailKey])
  · exact absurd hkey (by simp [OrderedSet.memberTag, indexKey, OrderedSet.indexTag])
  · exact hid

namespace Part

/-- Whether a part is an ordered set of ids. -/
def IsSet : Part → Prop
  | jobs | pending => False
  | _ => True

/-- What the entries of a part look like. -/
def Allows : Part → Bytes → Bytes → Prop
  | jobs, key, _ => ∃ id : JobId, key = id.bytes
  | pending, key, value => key = Counter.key ∧ ∃ count, value = encodeWord count
  | _, key, value => SetEntry key value

theorem allows_iff {part : Part} (h : part.IsSet) {key value : Bytes} :
    part.Allows key value ↔ SetEntry key value := by
  cases part with
  | jobs => exact h.elim
  | pending => exact h.elim
  | _ => exact Iff.rfl

/-- An entry that a part makes. -/
def Entry (ids : List JobId) (key value : Bytes) : Prop :=
  ∃ part : Part, part.Of ids ∧ ∃ k, key = part.space.key k ∧ part.Allows k value

theorem Entry.allows (hids : Hashed ids) {part : Part} (hpart : part.Of ids) {k value : Bytes}
    (h : Entry ids (part.space.key k) value) : part.Allows k value := by
  obtain ⟨other, hother, l, hkey, hallows⟩ := h
  by_cases he : part = other
  · subst he
    rwa [Namespace.key_inj.mp hkey]
  · exact absurd hkey (Part.apart hids hpart hother he k l)

end Part

/-- All that a batch puts are entries that a part makes. -/
def Enters (ids : List JobId) (batch : Batch) : Prop :=
  ∀ key value, Operation.put key value ∈ batch → Part.Entry ids key value

theorem enters_of_deletes {batch : Batch} (h : ∀ op ∈ batch, op.isPut = false) :
    Enters ids batch := fun _ _ hop => nomatch h _ hop

theorem Enters.append {first second : Batch} (h : Enters ids first) (h' : Enters ids second) :
    Enters ids (first ++ second) := fun key value hop =>
  (List.mem_append.mp hop).elim (h key value) (h' key value)

theorem enters_singleton (part : Part) (hpart : part.Of ids) {key value : Bytes}
    (h : part.Allows key value) : Enters ids [part.space.stagePut key value] := by
  intro k v hop
  obtain ⟨rfl, rfl⟩ := Operation.put.inj (List.mem_singleton.mp hop)
  exact ⟨part, hpart, key, rfl, h⟩

theorem enters_additions {part : Part} (hpart : part.Of ids) (hset : part.IsSet) {set : OrderedSet}
    (hspace : set.space = part.space) (id : JobId) : Enters ids (set.additions id.bytes) := by
  have hmember : part.Allows (memberKey set.tail) id.bytes :=
    (Part.allows_iff hset).mpr (.inr (.inr ⟨_, rfl, id, rfl⟩))
  have hindex : part.Allows (indexKey id.bytes) (encodeWord set.tail) :=
    (Part.allows_iff hset).mpr (.inr (.inl ⟨id, rfl, _, rfl⟩))
  have htail : part.Allows tailKey (encodeWord (set.tail + 1)) :=
    (Part.allows_iff hset).mpr (.inl ⟨rfl, _, rfl⟩)
  rw [OrderedSet.additions, hspace]
  exact (enters_singleton part hpart hmember).append
    ((enters_singleton part hpart hindex).append (enters_singleton part hpart htail))

/-! ## Tables of such entries -/

/-- All entries of a table are made by parts of a scheduler. -/
def Entries (ids : List JobId) (t : Table) : Prop :=
  ∀ key value, t.get? key = some value → Part.Entry ids key value

theorem entries_empty : Entries ids .empty := nofun

namespace Entries

theorem apply (h : Entries ids t) {batch : Batch} (hbatch : Enters ids batch) :
    Entries ids (Batch.apply batch t) := by
  induction batch generalizing t with
  | nil => exact h
  | cons op batch ih =>
    refine ih (fun key value hget => ?_) fun key value hop => hbatch key value (.tail _ hop)
    cases op with
    | put k v =>
      simp only [Operation.apply, Table.get?_put] at hget
      split at hget
      · rename_i he
        cases hget
        exact he ▸ hbatch k value List.mem_cons_self
      · exact h key value hget
    | delete k =>
      simp only [Operation.apply, Table.get?_erase] at hget
      split at hget
      · cases hget
      · exact h key value hget

variable {part : Part}

theorem setEntry (hids : Hashed ids) (h : Entries ids t) (hpart : part.Of ids) (hset : part.IsSet)
    {key value : Bytes} (hv : part.space.view t key = some value) : SetEntry key value :=
  (Part.allows_iff hset).mp (Part.Entry.allows hids hpart (h _ _ hv))

/-- A tail can be read. -/
theorem stored (hids : Hashed ids) (h : Entries ids t) (hpart : part.Of ids) (hset : part.IsSet) :
    ∃ set, OrderedSet.stored part.space t = .ok set := by
  rw [OrderedSet.stored]
  cases hv : part.space.view t tailKey with
  | none => exact ⟨_, rfl⟩
  | some value =>
    obtain ⟨seq, rfl⟩ := (h.setEntry hids hpart hset hv).seq fun seq =>
      (OrderedSet.memberKey_ne_tailKey seq).symm
    refine ⟨⟨part.space, seq⟩, ?_⟩
    simp [Except.map]

/-- The sequence number of a member can be read. -/
theorem readSeq (hids : Hashed ids) (h : Entries ids t) (hpart : part.Of ids) (hset : part.IsSet)
    {member value : Bytes} (hv : part.space.view t (indexKey member) = some value) :
    ∃ seq, OrderedSet.readSeq value = .ok seq := by
  obtain ⟨seq, rfl⟩ := (h.setEntry hids hpart hset hv).seq fun seq =>
    (OrderedSet.memberKey_ne_indexKey seq member).symm
  exact ⟨seq, OrderedSet.readSeq_encodeWord seq⟩

/-- Whatever is listed is an id. -/
theorem listed_ids (hids : Hashed ids) (h : Entries ids t) (hpart : part.Of ids)
    (hset : part.IsSet) :
    ∃ members, ((listed part.space t).mapM fun e => JobId.ofBytes e.2) = .ok members := by
  have hall : ∀ e ∈ listed part.space t, ∃ id : JobId, e.2 = id.bytes := by
    rintro ⟨key, value⟩ he
    obtain ⟨hkey, hv⟩ := Namespace.mem_entries.mp he
    exact (h.setEntry hids hpart hset hv).id hkey
  generalize listed part.space t = entries at hall
  induction entries with
  | nil => exact ⟨[], rfl⟩
  | cons e rest ih =>
    obtain ⟨id, hid⟩ := hall e List.mem_cons_self
    obtain ⟨members, hmembers⟩ := ih fun e he => hall e (List.mem_cons_of_mem _ he)
    refine ⟨id :: members, ?_⟩
    rw [List.mapM_cons, hid, JobId.ofBytes_bytes, hmembers]
    rfl

end Entries

end WorkQueue.Scheduler
