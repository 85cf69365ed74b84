import WorkQueue.Proofs.OrderedSet.Contents
import WorkQueue.Proofs.Scheduler.Plain

/-!
# Rolls

A `Roll` is an ordered set of ids in the abstract: its members, oldest first, and how many have been
added since it was last emptied. `Rolled` says that a namespace holds a roll. Each action on the set
changes the roll as its name says (`Rolled.add`, `Rolled.drop`, `Rolled.clear`), or is refused and
changes nothing.
-/

namespace WorkQueue

/-- Ids in the order in which they came. -/
structure Roll where
  members : List JobId
  /-- How many ids have been added since the roll was last emptied. -/
  puts : Nat

namespace Roll

/-- The roll without members. -/
def empty : Roll := ⟨[], 0⟩

/-- The roll with an id at its end, unless it is a member. -/
def add (r : Roll) (id : JobId) : Roll :=
  if id ∈ r.members then r else ⟨r.members ++ [id], r.puts + 1⟩

/-- The roll without its first member. -/
def tail (r : Roll) : Roll := { r with members := r.members.tail }

/-- The roll once all members have been taken out; emptying an empty roll changes nothing. -/
def cleared (r : Roll) : Roll := if r.members = [] then r else .empty

@[simp] theorem members_cleared (r : Roll) : r.cleared.members = [] := by
  rw [cleared]
  split
  · assumption
  · rfl

theorem puts_cleared_le (r : Roll) : r.cleared.puts ≤ r.puts := by
  rw [cleared]
  split
  · exact Nat.le_refl _
  · exact Nat.zero_le _

@[simp] theorem mem_add {r : Roll} {id other : JobId} :
    other ∈ (r.add id).members ↔ other ∈ r.members ∨ other = id := by
  rw [add]
  split
  · rename_i h
    refine ⟨.inl, ?_⟩
    rintro (h | rfl)
    · exact h
    · exact h
  · simp

theorem add_of_not_mem {r : Roll} {id : JobId} (h : id ∉ r.members) :
    r.add id = ⟨r.members ++ [id], r.puts + 1⟩ := if_neg h

theorem puts_add_le (r : Roll) (id : JobId) : (r.add id).puts ≤ r.puts + 1 := by
  rw [add]
  split <;> simp

end Roll

namespace Scheduler

open OrderedSet (Lists listed indexed stored)

/-- A namespace holds the entries of a roll. -/
def Rolled (space : Namespace) (t : Table) (r : Roll) : Prop :=
  ∃ entries tail, Lists space t entries tail ∧
    entries.map (·.2) = r.members.map JobId.bytes ∧ tail.toNat = r.puts

namespace Rolled

variable {space : Namespace} {t : Table} {r : Roll}

theorem empty (h : ∀ key, space.view t key = none) : Rolled space t .empty :=
  ⟨[], 0, OrderedSet.lists_empty h, rfl, rfl⟩

theorem of_view {t' : Table} (h : Rolled space t r) (hv : space.view t' = space.view t) :
    Rolled space t' r := by
  obtain ⟨entries, tail, hl, hm, hp⟩ := h
  exact ⟨entries, tail, hl.of_view hv, hm, hp⟩

theorem stored (h : Rolled space t r) : ∃ set, stored space t = .ok set := by
  obtain ⟨entries, tail, hl, -, -⟩ := h
  exact ⟨_, hl.stored⟩

private theorem mem_bytes {id : JobId} {ids : List JobId} :
    id.bytes ∈ ids.map JobId.bytes ↔ id ∈ ids := by
  rw [List.mem_map]
  constructor
  · rintro ⟨other, h, he⟩
    exact JobId.ext he ▸ h
  · exact fun h => ⟨id, h, rfl⟩

theorem indexed_iff (h : Rolled space t r) {id : JobId} :
    indexed space t id.bytes = true ↔ id ∈ r.members := by
  obtain ⟨entries, tail, hl, hm, -⟩ := h
  rw [hl.indexed_iff, hm, mem_bytes]

theorem listed (h : Rolled space t r) :
    (listed space t).map (·.2) = r.members.map JobId.bytes := by
  obtain ⟨entries, tail, hl, hm, -⟩ := h
  rw [hl.members, hm]

theorem nodup (h : Rolled space t r) : r.members.Nodup := by
  obtain ⟨entries, tail, hl, hm, -⟩ := h
  have hd := hl.distinct
  rw [hm] at hd
  exact List.Pairwise.of_map JobId.bytes (fun _ _ hne he => hne (he ▸ rfl)) hd

/-- All members of a roll are ids. -/
theorem mapM_ofBytes (ids : List JobId) : (ids.map JobId.bytes).mapM JobId.ofBytes = .ok ids := by
  induction ids with
  | nil => rfl
  | cons id ids ih =>
    rw [List.map_cons, List.mapM_cons, JobId.ofBytes_bytes, ih]
    rfl

/-! ## Changes -/

/-- A new id stands at the end. -/
theorem add (h : Rolled space t r) {id : JobId} (hid : id ∉ r.members)
    (hroom : r.puts + 1 < UInt64.size) {set : OrderedSet}
    (hset : OrderedSet.stored space t = .ok set) :
    Rolled space (Batch.apply (set.additions id.bytes) t) (r.add id) := by
  obtain ⟨entries, tail, hl, hm, hp⟩ := h
  cases hl.stored.symm.trans hset
  have hnot : id.bytes ∉ entries.map (·.2) := by rwa [hm, mem_bytes]
  have hnext : (tail + 1).toNat = tail.toNat + 1 := by
    rw [UInt64.toNat_add]
    exact Nat.mod_eq_of_lt (hp ▸ hroom)
  refine ⟨_, _, hl.put hnot (hp ▸ hroom), ?_, ?_⟩
  · rw [Roll.add_of_not_mem hid, List.map_append, List.map_append, hm]
    rfl
  · rw [Roll.add_of_not_mem hid, hnext, hp]

/-- Nothing is left when all are taken out. -/
theorem clear (h : Rolled space t r) {set : OrderedSet}
    (hset : OrderedSet.stored space t = .ok set) :
    Rolled space (Batch.apply (set.removals (OrderedSet.listed space t)) t) .empty := by
  obtain ⟨entries, tail, hl, -, -⟩ := h
  cases hl.stored.symm.trans hset
  exact ⟨_, _, hl.takeAll, rfl, rfl⟩

/-- The first member can be taken out. -/
theorem drop (h : Rolled space t r) {id : JobId} {rest : List JobId}
    (hr : r.members = id :: rest) {set : OrderedSet}
    (hset : OrderedSet.stored space t = .ok set) :
    ∃ seq, space.view t (OrderedSet.indexKey id.bytes) = some (BigEndian.encodeWord seq) ∧
      Rolled space (Batch.apply (set.removal seq id.bytes) t) r.tail := by
  have hnodup := h.nodup
  obtain ⟨entries, tail, hl, hm, hp⟩ := h
  cases hl.stored.symm.trans hset
  cases entries with
  | nil =>
    rw [hr] at hm
    cases hm
  | cons e entries =>
    obtain ⟨seq, m⟩ := e
    rw [hr, List.map_cons, List.map_cons] at hm
    obtain ⟨rfl, hrest⟩ := List.cons.inj hm
    have hin : (seq, id.bytes) ∈ (seq, id.bytes) :: entries := List.mem_cons_self
    refine ⟨seq, (hl.index _ _).mpr ⟨seq, hin, rfl⟩, _, _, hl.delete hin, ?_, hp⟩
    -- The other members all differ from the first.
    have hall : ∀ e ∈ entries, (e.2 != id.bytes) = true := by
      intro e he
      have hmem : e.2 ∈ rest.map JobId.bytes := hrest ▸ List.mem_map_of_mem he
      rw [bne_iff_ne]
      intro heq
      rw [heq, mem_bytes] at hmem
      rw [hr] at hnodup
      exact (List.nodup_cons.mp hnodup).1 hmem
    rw [List.filter_cons_of_neg (by simp), List.filter_eq_self.mpr hall, hrest, Roll.tail, hr]
    rfl

end Rolled

end Scheduler

end WorkQueue
