import WorkQueue.Proofs.Runs
import WorkQueue.Proofs.Store.Scan
import WorkQueue.Store.Namespace

/-!
# What a namespace shows

`Namespace.view` is a table as seen through a namespace, and reading through the namespace gives
what the view has (`get?_run`, `has_run`, `get_run`). Two namespaces are `Apart` when no key of one
is a key of the other; a batch within one leaves the view of the other (`view_apply`).

* `Store.write_eq`: a write is refused and changes nothing, or the whole batch is applied;
* `mem_entries`, `entries_eq_of_mem_iff`: what a scan gives, from the view;
* `size_of_new`: how many keys a namespace has after one more;
* `apart_of_hash_ne`: names with different hashes lead to namespaces apart.
-/

namespace WorkQueue

namespace Store

/-- The store once a batch has been written. -/
def after (s : Store) (batch : Batch) : Store :=
  { s with writesLeft := s.writesLeft.map (· - 1) }.land batch

@[simp] theorem table_after (s : Store) (batch : Batch) :
    (s.after batch).table = batch.apply s.table := by
  simp only [after, land]
  split
  · split
    · rename_i h
      rw [List.isEmpty_iff.mp h, Batch.apply_nil]
    · rfl
  · rfl

@[simp] theorem writesLeft_after (s : Store) (batch : Batch) :
    (s.after batch).writesLeft = s.writesLeft.map (· - 1) := by
  simp only [after, land]
  split
  · split <;> rfl
  · rfl

/-- A write is refused and changes nothing, or the whole batch is applied. -/
theorem write_eq (batch : Batch) (s : Store) :
    write batch s =
      if s.writesLeft = some 0 then .error (.file .writeRefused) s else .ok () (s.after batch) := by
  obtain ⟨table, files, log, writesLeft⟩ := s
  cases writesLeft with
  | none => rfl
  | some left => cases left <;> rfl

theorem write_ok {s : Store} (h : s.writesLeft ≠ some 0) (batch : Batch) :
    write batch s = .ok () (s.after batch) := by
  rw [write_eq, if_neg h]

theorem write_refused {s : Store} (h : s.writesLeft = some 0) (batch : Batch) :
    write batch s = .error (.file .writeRefused) s := by
  rw [write_eq, if_pos h]

theorem bind_write {α : Type} (batch : Batch) (next : Unit → StoreM α) (s : Store) :
    (write batch >>= next) s =
      if s.writesLeft = some 0 then .error (.file .writeRefused) s
      else next () (s.after batch) := by
  rw [Runs.bind_apply, write_eq]
  split
  · rename_i h
    split at h
    · cases h
    · rename_i hw
      cases h
      rw [if_neg hw]
  · rename_i h
    split at h
    · rename_i hw
      cases h
      rw [if_pos hw]
    · cases h

end Store

/-- A batch of deletions takes out what it names. -/
theorem Batch.get?_apply_deletes {batch : Batch} (h : ∀ op ∈ batch, op.isPut = false) (t : Table)
    (key : Bytes) :
    (Batch.apply batch t).get? key =
      if key ∈ batch.map Operation.key then none else t.get? key := by
  induction batch generalizing t with
  | nil => rfl
  | cons op batch ih =>
    rw [Batch.apply_cons, ih fun op hop => h op (List.mem_cons_of_mem _ hop)]
    cases op with
    | put k v => exact absurd (h _ List.mem_cons_self) (by simp [Operation.isPut])
    | delete k =>
      simp only [Operation.apply, Table.get?_erase, List.map_cons, Operation.key, List.mem_cons]
      by_cases hk : key = k <;> simp [hk]

namespace Namespace

/-! ## Views -/

/-- A table as seen through a namespace. -/
def view (ns : Namespace) (t : Table) (key : Bytes) : Option Bytes := t.get? (ns.key key)

theorem key_inj {ns : Namespace} {k l : Bytes} : ns.key k = ns.key l ↔ k = l :=
  List.append_right_inj ns.lead

@[simp] theorem view_put (ns : Namespace) (t : Table) (k value l : Bytes) :
    ns.view (t.put (ns.key k) value) l = if l = k then some value else ns.view t l := by
  simp only [view, Table.get?_put, key_inj]

@[simp] theorem view_erase (ns : Namespace) (t : Table) (k l : Bytes) :
    ns.view (t.erase (ns.key k)) l = if l = k then none else ns.view t l := by
  simp only [view, Table.get?_erase, key_inj]

theorem get?_run (ns : Namespace) (key : Bytes) (s : Store) :
    ns.get? key s = .ok (ns.view s.table key) s := rfl

theorem has_run (ns : Namespace) (key : Bytes) (s : Store) :
    ns.has key s = .ok (ns.view s.table key).isSome s := rfl

theorem get_run (ns : Namespace) (key : Bytes) (s : Store) :
    ns.get key s = match ns.view s.table key with
      | some value => .ok value s
      | none => .error .notFound s := by
  simp only [Namespace.get, Store.get, Runs.bind_apply, Store.get?, view]
  cases s.table.get? (ns.key key) <;> rfl

/-! ## Scans -/

/-- The entries that a scan of the namespace gives. -/
def entries (ns : Namespace) (start : Bytes) (t : Table) : List (Bytes × Bytes) :=
  (t.scan (ns.key start)).map fun e => (e.1.drop ns.lead.length, e.2)

/-- The entries of a table that a scan reads begin with the lead. -/
theorem scan_eq_map_entries (ns : Namespace) (start : Bytes) (t : Table) :
    t.scan (ns.key start) = (ns.entries start t).map fun e => (ns.key e.1, e.2) := by
  rw [entries, List.map_map, eq_comm]
  refine (List.map_congr_left fun e he => ?_).trans (List.map_id _)
  obtain ⟨⟨rest, hrest⟩, -⟩ := Table.mem_scan.mp (show (e.1, e.2) ∈ _ from he)
  have hkey : e.1 = ns.lead ++ (start ++ rest) := by
    rw [← hrest, key, List.append_assoc]
  simp only [Function.comp, id, key]
  rw [hkey, List.drop_left, ← hkey]

theorem mem_entries {ns : Namespace} {start key value : Bytes} {t : Table} :
    (key, value) ∈ ns.entries start t ↔ start <+: key ∧ ns.view t key = some value := by
  have hmem : (key, value) ∈ ns.entries start t ↔ (ns.key key, value) ∈ t.scan (ns.key start) := by
    rw [scan_eq_map_entries, List.mem_map]
    constructor
    · exact fun h => ⟨_, h, rfl⟩
    · rintro ⟨⟨k, v⟩, h, he⟩
      cases Prod.mk.inj he with
      | intro hk hv => cases key_inj.mp hk; cases hv; exact h
  rw [hmem, Table.mem_scan, Namespace.key, Namespace.key, List.prefix_append_right_inj]
  rfl

theorem lt_of_key_lt {ns : Namespace} {k l : Bytes} : ns.key k < ns.key l ↔ k < l := by
  obtain ⟨lead⟩ := ns
  induction lead with
  | nil => rfl
  | cons a lead ih =>
    simp only [key] at ih ⊢
    rw [List.cons_append, List.cons_append, List.cons_lt_cons_iff]
    simp only [ih, true_and, false_or, UInt8.lt_irrefl]

theorem pairwise_entries (ns : Namespace) (start : Bytes) (t : Table) :
    (ns.entries start t).Pairwise fun a b => a.1 < b.1 := by
  have h := Table.pairwise_scan t (ns.key start)
  rw [scan_eq_map_entries, List.pairwise_map] at h
  exact h.imp lt_of_key_lt.mp

/-- An ascending list of the entries that the view has is what a scan gives. -/
theorem entries_eq_of_mem_iff {ns : Namespace} {start : Bytes} {t : Table}
    {list : List (Bytes × Bytes)} (hp : list.Pairwise fun a b => a.1 < b.1)
    (h : ∀ key value, (key, value) ∈ list ↔ start <+: key ∧ ns.view t key = some value) :
    ns.entries start t = list := by
  have htable : (⟨ns.entries start t, pairwise_entries ns start t⟩ : Table) = ⟨list, hp⟩ := by
    refine Table.ext_get? fun key => Option.ext fun value => ?_
    rw [← Table.mem_entries, ← Table.mem_entries]
    exact mem_entries.trans (h key value).symm
  exact congrArg Table.entries htable

/-! ## Counting -/

/-- The number of keys that a table has in a namespace. -/
def size (ns : Namespace) (t : Table) : Nat := (ns.entries [] t).length

theorem mem_keys {ns : Namespace} {t : Table} {key : Bytes} :
    key ∈ (ns.entries [] t).map (·.1) ↔ (ns.view t key).isSome := by
  rw [List.mem_map, Option.isSome_iff_exists]
  constructor
  · rintro ⟨⟨k, value⟩, h, rfl⟩
    exact ⟨value, (mem_entries.mp h).2⟩
  · rintro ⟨value, h⟩
    exact ⟨(key, value), mem_entries.mpr ⟨List.nil_prefix, h⟩, rfl⟩

theorem nodup_keys (ns : Namespace) (t : Table) : ((ns.entries [] t).map (·.1)).Nodup := by
  rw [List.Nodup, List.pairwise_map]
  refine (pairwise_entries ns [] t).imp ?_
  intro a b h he
  rw [he] at h
  exact List.lt_irrefl _ h

theorem size_pos {ns : Namespace} {t : Table} {key : Bytes} (h : (ns.view t key).isSome) :
    0 < ns.size t := by
  simpa [size] using List.length_pos_of_mem (mem_keys.mpr h)

/-- Tables with the same keys in a namespace have as many there. -/
theorem size_congr {ns : Namespace} {t t' : Table}
    (h : ∀ key, (ns.view t' key).isSome = (ns.view t key).isSome) : ns.size t' = ns.size t := by
  have hperm : ((ns.entries [] t').map (·.1)).Perm ((ns.entries [] t).map (·.1)) := by
    refine (List.perm_ext_iff_of_nodup (nodup_keys ns t') (nodup_keys ns t)).mpr fun key => ?_
    rw [mem_keys, mem_keys, h]
  simpa [size] using hperm.length_eq

theorem size_eq_zero {ns : Namespace} {t : Table} (h : ∀ key, ns.view t key = none) :
    ns.size t = 0 := by
  rw [size, List.length_eq_zero_iff, List.eq_nil_iff_forall_not_mem]
  rintro ⟨key, value⟩ hmem
  rw [mem_entries, h] at hmem
  exact nomatch hmem.2

/-- A new key is one more. -/
theorem size_of_new {ns : Namespace} {t t' : Table} {k : Bytes} (hnew : ns.view t k = none)
    (h : ∀ key, (ns.view t' key).isSome = (decide (key = k) || (ns.view t key).isSome)) :
    ns.size t' = ns.size t + 1 := by
  have hout : k ∉ (ns.entries [] t).map (·.1) := by
    rw [mem_keys, hnew]
    exact Bool.false_ne_true
  have hperm : ((ns.entries [] t').map (·.1)).Perm (k :: (ns.entries [] t).map (·.1)) := by
    refine (List.perm_ext_iff_of_nodup (nodup_keys ns t') ?_).mpr fun key => ?_
    · exact List.nodup_cons.mpr ⟨hout, nodup_keys ns t⟩
    · rw [mem_keys, h, List.mem_cons, mem_keys, Bool.or_eq_true, decide_eq_true_iff]
  simpa [size] using hperm.length_eq

theorem size_of_put {ns : Namespace} {t t' : Table} {k value : Bytes}
    (h : ∀ key, ns.view t' key = if key = k then some value else ns.view t key) :
    ns.size t' = if (ns.view t k).isSome then ns.size t else ns.size t + 1 := by
  split
  · rename_i hknown
    refine size_congr fun key => ?_
    rw [h]
    split
    · rename_i hk
      rw [hk, hknown]
      rfl
    · rfl
  · rename_i hnew
    refine size_of_new (Option.not_isSome_iff_eq_none.mp hnew) fun key => ?_
    rw [h]
    by_cases hk : key = k <;> simp [hk]

theorem size_of_erase {ns : Namespace} {t t' : Table} {k : Bytes}
    (hknown : (ns.view t k).isSome)
    (h : ∀ key, ns.view t' key = if key = k then none else ns.view t key) :
    ns.size t' + 1 = ns.size t := by
  refine (size_of_new (by rw [h, if_pos rfl]) fun key => ?_).symm
  rw [h]
  by_cases hk : key = k
  · simp [hk, hknown]
  · simp [hk]

/-! ## Namespaces apart -/

/-- No key of one namespace is a key of the other. -/
def Apart (a b : Namespace) : Prop := ∀ k l, a.key k ≠ b.key l

theorem Apart.symm {a b : Namespace} (h : a.Apart b) : b.Apart a := fun k l => (h l k).symm

/-- What lies inside a namespace is apart from what the namespace is apart from. -/
theorem Apart.nested {a b : Namespace} (h : a.Apart b) (name : Bytes) : (a.nested name).Apart b := by
  intro k l
  simp only [Namespace.nested, key, List.append_assoc]
  exact h _ l

theorem apart_of_lead_ne {a b : Namespace} (hlen : a.lead.length = b.lead.length)
    (h : a.lead ≠ b.lead) : a.Apart b :=
  fun _ _ he => h (List.append_inj_left he hlen)

/-- Names with different hashes lead to namespaces apart. -/
theorem apart_of_hash_ne {a b : Bytes} (ns : Namespace) (h : Blake3.hash a ≠ Blake3.hash b) :
    (ns.nested a).Apart (ns.nested b) := by
  refine apart_of_lead_ne ?_ fun he => h (List.append_cancel_left he)
  simp only [Namespace.nested, List.length_append, Blake3.length_hash]

/-- All keys of a batch lie in the namespace. -/
def Holds (ns : Namespace) (batch : Batch) : Prop := ∀ op ∈ batch, ∃ k, op.key = ns.key k

/-- A batch within one namespace leaves the view of another that is apart from it. -/
theorem view_apply {a b : Namespace} (hab : a.Apart b) {batch : Batch} (h : a.Holds batch)
    (t : Table) : b.view (batch.apply t) = b.view t := by
  funext l
  refine Batch.get?_apply_of_not_mem fun op hop he => ?_
  obtain ⟨k, hk⟩ := h op hop
  exact hab k l (hk.symm.trans he)

end Namespace

end WorkQueue
