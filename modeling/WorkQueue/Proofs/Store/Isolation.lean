import WorkQueue.Proofs.OrderedSet.Runs

/-!
# Namespaces leave each other alone

A `Change` is what can be done to a store through one namespace, by itself or through an ordered
set that is kept there, and a `Reading` what can be asked.

* `apart_of_paths`: paths of which none begins with the other end in namespaces apart;
* `Change.inside`: whatever comes of a change, it has applied one batch within its namespace;
* `Reading.answer_of_view`: a reading depends on the view of its namespace only;
* `isolated`: so changes at one path are not seen at the other, a scan gives the entries of its
  namespace and no others, and clearing takes out just the keys of the namespace and of those
  inside it.
-/

namespace WorkQueue.Namespace

open OrderedSet (listed stored indexed)

/-! ## Paths -/

theorem apart_foldl {a b : Namespace} (h : a.Apart b) (names : List Bytes) :
    (names.foldl nested a).Apart b := by
  induction names generalizing a with
  | nil => exact h
  | cons name rest ih => exact ih (h.nested name)

/-- Where two paths part, the hashes of their next names keep them apart. -/
theorem apart_of_paths {p q : List Bytes} (hp : ¬ p <+: q) (hq : ¬ q <+: p)
    (hhash : ∀ a ∈ p, ∀ b ∈ q, Blake3.hash a = Blake3.hash b → a = b) (ns : Namespace) :
    (p.foldl nested ns).Apart (q.foldl nested ns) := by
  induction p generalizing q ns with
  | nil => exact absurd List.nil_prefix hp
  | cons a p ih =>
    cases q with
    | nil => exact absurd List.nil_prefix hq
    | cons b q =>
      by_cases hab : a = b
      · subst hab
        rw [List.prefix_cons_inj] at hp hq
        exact ih hp hq (fun x hx y hy => hhash x (.tail _ hx) y (.tail _ hy)) (ns.nested a)
      · have hne : Blake3.hash a ≠ Blake3.hash b := fun he =>
          hab (hhash a List.mem_cons_self b List.mem_cons_self he)
        have hleft := apart_foldl (apart_of_hash_ne ns hne) p
        exact (apart_foldl hleft.symm q).symm

/-- A path that goes on leads to a part of the namespace. -/
theorem exists_key_of_more (names more : List Bytes) (k : Bytes) :
    ∃ l, (ofPath (names ++ more)).key k = (ofPath names).key l := by
  suffices h : ∀ ns : Namespace, ∃ l, (more.foldl nested ns).key k = ns.key l by
    rw [ofPath, List.foldl_append]
    exact h _
  intro ns
  induction more generalizing ns with
  | nil => exact ⟨k, rfl⟩
  | cons name rest ih =>
    obtain ⟨l, hl⟩ := ih (ns.nested name)
    refine ⟨Blake3.hash name ++ l, hl.trans ?_⟩
    simp only [key, nested, List.append_assoc]

/-! ## Changes -/

/-- What is staged for a batch through a namespace. -/
inductive Stage where
  | put (key value : Bytes)
  | delete (key : Bytes)
  | clear
deriving DecidableEq, Repr

/-- The operations that are staged. -/
def Stage.operations (ns : Namespace) : Stage → StoreM Batch
  | put key value => return [ns.stagePut key value]
  | delete key => return [ns.stageDelete key]
  | clear => ns.stageClear

/-- What is done to a store through a namespace. An ordered set may have any tail in memory. -/
inductive Change where
  | put (key value : Bytes)
  | delete (key : Bytes)
  | commit (stages : List Stage)
  | setPut (tail : UInt64) (member : Bytes)
  | setDelete (tail : UInt64) (member : Bytes)
  | setTakeAll {α : Type} (tail : UInt64) (convert : Bytes → Except Error α)

/-- Makes a change. -/
def Change.perform (ns : Namespace) : Change → StoreM Unit
  | put key value => ns.put key value
  | delete key => ns.delete key
  | commit stages => do Store.write (← stages.mapM (Stage.operations ns)).flatten
  | setPut tail member => discard (OrderedSet.put ⟨ns, tail⟩ member)
  | setDelete tail member => discard (OrderedSet.delete ⟨ns, tail⟩ member)
  | setTakeAll tail convert => discard (OrderedSet.takeAll ⟨ns, tail⟩ convert)

/-- The store after changes one after the other, some of which may be refused. -/
def Change.session (ns : Namespace) (changes : List Change) (s : Store) : Store :=
  changes.foldl (fun s change => Runs.final (change.perform ns s)) s

theorem holds_singleton {ns : Namespace} {op : Operation} {k : Bytes} (h : op.key = ns.key k) :
    ns.Holds [op] := by
  intro op' hop
  rw [List.mem_singleton.mp hop]
  exact ⟨k, h⟩

theorem stageClear_run (ns : Namespace) (s : Store) :
    ns.stageClear s = .ok ((s.table.scan ns.lead).map fun e => .delete e.1) s := rfl

/-- Staging reads the store at most, and stages changes in the namespace only. -/
theorem Stage.operations_run (ns : Namespace) (stage : Stage) (s : Store) :
    ∃ batch, stage.operations ns s = .ok batch s ∧ ns.Holds batch := by
  cases stage with
  | put key value => exact ⟨_, rfl, holds_singleton rfl⟩
  | delete key => exact ⟨_, rfl, holds_singleton rfl⟩
  | clear =>
    refine ⟨_, stageClear_run ns s, fun op hop => ?_⟩
    obtain ⟨⟨k, value⟩, hmem, rfl⟩ := List.mem_map.mp hop
    obtain ⟨rest, hrest⟩ := (Table.mem_scan.mp hmem).1
    exact ⟨rest, hrest.symm⟩

theorem Stage.mapM_operations_run (ns : Namespace) (stages : List Stage) (s : Store) :
    ∃ batches, stages.mapM (operations ns) s = .ok batches s ∧ ns.Holds batches.flatten := by
  induction stages with
  | nil => exact ⟨[], rfl, nofun⟩
  | cons stage rest ih =>
    obtain ⟨batch, hbatch, hholds⟩ := stage.operations_run ns s
    obtain ⟨batches, hbatches, hrest⟩ := ih
    refine ⟨batch :: batches, ?_, fun op hop => ?_⟩
    · rw [List.mapM_cons, Runs.bind_of_ok hbatch, Runs.bind_of_ok hbatches]
      rfl
    · rcases List.mem_append.mp hop with hop | hop
      · exact hholds op hop
      · exact hrest op hop

/-- A write applies the batch, or nothing. -/
theorem final_write (ns : Namespace) {batch : Batch} (h : ns.Holds batch) (s : Store) :
    ∃ applied, ns.Holds applied ∧
      (Runs.final (Store.write batch s)).table = applied.apply s.table := by
  rw [Store.write_eq]
  split
  · exact ⟨[], nofun, rfl⟩
  · exact ⟨batch, h, Store.table_after s batch⟩

/-- Whatever comes of a change, it has applied one batch within its namespace. -/
theorem Change.inside (ns : Namespace) (change : Change) (s : Store) :
    ∃ batch, ns.Holds batch ∧ (Runs.final (change.perform ns s)).table = batch.apply s.table := by
  cases change with
  | put key value => exact final_write ns (holds_singleton rfl) s
  | delete key => exact final_write ns (holds_singleton rfl) s
  | commit stages =>
    obtain ⟨batches, hbatches, hholds⟩ := Stage.mapM_operations_run ns stages s
    rw [perform, Runs.bind_of_ok hbatches]
    exact final_write ns hholds s
  | setPut tail member =>
    rw [perform, Runs.discard_apply]
    cases hrun : OrderedSet.put ⟨ns, tail⟩ member s with
    | ok r t => exact ((OrderedSet.steady_put member).inside hrun).2
    | error e t => exact ⟨[], nofun, by rw [(OrderedSet.steady_put member).error hrun]; rfl⟩
  | setDelete tail member =>
    rw [perform, Runs.discard_apply]
    cases hrun : OrderedSet.delete ⟨ns, tail⟩ member s with
    | ok b t => exact OrderedSet.delete_inside hrun
    | error e t => exact ⟨[], nofun, by rw [OrderedSet.delete_error hrun]; rfl⟩
  | setTakeAll tail convert =>
    rw [perform, Runs.discard_apply]
    cases hrun : OrderedSet.takeAll ⟨ns, tail⟩ convert s with
    | ok r t => exact ((OrderedSet.steady_takeAll convert).inside hrun).2
    | error e t =>
      exact ⟨[], nofun, by rw [(OrderedSet.steady_takeAll convert).error hrun]; rfl⟩

theorem Change.view_perform {a b : Namespace} (hab : a.Apart b) (change : Change) (s : Store) :
    b.view (Runs.final (change.perform a s)).table = b.view s.table := by
  obtain ⟨batch, hholds, htable⟩ := change.inside a s
  rw [htable, view_apply hab hholds]

/-- Changes through one namespace leave the view of another that is apart from it. -/
theorem Change.view_session {a b : Namespace} (hab : a.Apart b) (changes : List Change)
    (s : Store) : b.view (session a changes s).table = b.view s.table := by
  induction changes generalizing s with
  | nil => rfl
  | cons change rest ih =>
    exact (ih (Runs.final (change.perform a s))).trans (change.view_perform hab s)

/-! ## Readings -/

/-- What is asked of a store through a namespace. -/
inductive Reading : Type → Type where
  | get (key : Bytes) : Reading Bytes
  | has (key : Bytes) : Reading Bool
  | scan (start : Bytes) : Reading (List (Bytes × Bytes))
  | setLoad : Reading OrderedSet
  | setContains (tail : UInt64) (member : Bytes) : Reading Bool
  | setHead (tail : UInt64) : Reading Bytes
  | setMembers (tail : UInt64) : Reading (List Bytes)
  | setIsEmpty (tail : UInt64) : Reading Bool
  | setSize (tail : UInt64) : Reading Nat

namespace Reading

/-- Asks it. -/
def perform {α : Type} (ns : Namespace) : Reading α → StoreM α
  | get key => ns.get key
  | has key => ns.has key
  | scan start => ns.scan start
  | setLoad => OrderedSet.load ns
  | setContains tail member => OrderedSet.contains ⟨ns, tail⟩ member
  | setHead tail => OrderedSet.head ⟨ns, tail⟩
  | setMembers tail => OrderedSet.members ⟨ns, tail⟩
  | setIsEmpty tail => OrderedSet.isEmpty ⟨ns, tail⟩
  | setSize tail => OrderedSet.size ⟨ns, tail⟩

/-- The answer, or the error. -/
def answer {α : Type} (ns : Namespace) (reading : Reading α) (s : Store) : Except Error α :=
  Runs.outcome (reading.perform ns s)

end Reading

theorem scan_run (ns : Namespace) (start : Bytes) (s : Store) :
    ns.scan start s = .ok (ns.entries start s.table) s := rfl

theorem entries_of_view {ns : Namespace} {t t' : Table} (h : ns.view t' = ns.view t)
    (start : Bytes) : ns.entries start t' = ns.entries start t :=
  entries_eq_of_mem_iff (pairwise_entries ns start t) fun key value => by rw [mem_entries, h]

/-- Stores that look alike through the namespace give the same answers. -/
theorem Reading.answer_of_view {α : Type} {ns : Namespace} {s s' : Store}
    (h : ns.view s'.table = ns.view s.table) (reading : Reading α) :
    reading.answer ns s' = reading.answer ns s := by
  have hlisted : listed ns s'.table = listed ns s.table := entries_of_view h [OrderedSet.memberTag]
  cases reading with
  | get key =>
    simp only [answer, perform, get_run, h]
    cases ns.view s.table key <;> rfl
  | has key => simp only [answer, perform, has_run, h, Runs.outcome_ok]
  | scan start => simp only [answer, perform, scan_run, entries_of_view h, Runs.outcome_ok]
  | setLoad =>
    simp only [answer, perform, OrderedSet.load_run, OrderedSet.stored_of_view h]
    cases stored ns s.table <;> rfl
  | setContains tail member => simp only [answer, perform, OrderedSet.contains_run, indexed, h, Runs.outcome_ok]
  | setHead tail =>
    simp only [answer, perform, OrderedSet.head_run, hlisted]
    cases (listed ns s.table).map (·.2) <;> rfl
  | setMembers tail => simp only [answer, perform, OrderedSet.members_run, hlisted, Runs.outcome_ok]
  | setIsEmpty tail => simp only [answer, perform, OrderedSet.isEmpty_run, hlisted, Runs.outcome_ok]
  | setSize tail => simp only [answer, perform, OrderedSet.size_run, hlisted, Runs.outcome_ok]

/-! ## Clearing -/

theorem isPut_scanned (entries : List (Bytes × Bytes)) :
    ∀ op ∈ entries.map (fun e => Operation.delete e.1), op.isPut = false := by
  intro op hop
  obtain ⟨e, -, rfl⟩ := List.mem_map.mp hop
  rfl

/-- The table without the keys that begin with the lead of a namespace. -/
theorem entries_apply_cleared (ns : Namespace) (t : Table) :
    (Batch.apply ((t.scan ns.lead).map fun e => .delete e.1) t).entries =
      t.entries.filter fun e => !ns.lead.isPrefixOf e.1 := by
  have htable : Batch.apply ((t.scan ns.lead).map fun e => .delete e.1) t =
      ⟨t.entries.filter fun e => !ns.lead.isPrefixOf e.1, t.ascending.filter _⟩ := by
    refine Table.ext_get? fun key => Option.ext fun value => ?_
    rw [Batch.get?_apply_deletes (isPut_scanned _), ← Table.mem_entries, List.mem_filter,
      Table.mem_entries, List.map_map]
    simp only [Bool.not_eq_true', ← Bool.not_eq_true, List.isPrefixOf_iff_prefix]
    split
    · rename_i hmem
      obtain ⟨⟨k, v⟩, hscan, rfl⟩ := List.mem_map.mp hmem
      exact ⟨nofun, fun h => absurd (Table.mem_scan.mp hscan).1 h.2⟩
    · rename_i hout
      refine ⟨fun hget => ⟨hget, fun hlead => hout ?_⟩, And.left⟩
      exact List.mem_map.mpr ⟨(key, value), Table.mem_scan.mpr ⟨hlead, hget⟩, rfl⟩
  rw [htable]

/-- A key of the namespace has no value once the others are all that is left. -/
theorem view_of_entries_filter {ns : Namespace} {t t' : Table}
    (h : t'.entries = t.entries.filter fun e => !ns.lead.isPrefixOf e.1) (k : Bytes) :
    t'.get? (ns.key k) = none := by
  refine Option.eq_none_iff_forall_ne_some.mpr fun value hget => ?_
  rw [← Table.mem_entries, h, List.mem_filter, Bool.not_eq_true', ← Bool.not_eq_true,
    List.isPrefixOf_iff_prefix] at hget
  exact hget.2 (List.prefix_append ns.lead k)

/-! ## Isolation -/

/-- Of two paths of names with hashes of their own, none of which begins with the other, no change
through one is seen through the other. A scan gives, in ascending order and without the lead, the
entries whose keys begin with the lead and what was asked for. Clearing, unless the write is
refused, leaves the entries that do not begin with the lead, which are those outside the namespace
and all that lie inside it, and stages as many operations as there are others. -/
theorem isolated :
    (∀ p q : List Bytes, ¬ p <+: q → ¬ q <+: p →
      (∀ a ∈ p ++ q, ∀ b ∈ p ++ q, Blake3.hash a = Blake3.hash b → a = b) →
      ∀ (changes : List Change) (s : Store) (α : Type) (reading : Reading α),
        reading.answer (ofPath q) (Change.session (ofPath p) changes s) =
          reading.answer (ofPath q) s) ∧
    (∀ (names : List Bytes) (start : Bytes) (s : Store), ∃ found,
      (ofPath names).scan start s = .ok found s ∧
      found.Pairwise (fun a b => a.1 < b.1) ∧
      (found.map fun e => ((ofPath names).key e.1, e.2)) =
        s.table.entries.filter fun e => ((ofPath names).key start).isPrefixOf e.1) ∧
    ∀ (names : List Bytes) (s : Store), ∃ staged,
      (ofPath names).stageClear s = .ok staged s ∧
      staged.length =
        (s.table.entries.filter fun e => (ofPath names).lead.isPrefixOf e.1).length ∧
      (s.writesLeft ≠ some 0 → ∃ t,
        Store.write staged s = .ok () t ∧
        t.table.entries = (s.table.entries.filter fun e => !(ofPath names).lead.isPrefixOf e.1) ∧
        ∀ more key, t.table.get? ((ofPath (names ++ more)).key key) = none) := by
  refine ⟨fun p q hp hq hhash changes s α reading => ?_, fun names start s => ?_,
    fun names s => ?_⟩
  · have hapart : (ofPath p).Apart (ofPath q) :=
      apart_of_paths hp hq (fun a ha b hb => hhash a (List.mem_append_left q ha) b
        (List.mem_append_right p hb)) whole
    exact reading.answer_of_view (Change.view_session hapart changes s)
  · refine ⟨_, scan_run _ start s, pairwise_entries _ start s.table, ?_⟩
    rw [← scan_eq_map_entries, Table.scan_eq]
  · refine ⟨_, stageClear_run _ s, by rw [List.length_map, Table.scan_eq], fun hw => ?_⟩
    have hentries := entries_apply_cleared (ofPath names) s.table
    refine ⟨_, Store.write_ok hw _, by rw [Store.table_after, hentries], fun more k => ?_⟩
    obtain ⟨l, hl⟩ := exists_key_of_more names more k
    rw [Store.table_after, hl]
    exact view_of_entries_filter hentries l

/-- Two names that begin alike, and one beside the second. -/
def innerPath : List Bytes := [[0], [1]]

def sidePath : List Bytes := [[0], [2], [3]]

/-- A store with one entry at the side path, which refuses writes after two. -/
def sideStore : Store :=
  ⟨Table.empty.put ((ofPath sidePath).key [5]) [6], .empty, none, some 2⟩

/-- At the inner path a set is filled, the rest is cleared, and the third write is refused: the entry
at the side path is read as before. Clearing the side path takes it out. -/
theorem isolated_sidePath :
    ¬ innerPath <+: sidePath ∧ ¬ sidePath <+: innerPath ∧
      (∀ a ∈ innerPath ++ sidePath, ∀ b ∈ innerPath ++ sidePath,
        Blake3.hash a = Blake3.hash b → a = b) ∧
      (Reading.get [5]).answer (ofPath sidePath) (Change.session (ofPath innerPath)
        [.setPut 0 [7], .commit [.clear, .put [5] [8]], .delete [5]] sideStore) = .ok [6] ∧
      ∃ staged t, (ofPath sidePath).stageClear sideStore = .ok staged sideStore ∧
        staged.length = 1 ∧ Store.write staged sideStore = .ok () t ∧ t.table.entries = [] := by
  have hp : ¬ innerPath <+: sidePath := by decide
  have hq : ¬ sidePath <+: innerPath := by decide
  have hhash : ∀ a ∈ innerPath ++ sidePath, ∀ b ∈ innerPath ++ sidePath,
      Blake3.hash a = Blake3.hash b → a = b := by decide +kernel
  have hentries : sideStore.table.entries = [((ofPath sidePath).key [5], [6])] := rfl
  have hlead : (ofPath sidePath).lead.isPrefixOf ((ofPath sidePath).key [5]) = true :=
    List.isPrefixOf_iff_prefix.mpr (List.prefix_append _ [5])
  obtain ⟨hapart, -, hclear⟩ := isolated
  refine ⟨hp, hq, hhash, ?_, ?_⟩
  · rw [hapart innerPath sidePath hp hq hhash]
    simp only [Reading.answer, Reading.perform, get_run, view, sideStore, Table.get?_put, if_true,
      Runs.outcome_ok]
  · obtain ⟨staged, hstaged, hlength, hwrite⟩ := hclear sidePath sideStore
    obtain ⟨t, ht, hleft, -⟩ := hwrite (by decide)
    rw [hentries] at hlength hleft
    refine ⟨staged, t, hstaged, ?_, ht, ?_⟩
    · simpa [hlead] using hlength
    · simpa [hlead] using hleft

end WorkQueue.Namespace
