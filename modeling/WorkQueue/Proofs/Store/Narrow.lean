import WorkQueue.Proofs.OrderedSet.Runs

/-!
# Stores with fewer keys

`Store.narrow own` is a store without its log, and without the keys that are not of the kind `own`.
An action that uses keys of that kind only is `Inward`: it does on the narrowed store what it does
on the whole one, so it does not see the rest.

* `Inward.reading`, `Inward.write`: reading and writing such keys;
* `inward_get?`, `inward_scan`, `inward_load`, `inward_put`, `inward_delete`, `inward_takeAll` and
  others: a namespace, and an ordered set, all of whose keys are of the kind.
-/

namespace WorkQueue

variable {α β : Type} {own : Bytes → Bool}

/-! ## Tables -/

namespace Table

/-- The entries of a table whose keys are of a kind. -/
def narrow (own : Bytes → Bool) (t : Table) : Table :=
  ⟨t.entries.filter fun e => own e.1, t.ascending.filter _⟩

theorem get?_narrow (t : Table) (key : Bytes) :
    (t.narrow own).get? key = if own key then t.get? key else none := by
  refine Option.ext fun value => ?_
  rw [← mem_entries, narrow, List.mem_filter, mem_entries]
  split <;> simp_all

/-- A scan of keys that are all of the kind. -/
theorem scan_narrow {lead : Bytes} (h : ∀ key, lead <+: key → own key = true) (t : Table) :
    (t.narrow own).scan lead = t.scan lead := by
  rw [scan_eq, scan_eq, narrow, List.filter_filter]
  refine List.filter_congr fun e _ => ?_
  cases hlead : lead.isPrefixOf e.1 with
  | false => rfl
  | true => rw [h e.1 (List.isPrefixOf_iff_prefix.mp hlead), Bool.and_self]

theorem narrow_operation {op : Operation} (h : own op.key = true) (t : Table) :
    (op.apply t).narrow own = op.apply (t.narrow own) := by
  refine ext_get? fun key => ?_
  cases op with
  | put k value =>
    rw [Operation.apply, Operation.apply, get?_narrow, get?_put, get?_put, get?_narrow]
    by_cases hk : key = k
    · subst hk
      simp only [if_true]
      exact if_pos h
    · simp only [if_neg hk]
  | delete k =>
    rw [Operation.apply, Operation.apply, get?_narrow, get?_erase, get?_erase, get?_narrow]
    by_cases hk : key = k
    · simp only [if_pos hk, ite_self]
    · simp only [if_neg hk]

theorem narrow_apply {batch : Batch} (h : ∀ op ∈ batch, own op.key = true) (t : Table) :
    (batch.apply t).narrow own = batch.apply (t.narrow own) := by
  induction batch generalizing t with
  | nil => rfl
  | cons op batch ih =>
    rw [Batch.apply_cons, Batch.apply_cons, ih fun op hop => h op (List.mem_cons_of_mem _ hop),
      narrow_operation (h op List.mem_cons_self)]

end Table

/-! ## Stores -/

namespace Store

/-- A store without its log, and without the keys that are not of a kind. -/
def narrow (own : Bytes → Bool) (s : Store) : Store :=
  ⟨s.table.narrow own, .empty, none, s.writesLeft⟩

theorem narrow_after {batch : Batch} (h : ∀ op ∈ batch, own op.key = true) (s : Store) :
    (s.after batch).narrow own = (s.narrow own).after batch := by
  have hafter : (s.narrow own).after batch =
      ⟨batch.apply (s.table.narrow own), .empty, none, s.writesLeft.map (· - 1)⟩ := rfl
  rw [hafter, narrow, table_after, writesLeft_after, Table.narrow_apply h]

end Store

/-! ## Namespaces -/

namespace Namespace

/-- All keys of a namespace are of a kind. -/
def Inside (own : Bytes → Bool) (ns : Namespace) : Prop := ∀ key, own (ns.key key) = true

variable {ns : Namespace}

theorem Inside.batch (h : ns.Inside own) {batch : Batch} (hb : ns.Holds batch) :
    ∀ op ∈ batch, own op.key = true := by
  intro op hop
  obtain ⟨k, hk⟩ := hb op hop
  rw [hk]
  exact h k

theorem view_narrow (h : ns.Inside own) (t : Table) : ns.view (t.narrow own) = ns.view t := by
  funext key
  rw [view, Table.get?_narrow, if_pos (h key), view]

theorem entries_narrow (h : ns.Inside own) (start : Bytes) (t : Table) :
    ns.entries start (t.narrow own) = ns.entries start t := by
  rw [entries, entries, Table.scan_narrow]
  rintro _ ⟨rest, rfl⟩
  rw [key, List.append_assoc]
  exact h (start ++ rest)

end Namespace

/-! ## Actions -/

/-- An action that uses keys of a kind only. -/
def Inward (own : Bytes → Bool) (x : StoreM α) : Prop :=
  Runs.Commutes (fun _ => True) (Store.narrow own) x

namespace Inward

theorem pure (a : α) : Inward own (pure a : StoreM α) := Runs.Commutes.pure a

theorem ofExcept (r : Except Error α) : Inward own (MonadExcept.ofExcept r : StoreM α) :=
  Runs.Commutes.ofExcept r

theorem bind {x : StoreM α} {g : α → StoreM β} (hx : Inward own x) (hg : ∀ a, Inward own (g a)) :
    Inward own (x >>= g) := Runs.Commutes.bind hx (fun _ _ => trivial) hg

theorem mapM {g : α → StoreM β} (hg : ∀ a, Inward own (g a)) (l : List α) :
    Inward own (l.mapM g) := by
  induction l with
  | nil => exact pure []
  | cons a rest ih =>
    rw [List.mapM_cons]
    exact (hg a).bind fun _ => ih.bind fun _ => pure _

/-- An action that tells what a table has at keys of the kind. -/
theorem reading {x : StoreM α} (read : Table → α) (hrun : ∀ s, x s = .ok (read s.table) s)
    (h : ∀ t, read (t.narrow own) = read t) : Inward own x := by
  intro s _
  rw [hrun, hrun, Store.narrow, h]
  rfl

theorem write {batch : Batch} (h : ∀ op ∈ batch, own op.key = true) :
    Inward own (Store.write batch) := by
  intro s _
  have hleft : (s.narrow own).writesLeft = s.writesLeft := rfl
  rw [Store.write_eq, Store.write_eq, hleft]
  by_cases hw : s.writesLeft = some 0
  · rw [if_pos hw, if_pos hw]
    rfl
  · rw [if_neg hw, if_neg hw, ← Store.narrow_after h]
    rfl

end Inward

namespace Namespace

variable {ns : Namespace} (h : ns.Inside own)

include h

theorem inward_get? (key : Bytes) : Inward own (ns.get? key) :=
  .reading (fun t => ns.view t key) (ns.get?_run key) fun t => congrFun (view_narrow h t) key

theorem inward_has (key : Bytes) : Inward own (ns.has key) :=
  .reading (fun t => (ns.view t key).isSome) (ns.has_run key) fun t => by
    rw [view_narrow h]

theorem inward_scan (start : Bytes) : Inward own (ns.scan start) :=
  .reading (ns.entries start) (fun _ => rfl) fun t => entries_narrow h start t

end Namespace

namespace OrderedSet

variable {set : OrderedSet}

theorem inward_load {space : Namespace} (h : space.Inside own) : Inward own (load space) := by
  intro s _
  rw [load_run, load_run, Store.narrow, stored_of_view (Namespace.view_narrow h s.table)]
  cases stored space s.table <;> rfl

variable (h : set.space.Inside own)

include h

theorem inward_memberEntries : Inward own set.memberEntries :=
  .reading (listed set.space) set.memberEntries_run fun t => Namespace.entries_narrow h _ t

theorem inward_members : Inward own set.members := (inward_memberEntries h).bind fun _ => .pure _

theorem inward_head : Inward own set.head := by
  refine (inward_members h).bind fun members => ?_
  cases members with
  | nil => exact fun _ _ => rfl
  | cons member rest => exact .pure member

theorem inward_isEmpty : Inward own set.isEmpty := (inward_members h).bind fun _ => .pure _

theorem inward_size : Inward own set.size := (inward_members h).bind fun _ => .pure _

theorem inward_put (member : Bytes) : Inward own (set.put member) := by
  refine (Namespace.inward_has h (indexKey member)).bind fun known => ?_
  cases known with
  | true => exact .pure _
  | false => exact (Inward.write (h.batch (holds_additions set member))).bind fun _ => .pure _

theorem inward_delete (member : Bytes) : Inward own (set.delete member) := by
  refine (Namespace.inward_get? h (indexKey member)).bind fun found => ?_
  cases found with
  | none => exact .pure false
  | some value =>
    refine (Inward.ofExcept (readSeq value)).bind fun seq => ?_
    exact (Inward.write (h.batch (holds_removal set seq member))).bind fun _ => .pure true

theorem inward_takeAll (convert : Bytes → Except Error α) : Inward own (set.takeAll convert) := by
  refine (inward_memberEntries h).bind fun entries => ?_
  refine (Inward.mapM (fun e => .ofExcept (convert e.2)) entries).bind fun taken => ?_
  split
  · exact .pure _
  · exact (Inward.write (h.batch (holds_removals set entries))).bind fun _ => .pure _

end OrderedSet

end WorkQueue
