import WorkQueue.Proofs.Store.Views
import WorkQueue.Store.OrderedSet

/-!
# What the actions of an ordered set come to

Each action of an `OrderedSet`, run on a store with any entries: what it gives, and the one batch
it writes, if any. Nothing is supposed of the entries, which need not agree with each other.

* `put_run`, `delete_run`, `takeAll_run`: the outcomes, one after the other;
* `holds_additions`, `holds_removal`, `holds_removals`: what they write lies in the namespace;
* `steady_put`, `steady_takeAll`: the set in memory stays the one that the store holds.
-/

namespace WorkQueue

namespace Runs

/-- Converting the items of a list stops at the first that cannot be converted. -/
theorem mapM_ofExcept {ε σ α β : Type} (f : α → Except ε β) (l : List α) (s : σ) :
    (l.mapM fun a => (MonadExcept.ofExcept (f a) : EStateM ε σ β)) s =
      match l.mapM f with
      | .ok taken => .ok taken s
      | .error e => .error e s := by
  induction l with
  | nil => rfl
  | cons a l ih =>
    rw [List.mapM_cons, List.mapM_cons]
    cases ha : f a with
    | error e => rfl
    | ok b =>
      rw [bind_apply, ofExcept_ok]
      simp only
      rw [bind_apply, ih]
      cases l.mapM f <;> rfl

end Runs

namespace OrderedSet

/-! ## Batches -/

/-- What putting a new member writes. -/
def additions (set : OrderedSet) (member : Bytes) : Batch :=
  [set.space.stagePut (memberKey set.tail) member,
    set.space.stagePut (indexKey member) (BigEndian.encodeWord set.tail),
    set.space.stagePut tailKey (BigEndian.encodeWord (set.tail + 1))]

/-- What taking the member with a sequence number out writes. -/
def removal (set : OrderedSet) (seq : UInt64) (member : Bytes) : Batch :=
  [set.space.stageDelete (memberKey seq), set.space.stageDelete (indexKey member)]

/-- What taking all members out writes. -/
def removals (set : OrderedSet) (entries : List (Bytes × Bytes)) : Batch :=
  (entries.flatMap fun e => [set.space.stageDelete e.1, set.space.stageDelete (indexKey e.2)]) ++
    [set.space.stageDelete tailKey]

theorem holds_additions (set : OrderedSet) (member : Bytes) :
    set.space.Holds (set.additions member) := by
  intro op hop
  simp only [additions, List.mem_cons, List.not_mem_nil, or_false] at hop
  rcases hop with rfl | rfl | rfl <;> exact ⟨_, rfl⟩

theorem holds_removal (set : OrderedSet) (seq : UInt64) (member : Bytes) :
    set.space.Holds (set.removal seq member) := by
  intro op hop
  simp only [removal, List.mem_cons, List.not_mem_nil, or_false] at hop
  rcases hop with rfl | rfl <;> exact ⟨_, rfl⟩

theorem holds_removals (set : OrderedSet) (entries : List (Bytes × Bytes)) :
    set.space.Holds (set.removals entries) := by
  intro op hop
  rcases List.mem_append.mp hop with hop | hop
  · obtain ⟨e, -, he⟩ := List.mem_flatMap.mp hop
    simp only [List.mem_cons, List.not_mem_nil, or_false] at he
    rcases he with rfl | rfl <;> exact ⟨_, rfl⟩
  · rw [List.mem_singleton.mp hop]
    exact ⟨_, rfl⟩

/-! ## Actions -/

/-- The entries of a table that hold members, as a set sees them. -/
def listed (space : Namespace) (t : Table) : List (Bytes × Bytes) := space.entries [memberTag] t

/-- Whether a key has a sequence number in a table. -/
def indexed (space : Namespace) (t : Table) (member : Bytes) : Bool :=
  (space.view t (indexKey member)).isSome

/-- The set that a table holds in a namespace. -/
def stored (space : Namespace) (t : Table) : Except Error OrderedSet :=
  match space.view t tailKey with
  | none => .ok ⟨space, 0⟩
  | some value => (readSeq value).map (⟨space, ·⟩)

theorem load_run (space : Namespace) (s : Store) :
    load space s = (MonadExcept.ofExcept (stored space s.table) : StoreM OrderedSet) s := by
  simp only [load, stored, Runs.bind_apply, Namespace.get?_run]
  cases space.view s.table tailKey with
  | none => rfl
  | some value =>
    simp only [Runs.bind_apply]
    cases readSeq value <;> rfl

theorem space_of_stored {space : Namespace} {t : Table} {set : OrderedSet}
    (h : stored space t = .ok set) : set.space = space := by
  rw [stored] at h
  split at h
  · cases h
    rfl
  · rename_i value _
    cases hv : readSeq value with
    | error e =>
      rw [hv] at h
      cases h
    | ok tail =>
      rw [hv] at h
      cases h
      rfl

theorem stored_of_view {space : Namespace} {t t' : Table} (hv : space.view t' = space.view t) :
    stored space t' = stored space t := by
  rw [stored, stored, hv]

variable (set : OrderedSet) (s : Store)

theorem contains_run (member : Bytes) :
    set.contains member s = .ok (indexed set.space s.table member) s := rfl

theorem memberEntries_run : set.memberEntries s = .ok (listed set.space s.table) s := rfl

theorem members_run : set.members s = .ok ((listed set.space s.table).map (·.2)) s := rfl

theorem isEmpty_run : set.isEmpty s = .ok ((listed set.space s.table).map (·.2)).isEmpty s := rfl

theorem size_run : set.size s = .ok ((listed set.space s.table).map (·.2)).length s := rfl

theorem head_run :
    set.head s = match (listed set.space s.table).map (·.2) with
      | member :: _ => .ok member s
      | [] => .error .notFound s := by
  simp only [head, Runs.bind_apply, members_run]
  cases (listed set.space s.table).map (·.2) <;> rfl

theorem put_run (member : Bytes) :
    set.put member s =
      if indexed set.space s.table member then .ok (false, set) s
      else if s.writesLeft = some 0 then .error (.file .writeRefused) s
      else .ok (true, { set with tail := set.tail + 1 }) (s.after (set.additions member)) := by
  simp only [put, Runs.bind_apply, contains_run]
  split
  · rfl
  · exact Store.bind_write _ _ s

theorem delete_run (member : Bytes) :
    set.delete member s = match set.space.view s.table (indexKey member) with
      | none => .ok false s
      | some value => match readSeq value with
        | .error e => .error e s
        | .ok seq =>
          if s.writesLeft = some 0 then .error (.file .writeRefused) s
          else .ok true (s.after (set.removal seq member)) := by
  simp only [delete, Runs.bind_apply, Namespace.get?_run]
  cases set.space.view s.table (indexKey member) with
  | none => rfl
  | some value =>
    simp only [Runs.bind_apply]
    cases readSeq value with
    | error e => rfl
    | ok seq => exact Store.bind_write _ _ s

theorem takeAll_run {α : Type} (convert : Bytes → Except Error α) :
    set.takeAll convert s =
      match (listed set.space s.table).mapM fun e => convert e.2 with
      | .error e => .error e s
      | .ok taken =>
        if (listed set.space s.table).isEmpty then .ok (taken, set) s
        else if s.writesLeft = some 0 then .error (.file .writeRefused) s
        else .ok (taken, { set with tail := 0 })
          (s.after (set.removals (listed set.space s.table))) := by
  simp only [takeAll, Runs.bind_apply, memberEntries_run, Runs.mapM_ofExcept]
  cases (listed set.space s.table).mapM fun e => convert e.2 with
  | error e => rfl
  | ok taken =>
    simp only
    split
    · rfl
    · exact Store.bind_write _ _ s

/-! ## Sets in memory -/

/-- What an action makes of a set in memory is again what the table holds. It writes in the
namespace of the set only, and nothing at all if it fails. -/
structure Steady {α : Type} (action : OrderedSet → StoreM (α × OrderedSet)) : Prop where
  inside : ∀ {set set' : OrderedSet} {s t : Store} {a : α}, action set s = .ok (a, set') t →
    set'.space = set.space ∧ ∃ batch, set.space.Holds batch ∧ t.table = batch.apply s.table
  stored : ∀ {set set' : OrderedSet} {s t : Store} {a : α}, stored set.space s.table = .ok set →
    action set s = .ok (a, set') t → stored set.space t.table = .ok set'
  error : ∀ {set : OrderedSet} {s t : Store} {e : Error}, action set s = .error e t → t = s

theorem Steady.ok {α : Type} {action : OrderedSet → StoreM (α × OrderedSet)} (h : Steady action)
    {set set' : OrderedSet} {s t : Store} {a : α}
    (hs : OrderedSet.stored set.space s.table = .ok set) (ha : action set s = .ok (a, set') t) :
    OrderedSet.stored set.space t.table = .ok set' ∧
      ∃ batch, set.space.Holds batch ∧ t.table = batch.apply s.table :=
  ⟨h.stored hs ha, (h.inside ha).2⟩

theorem holds_nil (space : Namespace) : space.Holds [] := nofun

theorem stored_additions (set : OrderedSet) (member : Bytes) (t : Table) :
    stored set.space (Batch.apply (set.additions member) t) =
      .ok { set with tail := set.tail + 1 } := by
  have hview : set.space.view (Batch.apply (set.additions member) t) tailKey =
      some (BigEndian.encodeWord (set.tail + 1)) := by
    simp only [additions, Namespace.stagePut, Batch.apply_cons, Batch.apply_nil, Operation.apply,
      Namespace.view_put, if_true]
  rw [stored, hview]
  simp only [readSeq, BigEndian.decodeWord?_encodeWord, Except.map]

theorem stored_removal (set : OrderedSet) (seq : UInt64) (member : Bytes) (t : Table) :
    stored set.space (Batch.apply (set.removal seq member) t) = stored set.space t := by
  have hview : set.space.view (Batch.apply (set.removal seq member) t) tailKey =
      set.space.view t tailKey := by
    have hm : tailKey ≠ memberKey seq := by simp [tailKey, memberKey, memberTag]
    have hi : tailKey ≠ indexKey member := by simp [tailKey, indexKey, indexTag]
    simp only [removal, Namespace.stageDelete, Batch.apply_cons, Batch.apply_nil, Operation.apply,
      Namespace.view_erase, if_neg hm, if_neg hi]
  rw [stored, stored, hview]

theorem stored_removals (set : OrderedSet) (entries : List (Bytes × Bytes)) (t : Table) :
    stored set.space (Batch.apply (set.removals entries) t) = .ok { set with tail := 0 } := by
  have hview : set.space.view (Batch.apply (set.removals entries) t) tailKey = none := by
    simp only [removals, Namespace.stageDelete, Batch.apply_append, Batch.apply_cons,
      Batch.apply_nil, Operation.apply, Namespace.view_erase, if_true]
  rw [stored, hview]

theorem steady_put (member : Bytes) : Steady fun set => set.put member where
  inside := by
    intro set set' s t a h
    rw [put_run] at h
    split at h
    · cases h
      exact ⟨rfl, [], holds_nil _, rfl⟩
    · split at h
      · cases h
      · cases h
        rw [Store.table_after]
        exact ⟨rfl, _, holds_additions _ _, rfl⟩
  stored := by
    intro set set' s t a hs h
    rw [put_run] at h
    split at h
    · cases h
      exact hs
    · split at h
      · cases h
      · cases h
        rw [Store.table_after]
        exact stored_additions _ _ _
  error := by
    intro set s t e h
    rw [put_run] at h
    split at h
    · cases h
    · split at h
      · cases h
        rfl
      · cases h

/-- Taking a key out leaves the store as it was, or writes the removal of a member. -/
theorem delete_ok {set : OrderedSet} {member : Bytes} {s t : Store} {b : Bool}
    (h : set.delete member s = .ok b t) : t = s ∨ ∃ seq, t = s.after (set.removal seq member) := by
  rw [delete_run] at h
  split at h
  · cases h
    exact .inl rfl
  · split at h
    · cases h
    · split at h
      · cases h
      · cases h
        exact .inr ⟨_, rfl⟩

theorem delete_inside {set : OrderedSet} {member : Bytes} {s t : Store} {b : Bool}
    (h : set.delete member s = .ok b t) :
    ∃ batch, set.space.Holds batch ∧ t.table = batch.apply s.table := by
  rcases delete_ok h with rfl | ⟨seq, rfl⟩
  · exact ⟨[], holds_nil _, rfl⟩
  · exact ⟨_, holds_removal set seq _, Store.table_after _ _⟩

/-- Taking a key out leaves the tail as it is. -/
theorem stored_delete {set : OrderedSet} {member : Bytes} {s t : Store} {b : Bool}
    (hs : stored set.space s.table = .ok set) (h : set.delete member s = .ok b t) :
    stored set.space t.table = .ok set := by
  rcases delete_ok h with rfl | ⟨seq, rfl⟩
  · exact hs
  · rw [Store.table_after]
    exact (stored_removal set seq _ _).trans hs

theorem delete_error {set : OrderedSet} {member : Bytes} {s t : Store} {e : Error}
    (h : set.delete member s = .error e t) : t = s := by
  rw [delete_run] at h
  split at h
  · cases h
  · split at h
    · cases h
      rfl
    · split at h
      · cases h
        rfl
      · cases h

/-- What taking all members out gives, and what it leaves of the set. -/
theorem takeAll_ok {α : Type} {convert : Bytes → Except Error α} {set set' : OrderedSet}
    {s t : Store} {taken : List α} (h : set.takeAll convert s = .ok (taken, set') t) :
    ((listed set.space s.table).mapM fun e => convert e.2) = .ok taken ∧
      set'.space = set.space ∧ ∃ batch, set.space.Holds batch ∧ t.table = batch.apply s.table := by
  rw [takeAll_run] at h
  split at h
  · cases h
  · rename_i hmapM
    split at h
    · cases h
      exact ⟨hmapM, rfl, [], holds_nil _, rfl⟩
    · split at h
      · cases h
      · cases h
        rw [Store.table_after]
        exact ⟨hmapM, rfl, _, holds_removals _ _, rfl⟩

theorem steady_takeAll {α : Type} (convert : Bytes → Except Error α) :
    Steady fun set => set.takeAll convert where
  inside h := (takeAll_ok h).2
  stored := by
    intro set set' s t a hs h
    rw [takeAll_run] at h
    split at h
    · cases h
    · split at h
      · cases h
        exact hs
      · split at h
        · cases h
        · cases h
          rw [Store.table_after]
          exact stored_removals _ _ _
  error := by
    intro set s t e h
    rw [takeAll_run] at h
    split at h
    · cases h
      rfl
    · split at h
      · cases h
      · split at h
        · cases h
          rfl
        · cases h

end OrderedSet

end WorkQueue
