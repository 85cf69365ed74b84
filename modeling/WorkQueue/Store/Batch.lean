import WorkQueue.Store.Table

/-!
# Batches

A `Batch` is a list of operations that are written together. `Batch.apply` carries them out in
order, so the last operation on a key decides.
-/

namespace WorkQueue

/-- One change of a table. -/
inductive Operation where
  | put (key value : Bytes)
  | delete (key : Bytes)
deriving DecidableEq, Repr

/-- Changes that are written together. -/
abbrev Batch := List Operation

namespace Operation

/-- The key that is changed. -/
def key : Operation → Bytes
  | put key _ => key
  | delete key => key

/-- Whether the operation sets a value. -/
def isPut : Operation → Bool
  | put _ _ => true
  | delete _ => false

/-- Carries out one change. -/
def apply (t : Table) : Operation → Table
  | put key value => t.put key value
  | delete key => t.erase key

end Operation

namespace Batch

/-- Carries out the changes one after the other. -/
def apply (batch : Batch) (t : Table) : Table := batch.foldl Operation.apply t

@[simp] theorem apply_nil (t : Table) : apply [] t = t := rfl

@[simp] theorem apply_cons (op : Operation) (batch : Batch) (t : Table) :
    apply (op :: batch) t = apply batch (op.apply t) := rfl

theorem apply_append (first second : Batch) (t : Table) :
    apply (first ++ second) t = apply second (apply first t) := List.foldl_append

/-- Keys that no operation names keep their values. -/
theorem get?_apply_of_not_mem {batch : Batch} {t : Table} {key : Bytes}
    (h : ∀ op ∈ batch, op.key ≠ key) : (apply batch t).get? key = t.get? key := by
  induction batch generalizing t with
  | nil => rfl
  | cons op batch ih =>
    have hop : key ≠ op.key := fun hk => h op List.mem_cons_self hk.symm
    rw [apply_cons, ih fun op hop => h op (List.mem_cons_of_mem _ hop)]
    cases op with
    | put k v => exact (Table.get?_put t k v key).trans (if_neg hop)
    | delete k => exact (Table.get?_erase t k key).trans (if_neg hop)

end Batch

end WorkQueue
