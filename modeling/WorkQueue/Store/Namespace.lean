import WorkQueue.Store.Basic

/-!
# Namespaces

A `Namespace` is the part of a store whose keys begin with `lead`. The hash of a name leads to the
namespace of that name, and further hashes to those inside it, so two namespaces overlap only if
one lies inside the other. The namespace without a lead is the whole store.

Keys given to a namespace and got from it leave out the lead. Operations made by `stagePut` and
`stageDelete` are plain operations on the store, so one batch may serve several namespaces.
-/

namespace WorkQueue

/-- The keys of a store that begin with `lead`. -/
structure Namespace where
  lead : Bytes
deriving DecidableEq, Repr

namespace Namespace

/-- The whole store. -/
def whole : Namespace := ⟨[]⟩

/-- The namespace of a name inside another. -/
def nested (ns : Namespace) (name : Bytes) : Namespace := ⟨ns.lead ++ Blake3.hash name⟩

/-- The namespace of a name in the whole store. -/
def ofName (name : Bytes) : Namespace := whole.nested name

/-- The namespace that a list of names leads to, from the outermost to the innermost. -/
def ofPath (names : List Bytes) : Namespace := names.foldl nested whole

/-- The number of names that lead to the namespace. -/
def depth (ns : Namespace) : Nat := ns.lead.length / 32

/-- The key of the store that a key of the namespace stands for. -/
def key (ns : Namespace) (key : Bytes) : Bytes := ns.lead ++ key

/-! ## Reading -/

/-- The value of a key, if it has one. -/
def get? (ns : Namespace) (key : Bytes) : StoreM (Option Bytes) := Store.get? (ns.key key)

/-- The value of a key. -/
def get (ns : Namespace) (key : Bytes) : StoreM Bytes := Store.get (ns.key key)

/-- Whether a key has a value. -/
def has (ns : Namespace) (key : Bytes) : StoreM Bool := Store.has (ns.key key)

/-- The entries whose keys begin with `start`, in ascending order. -/
def scan (ns : Namespace) (start : Bytes) : StoreM (List (Bytes × Bytes)) := do
  return (← Store.scan (ns.key start)).map fun e => (e.1.drop ns.lead.length, e.2)

/-! ## Writing -/

/-- The operation that gives a key a value. -/
def stagePut (ns : Namespace) (key value : Bytes) : Operation := .put (ns.key key) value

/-- The operation that takes a key out. -/
def stageDelete (ns : Namespace) (key : Bytes) : Operation := .delete (ns.key key)

/-- Gives a key a value. -/
def put (ns : Namespace) (key value : Bytes) : StoreM Unit := Store.put (ns.key key) value

/-- Takes a key out. -/
def delete (ns : Namespace) (key : Bytes) : StoreM Unit := Store.delete (ns.key key)

/-- The operations that take out every key, those of inner namespaces included. -/
def stageClear (ns : Namespace) : StoreM Batch := do
  return (← Store.scan ns.lead).map fun e => .delete e.1

/-- The namespace in words. -/
def describe (ns : Namespace) : String := s!"PrefixDb \x7b depth: {ns.depth}, .. \x7d"

end Namespace

end WorkQueue
