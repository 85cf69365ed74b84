import WorkQueue.Error

/-!
# Metrics

A `Registry` holds families of metrics, each with a name of its own. `CacheMetrics` are three of
them that tell how a cache fares: its hits, its misses and its length. `CacheMetrics.register`
enters them one after the other, so a name that is taken leaves the ones before it registered.

The owner of the metrics keeps the numbers; `Registry.publish` shows the registry the current ones,
and `Registry.exposition` lists all families by name in the text format of the monitoring side.
-/

namespace WorkQueue

/-- Whether a number only grows. -/
inductive MetricKind where
  | counter
  | gauge
deriving DecidableEq, Repr

/-- A registered number. -/
structure Family where
  name : String
  help : String
  kind : MetricKind
  value : Nat
deriving DecidableEq, Repr

/-- The registered numbers, in the order of registration. -/
structure Registry where
  families : List Family
deriving DecidableEq, Repr

namespace MetricKind

/-- The kind in words. -/
def name : MetricKind → String
  | counter => "counter"
  | gauge => "gauge"

end MetricKind

namespace Family

/-- Whether a character may begin a name. -/
def isStart (c : Char) : Bool := c.isAlpha || c == '_' || c == ':'

/-- Whether a character may follow in a name. -/
def isPart (c : Char) : Bool := isStart c || c.isDigit

/-- Whether a text is the name of a metric: a letter, an underscore or a colon, followed by those
and digits, of the ASCII characters only. -/
def isName (name : String) : Bool :=
  match name.toList with
  | [] => false
  | c :: rest => isStart c && rest.all isPart

/-- The lines that tell the number. -/
def lines (f : Family) : List String :=
  [s!"# HELP {f.name} {f.help}", s!"# TYPE {f.name} {f.kind.name}", s!"{f.name} {f.value}"]

end Family

namespace Registry

/-- The registry without any family. -/
def empty : Registry := ⟨[]⟩

instance : Inhabited Registry := ⟨empty⟩

/-- Whether a name is taken. -/
def has (r : Registry) (name : String) : Bool := r.families.any (·.name == name)

/-- Enters a family whose name is not taken. -/
def register (family : Family) : EStateM Error Registry Unit := fun r =>
  if r.has family.name then .error (.metric .duplicate) r
  else .ok () ⟨r.families ++ [family]⟩

/-- The lines that tell all numbers, sorted by name. -/
def exposition (r : Registry) : List String :=
  (r.families.mergeSort fun f g => f.name ≤ g.name).flatMap Family.lines

end Registry

/-- How a cache fares. -/
structure CacheMetrics where
  name : String
  hits : Nat
  misses : Nat
  length : Nat
deriving DecidableEq, Repr

namespace CacheMetrics

/-- The three numbers as families. -/
def families (m : CacheMetrics) : List Family :=
  [⟨s!"{m.name}_hits_total", "Number of cache lookups served from the cache", .counter, m.hits⟩,
   ⟨s!"{m.name}_misses_total", "Number of cache lookups that fell through to the store", .counter,
    m.misses⟩,
   ⟨s!"{m.name}_len", "Number of entries currently cached", .gauge, m.length⟩]

/-- Makes the metrics of a cache with the given name and enters them. -/
def register (name : String) : EStateM Error Registry CacheMetrics := do
  let metrics : CacheMetrics := ⟨name, 0, 0, 0⟩
  match metrics.families.find? fun f => !Family.isName f.name with
  | some family => throw (.metric (.invalidName family.name))
  | none =>
    metrics.families.forM Registry.register
    return metrics

/-- Counts a look-up. -/
def record (m : CacheMetrics) (hit : Bool) : CacheMetrics :=
  if hit then { m with hits := m.hits + 1 } else { m with misses := m.misses + 1 }

/-- The metrics in words. -/
def describe (m : CacheMetrics) : String :=
  s!"CacheMetrics \x7b namespace: {Text.Quoted.text m.name}, hits: {m.hits}, " ++
    s!"misses: {m.misses}, len: {m.length} \x7d"

end CacheMetrics

namespace Registry

/-- The registry with the current numbers of a cache. -/
def publish (r : Registry) (m : CacheMetrics) : Registry :=
  ⟨r.families.map fun f => (m.families.find? fun g => g.name == f.name).getD f⟩

end Registry

end WorkQueue
