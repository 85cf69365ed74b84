import WorkQueue.Scheduler.Basic

/-!
# Configuration

A `Config` has a section for the store, the caches, the metrics and the execution of jobs, each with
default values. `Config.check` accepts a configuration exactly if the capacities and the interval
between two reports of progress are positive, and the namespace of the metrics is a word of letters,
digits and underscores. It does not look at where a digit stands: a namespace that begins with one is
accepted, and no metric can be registered under it.

* `check_eq_ok_iff`: the condition for being accepted.
-/

namespace WorkQueue

/-- How the store is kept. -/
structure StoreSettings where
  /-- The log file; without one the store is kept in memory only. -/
  path : Option String := none
  /-- Whether every change is to reach the disk before the next step. -/
  sync : Bool := false
deriving DecidableEq, Repr

/-- What the caches hold. -/
structure CacheSettings where
  enabled : Bool := true
  /-- How many jobs are remembered. -/
  jobs : Nat := 2048
  /-- Of how many jobs the dependents are remembered. -/
  dependents : Nat := 1024
deriving DecidableEq, Repr

/-- What metrics are called. -/
structure MetricsSettings where
  /-- The beginning of the names of all metrics. -/
  namespaceName : String := "bootstrap"
deriving DecidableEq, Repr

/-- How jobs are executed. -/
structure ExecutionSettings where
  /-- The number of executed jobs between two reports of progress. -/
  progressInterval : Nat := 2500
deriving DecidableEq, Repr

/-- A configuration. -/
structure Config where
  store : StoreSettings := {}
  cache : CacheSettings := {}
  metrics : MetricsSettings := {}
  execution : ExecutionSettings := {}
deriving DecidableEq, Repr

namespace Config

/-- The configuration of one who says nothing. -/
def standard : Config := {}

/-- Whether a character may stand in the namespace of the metrics. -/
def isNamespaceCharacter (c : Char) : Bool := c.isAlphanum || c == '_'

/-- What is wrong with a configuration first, if anything is. -/
def fault? (c : Config) : Option ConfigError :=
  if c.cache.jobs = 0 then some .noJobs
  else if c.cache.dependents = 0 then some .noDependents
  else if c.execution.progressInterval = 0 then some .noInterval
  else if c.metrics.namespaceName.toList = [] then some .emptyNamespace
  else
    (c.metrics.namespaceName.toList.find? fun c => !isNamespaceCharacter c).map
      (.namespaceCharacter c.metrics.namespaceName)

/-- Accepts a configuration in which `fault?` finds nothing wrong. -/
def check (c : Config) : Except ConfigError Config :=
  match c.fault? with
  | some fault => .error fault
  | none => .ok c

/-- How the scheduler is set up. A cache has room for one entry at least. -/
def options (c : Config) : Options where
  caching := c.cache.enabled
  jobsCapacity := max 1 c.cache.jobs
  dependentsCapacity := max 1 c.cache.dependents
  metricsName := c.metrics.namespaceName

theorem fault?_eq_none_iff {c : Config} :
    c.fault? = none ↔ 0 < c.cache.jobs ∧ 0 < c.cache.dependents ∧ 0 < c.execution.progressInterval ∧
      c.metrics.namespaceName.toList ≠ [] ∧
      ∀ ch ∈ c.metrics.namespaceName.toList, isNamespaceCharacter ch := by
  unfold fault?
  split
  · simp_all
  split
  · simp_all
  split
  · simp_all
  split
  · simp_all
  · simp [*, Nat.pos_iff_ne_zero]

theorem check_eq_ok_iff {c d : Config} : c.check = .ok d ↔ c.fault? = none ∧ c = d := by
  unfold check
  split <;> simp_all

end Config

end WorkQueue
