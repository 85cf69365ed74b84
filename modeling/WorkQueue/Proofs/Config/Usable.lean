import WorkQueue.Config.Basic
import WorkQueue.Proofs.Metrics
import WorkQueue.Proofs.Scheduler.Lined

/-!
# Accepted configurations

What a configuration that has been accepted is good for: a scheduler is set up with its options, on
a store in memory without entries and with a registry of its own.

The capacities are those of the configuration, and the six metrics are entered under its namespace,
unless the namespace begins with a digit. Such a namespace is accepted, and no metric can have a name
that begins with it.

* `registerMetrics_of_start` and `registerMetrics_of_refused`: the metrics of both caches, by the
  first character of the namespace;
* `caches_of_load_unused`: the caches of a scheduler that has been set up;
* `loadMetered_of_check`: any configuration that is accepted.
-/

namespace WorkQueue

namespace Config

/-! ## Characters of a namespace -/

/-- Whether the namespace of the metrics begins with a digit. -/
def beginsWithDigit (c : Config) : Bool := c.metrics.namespaceName.toList.head?.any Char.isDigit

theorem isAlpha_of_isDigit {ch : Char} (h : ch.isDigit) : ch.isAlpha = false := by
  simp only [Char.isDigit, Bool.and_eq_true, decide_eq_true_eq] at h
  have hle : ch.toNat ≤ 57 := UInt32.le_iff_toNat_le.mp h.2
  delta Char.isAlpha Char.isUpper Char.isLower
  simp [UInt32.le_iff_toNat_le]
  omega

/-- A character of a namespace may begin a name, unless it is a digit. -/
theorem isStart_of_isNamespaceCharacter {ch : Char} (h : isNamespaceCharacter ch) :
    Family.isStart ch = !ch.isDigit := by
  cases hdigit : ch.isDigit with
  | false =>
    simp only [isNamespaceCharacter, Char.isAlphanum, hdigit, Bool.or_false] at h
    simp only [Family.isStart, h, Bool.true_or, Bool.not_false]
  | true =>
    have hother : ch ≠ '_' ∧ ch ≠ ':' := by
      constructor <;> rintro rfl <;> revert hdigit <;> decide
    simp [Family.isStart, isAlpha_of_isDigit hdigit, hother]

theorem isPart_of_isNamespaceCharacter {ch : Char} (h : isNamespaceCharacter ch) :
    Family.isPart ch := by
  rw [Family.isPart, isStart_of_isNamespaceCharacter h, Bool.not_or_self]

end Config

namespace Scheduler

variable {J : Type} {name : String} {first : Char} {rest : List Char}

/-! ## Metrics of both caches -/

/-- The metrics of two caches that have not been used. -/
def unusedMetrics (name : String) : CacheMetrics × CacheMetrics :=
  (.unused (name ++ "_jobs_cache"), .unused (name ++ "_dependents_cache"))

/-- The registry with these metrics and no others. -/
def unusedRegistry (name : String) : Registry :=
  ⟨(unusedMetrics name).1.families ++ (unusedMetrics name).2.families⟩

/-- The ends of the names that the metrics of both caches have. -/
def metricEndings : List String :=
  ["_jobs_cache", "_dependents_cache"].flatMap fun cache => CacheMetrics.endings.map (cache ++ ·)

theorem names_unusedRegistry (name : String) :
    (unusedRegistry name).names = metricEndings.map (name ++ ·) := by
  have hendings : ∀ cache : String, (CacheMetrics.unused (name ++ cache)).families.map (·.name) =
      (CacheMetrics.endings.map (cache ++ ·)).map (name ++ ·) := by
    intro cache
    rw [CacheMetrics.names_families, List.map_map]
    exact List.map_congr_left fun ending _ => String.append_assoc
  rw [Registry.names, unusedRegistry, List.map_append, unusedMetrics, hendings, hendings,
    ← List.map_append]
  rfl

/-- The metrics of both caches have different names, whatever these begin with. -/
theorem nodup_names_unusedRegistry (name : String) : (unusedRegistry name).names.Nodup := by
  rw [names_unusedRegistry]
  exact List.Nodup.map (fun _ _ => (String.append_right_inj name).mp) (by decide)

/-- Whether the metrics of both caches have names depends on the first character. -/
theorem isName_metric (hname : name.toList = first :: rest) (hrest : rest.all Family.isPart) :
    ∀ ending ∈ metricEndings, Family.isName (name ++ ending) = Family.isStart first := by
  have hendings : ∀ ending ∈ metricEndings, ending.toList.all Family.isPart := by decide
  exact fun ending hending => Family.isName_append hname hrest (hendings ending hending)

/-- The metrics of both caches are entered in an empty registry. -/
theorem registerMetrics_of_start (hname : name.toList = first :: rest)
    (hrest : rest.all Family.isPart) (hfirst : Family.isStart first) :
    registerMetrics name .empty = .ok (unusedMetrics name) (unusedRegistry name) := by
  have hnames : ∀ cache ∈ ["_jobs_cache", "_dependents_cache"], ∀ ending ∈ CacheMetrics.endings,
      Family.isName (name ++ cache ++ ending) := by
    intro cache hcache ending hending
    rw [String.append_assoc, isName_metric hname hrest _
      (List.mem_flatMap.mpr ⟨cache, hcache, List.mem_map_of_mem hending⟩), hfirst]
  have hnodup := nodup_names_unusedRegistry name
  rw [Registry.names, unusedRegistry, List.map_append] at hnodup
  have hjobs : CacheMetrics.register (name ++ "_jobs_cache") .empty =
      .ok (unusedMetrics name).1 ⟨(unusedMetrics name).1.families⟩ :=
    CacheMetrics.register_of_names (hnames _ (by decide)) (List.nodup_append.mp hnodup).1
  have hdependents : CacheMetrics.register (name ++ "_dependents_cache")
      ⟨(unusedMetrics name).1.families⟩ = .ok (unusedMetrics name).2 (unusedRegistry name) :=
    CacheMetrics.register_of_names (hnames _ (by decide)) hnodup
  exact (Runs.bind_of_ok hjobs).trans (Runs.bind_of_ok hdependents)

/-- The first of the metrics is refused, and none is entered. -/
theorem registerMetrics_of_refused (hname : name.toList = first :: rest)
    (hrest : rest.all Family.isPart) (hfirst : Family.isStart first = false) (r : Registry) :
    registerMetrics name r =
      .error (.metric (.invalidName (name ++ "_jobs_cache_hits_total"))) r := by
  have hwhole : name ++ "_jobs_cache" ++ "_hits_total" = name ++ "_jobs_cache_hits_total" :=
    String.append_assoc
  have hrefused : Family.isName (name ++ "_jobs_cache" ++ "_hits_total") = false := by
    rw [hwhole, isName_metric hname hrest _ (by decide), hfirst]
  have hjobs := CacheMetrics.register_of_refused hrefused r
  rw [hwhole] at hjobs
  exact Runs.bind_of_error hjobs

/-! ## Caches -/

/-- Whether caching is switched off or not, the caches of a scheduler that has been set up are empty
and have the capacities that were asked for. -/
theorem caches_of_load_unused {parse : Parser J} {options : Options} {store t : Store}
    {scheduler : Scheduler J}
    (h : load parse options (some (unusedMetrics name)) store = .ok scheduler t) :
    scheduler.jobs.cache = .new options.jobsCapacity (some (unusedMetrics name).1) ∧
      scheduler.dependents.buckets =
        .new options.dependentsCapacity (some (unusedMetrics name).2) ∧
      scheduler.jobs.caching = options.caching ∧
      scheduler.dependents.caching = options.caching := by
  obtain ⟨pending, u, -, hrunnable⟩ := Runs.bind_eq_ok.mp h
  obtain ⟨runnable, v, -, hmissing⟩ := Runs.bind_eq_ok.mp hrunnable
  obtain ⟨missing, w, -, hdone⟩ := Runs.bind_eq_ok.mp hmissing
  cases hcaching : options.caching with
  | true =>
    rw [if_pos hcaching] at hdone
    cases hdone
    exact ⟨rfl, rfl, rfl, rfl⟩
  | false =>
    -- The caches are flushed, which leaves empty ones as they are.
    rw [if_neg (by simp [hcaching])] at hdone
    cases hdone
    exact ⟨rfl, rfl, rfl, rfl⟩

end Scheduler

namespace Config

open Scheduler

variable {J : Type} {c d : Config}

/-! ## Setting up -/

/-- The options have what the configuration says if it has been accepted. -/
theorem options_of_check (h : c.check = .ok d) :
    d.options =
      ⟨c.cache.enabled, c.cache.jobs, c.cache.dependents, c.metrics.namespaceName⟩ := by
  obtain ⟨hfault, rfl⟩ := check_eq_ok_iff.mp h
  obtain ⟨hjobs, hdependents, -⟩ := fault?_eq_none_iff.mp hfault
  rw [options, Nat.max_eq_right hjobs, Nat.max_eq_right hdependents]

/-- The namespace of a configuration that has been accepted: what may begin a name does so. -/
theorem namespace_of_check (h : c.check = .ok d) :
    ∃ first rest, c.metrics.namespaceName.toList = first :: rest ∧ rest.all Family.isPart ∧
      Family.isStart first = !c.beginsWithDigit := by
  obtain ⟨-, -, -, hne, hall⟩ := fault?_eq_none_iff.mp (check_eq_ok_iff.mp h).1
  obtain ⟨first, rest, hname⟩ := List.exists_cons_of_ne_nil hne
  rw [hname] at hall
  refine ⟨first, rest, hname, List.all_eq_true.mpr fun ch hch => ?_, ?_⟩
  · exact isPart_of_isNamespaceCharacter (hall ch (List.mem_cons_of_mem _ hch))
  · rw [isStart_of_isNamespaceCharacter (hall first List.mem_cons_self), beginsWithDigit, hname]
    rfl

/-- A scheduler gets the capacities and the namespace of a configuration that has been accepted. It
can be set up on a store without entries, and its metrics are entered under the namespace. If the
namespace begins with a digit, the first of the metrics is refused, and nothing has changed. -/
theorem loadMetered_of_check (h : c.check = .ok d) (parse : Parser J) (files : FileTree) :
    d.options = ⟨c.cache.enabled, c.cache.jobs, c.cache.dependents, c.metrics.namespaceName⟩ ∧
    (c.beginsWithDigit = false → ∃ scheduler : Scheduler J,
      loadMetered parse d.options ⟨.empty, .volatile files⟩ = .ok scheduler
        ⟨unusedRegistry c.metrics.namespaceName, (Store.volatile files).after firstBatch⟩ ∧
      scheduler.jobs.cache =
        .new c.cache.jobs (some (unusedMetrics c.metrics.namespaceName).1) ∧
      scheduler.dependents.buckets =
        .new c.cache.dependents (some (unusedMetrics c.metrics.namespaceName).2) ∧
      scheduler.jobs.caching = c.cache.enabled ∧ scheduler.dependents.caching = c.cache.enabled) ∧
    (c.beginsWithDigit = true →
      loadMetered parse d.options ⟨.empty, .volatile files⟩ =
        .error (.metric (.invalidName (c.metrics.namespaceName ++ "_jobs_cache_hits_total")))
          ⟨.empty, .volatile files⟩) := by
  have hoptions := options_of_check h
  obtain ⟨first, rest, hname, hrest, hfirst⟩ := namespace_of_check h
  refine ⟨hoptions, fun hdigit => ?_, fun hdigit => ?_⟩
  · rw [hdigit] at hfirst
    have hregister := registerMetrics_of_start hname hrest hfirst
    have hempty : (Store.volatile files).table = .empty := rfl
    obtain ⟨scheduler, t, hload⟩ := load_of_empty parse hempty rfl d.options
      (some (unusedMetrics c.metrics.namespaceName))
    obtain rfl := store_of_load hempty hload
    have hcaches := caches_of_load_unused hload
    rw [hoptions] at hload hcaches ⊢
    refine ⟨scheduler, ?_, hcaches⟩
    simp only [loadMetered, hregister, LiveM.onStore, hload]
  · rw [hdigit] at hfirst
    have hregister := registerMetrics_of_refused hname hrest hfirst .empty
    rw [hoptions]
    simp only [loadMetered, hregister]

/-- The standard configuration with another namespace of the metrics. -/
def named (name : String) : Config := { standard with metrics := ⟨name⟩ }

/-- Both configurations are accepted, and only one can be used. -/
theorem loadMetered_of_check_named :
    (named "x_chain_2").check = .ok (named "x_chain_2") ∧
    (∃ scheduler, loadMetered RawJob.parse (named "x_chain_2").options
        ⟨.empty, .volatile .empty⟩ =
      .ok scheduler ⟨unusedRegistry "x_chain_2", (Store.volatile .empty).after firstBatch⟩) ∧
    (named "9lives").check = .ok (named "9lives") ∧
    loadMetered RawJob.parse (named "9lives").options ⟨.empty, .volatile .empty⟩ =
      .error (.metric (.invalidName "9lives_jobs_cache_hits_total"))
        ⟨.empty, .volatile .empty⟩ := by
  have hchain : (named "x_chain_2").check = .ok (named "x_chain_2") := by decide
  have hlives : (named "9lives").check = .ok (named "9lives") := by decide
  obtain ⟨-, hopened, -⟩ := loadMetered_of_check hchain RawJob.parse .empty
  obtain ⟨-, -, hrefused⟩ := loadMetered_of_check hlives RawJob.parse .empty
  obtain ⟨scheduler, hload, -⟩ := hopened (by decide)
  exact ⟨hchain, ⟨scheduler, hload⟩, hlives, hrefused (by decide)⟩

end Config

end WorkQueue
