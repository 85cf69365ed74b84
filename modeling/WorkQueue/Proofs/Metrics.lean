import Mathlib.Data.List.Nodup
import WorkQueue.Metrics
import WorkQueue.Proofs.Runs

/-!
# Registering metrics

When the metrics of a cache can be entered in a registry, and when the registry refuses them.

* `Family.isName_append`: whether a text with a suffix is a name depends on its first character only
  if all others may follow in a name;
* `Registry.forM_register`: families with names of their own are entered, one behind the other;
* `CacheMetrics.register_of_names` and `CacheMetrics.register_of_refused`: the metrics of a cache are
  entered, or none of them is.
-/

namespace WorkQueue

namespace Family

variable {name suffix : String} {c : Char} {rest : List Char}

/-- A text with a suffix is a name if the text begins like one, provided that all characters behind
its first may follow in a name. -/
theorem isName_append (hname : name.toList = c :: rest) (hrest : rest.all isPart)
    (hsuffix : suffix.toList.all isPart) : isName (name ++ suffix) = isStart c := by
  have hparts : (rest ++ suffix.toList).all isPart := by
    rw [List.all_append, hrest, hsuffix]
    rfl
  rw [isName, String.toList_append, hname, List.cons_append]
  show (isStart c && (rest ++ suffix.toList).all isPart) = isStart c
  rw [hparts, Bool.and_true]

end Family

namespace Registry

/-- The names that are taken, in the order of registration. -/
def names (r : Registry) : List String := r.families.map (·.name)

theorem has_eq_false_iff {r : Registry} {name : String} :
    r.has name = false ↔ name ∉ r.names := by
  rw [has, names, List.any_eq_false, List.mem_map, not_exists]
  exact forall_congr' fun f => by rw [not_and, beq_iff_eq]

/-- A family whose name is taken is refused. -/
theorem register_of_mem {r : Registry} {family : Family} (h : family.name ∈ r.names) :
    register family r = .error (.metric .duplicate) r := by
  have htaken : r.has family.name = true := by
    rw [← Bool.not_eq_false, has_eq_false_iff]
    exact fun hfree => hfree h
  rw [register, if_pos htaken]

/-- Families whose names are neither taken nor the same are entered behind the others. -/
theorem forM_register {r : Registry} {families : List Family}
    (h : (r.names ++ families.map (·.name)).Nodup) :
    families.forM register r = .ok ⟨⟩ ⟨r.families ++ families⟩ := by
  induction families generalizing r with
  | nil =>
    rw [List.append_nil]
    rfl
  | cons f rest ih =>
    rw [List.map_cons, List.nodup_middle, List.nodup_cons] at h
    have hfree : r.has f.name = false :=
      has_eq_false_iff.mpr fun hmem => h.1 (List.mem_append_left _ hmem)
    have hentered : register f r = .ok ⟨⟩ ⟨r.families ++ [f]⟩ := if_neg (by simp [hfree])
    have hrest : (names ⟨r.families ++ [f]⟩ ++ rest.map (·.name)).Nodup := by
      rw [names, List.map_append, List.append_assoc, List.map_singleton, List.singleton_append,
        List.nodup_middle, List.nodup_cons]
      exact h
    rw [Runs.forM_cons_apply, hentered]
    show rest.forM register _ = _
    rw [ih hrest, List.append_assoc, List.singleton_append]

end Registry

namespace CacheMetrics

variable {name : String} {r : Registry}

/-- The metrics of a cache that has not been used. -/
def unused (name : String) : CacheMetrics := ⟨name, 0, 0, 0⟩

/-- The ends of the names that the metrics of a cache have. -/
def endings : List String := ["_hits_total", "_misses_total", "_len"]

theorem names_families (m : CacheMetrics) :
    m.families.map (·.name) = endings.map (m.name ++ ·) := rfl

theorem register_apply (name : String) (r : Registry) :
    register name r = match (unused name).families.find? fun f => !Family.isName f.name with
      | some family => .error (.metric (.invalidName family.name)) r
      | none =>
        ((unused name).families.forM Registry.register >>= fun _ => pure (unused name)) r := by
  show (match (unused name).families.find? fun f => !Family.isName f.name with
    | some family => throw (.metric (.invalidName family.name))
    | none => (unused name).families.forM Registry.register >>= fun _ => pure (unused name) :
      EStateM Error Registry CacheMetrics) r = _
  cases (unused name).families.find? fun f => !Family.isName f.name <;> rfl

/-- Metrics whose names are names of metrics are entered one after the other. -/
theorem register_eq_forM (hnames : ∀ ending ∈ endings, Family.isName (name ++ ending))
    (r : Registry) : register name r =
      ((unused name).families.forM Registry.register >>= fun _ => pure (unused name)) r := by
  have hnone : (unused name).families.find? (fun f => !Family.isName f.name) = none := by
    refine List.find?_eq_none.mpr fun f hf => ?_
    have hmem : f.name ∈ endings.map (name ++ ·) :=
      names_families (unused name) ▸ List.mem_map_of_mem hf
    obtain ⟨ending, hending, hname⟩ := List.mem_map.mp hmem
    simp [← hname, hnames ending hending]
  rw [register_apply, hnone]

/-- The metrics of a cache are entered if their names are names of metrics and are not taken. -/
theorem register_of_names (hnames : ∀ ending ∈ endings, Family.isName (name ++ ending))
    (hfree : (r.names ++ endings.map (name ++ ·)).Nodup) :
    register name r = .ok (unused name) ⟨r.families ++ (unused name).families⟩ := by
  rw [register_eq_forM hnames]
  exact Runs.bind_of_ok (Registry.forM_register hfree)

/-- No metrics are entered if the name of the first is no name of a metric. -/
theorem register_of_refused (h : Family.isName (name ++ "_hits_total") = false) (r : Registry) :
    register name r = .error (.metric (.invalidName (name ++ "_hits_total"))) r := by
  have hrefused : (!Family.isName (name ++ "_hits_total")) = true := by rw [h]; rfl
  have hfirst : (unused name).families.find? (fun f => !Family.isName f.name) =
      (unused name).families.head? := List.find?_cons_of_pos hrefused
  rw [register_apply, hfirst]
  rfl

end CacheMetrics

end WorkQueue
