import Mathlib.Data.List.Induction
import WorkQueue.Proofs.Metrics

/-!
# One registration after the other

The metrics of a cache are entered one by one, and none is taken out again when a later one is
refused. It does not come to that: no ending of a metric's name is the ending of another one, so
metrics of two caches have the same name only if the caches have. If the first metric of a cache
can be entered, so can the others.

* `eq_of_append_eq`: a name with an ending tells both;
* `isName_ending`: all metrics of a cache have names of metrics, or none has;
* `Holds`: a registry with the metrics of caches of different names and no others. One more
  registration is `Holds.entered`, `Holds.again` or `unnamed`;
* `register_all_or_none`: any registration on a registry that was empty at first.
-/

namespace WorkQueue

namespace CacheMetrics

variable {name last : String} {calls owners : List String} {r : Registry}

/-! ## Names of metrics -/

private theorem isSuffix_endings : ∀ a ∈ endings, ∀ b ∈ endings, a.toList <:+ b.toList → a = b := by
  decide

/-- The name of a metric tells the cache that it belongs to and which of its metrics it is. -/
theorem eq_of_append_eq {a b ending ending' : String} (ha : ending ∈ endings)
    (hb : ending' ∈ endings) (h : a ++ ending = b ++ ending') : a = b ∧ ending = ending' := by
  have hlist : a.toList ++ ending.toList = b.toList ++ ending'.toList := by
    rw [← String.toList_append, ← String.toList_append, h]
  have hsame : ending = ending' := by
    rcases List.suffix_or_suffix_of_suffix (List.suffix_append a.toList ending.toList)
      (hlist ▸ List.suffix_append b.toList ending'.toList) with hs | hs
    · exact isSuffix_endings _ ha _ hb hs
    · exact (isSuffix_endings _ hb _ ha hs).symm
  subst hsame
  exact ⟨(String.append_left_inj ending).mp h, rfl⟩

/-- The metrics of caches with different names have different names. -/
theorem nodup_metricNames (h : owners.Nodup) :
    (owners.flatMap fun owner => endings.map (owner ++ ·)).Nodup := by
  rw [List.nodup_flatMap]
  constructor
  · intro owner _
    exact List.Nodup.map (fun _ _ => (String.append_right_inj owner).mp) (by decide)
  · refine h.imp fun {a b} hne => ?_
    intro metric ha hb
    obtain ⟨ending, hending, rfl⟩ := List.mem_map.mp ha
    obtain ⟨ending', hending', heq⟩ := List.mem_map.mp hb
    exact hne (eq_of_append_eq hending hending' heq.symm).1

/-- Whether the metrics of a cache have names of metrics. -/
def Named (name : String) : Prop := ∀ ending ∈ endings, Family.isName (name ++ ending)

instance (name : String) : Decidable (Named name) :=
  inferInstanceAs (Decidable (∀ ending ∈ endings, Family.isName (name ++ ending)))

/-- Behind a name, or alone, all endings are alike. -/
theorem isName_ending (name : String) : ∀ ending ∈ endings,
    Family.isName (name ++ ending) = (name == "" || Family.isName name) := by
  have hparts : ∀ ending ∈ endings, ending.toList.all Family.isPart ∧ Family.isName ending := by
    decide
  intro ending hending
  obtain ⟨hpart, halone⟩ := hparts ending hending
  cases hname : name.toList with
  | nil =>
    rw [String.toList_eq_nil_iff.mp hname, String.empty_append, halone]
    rfl
  | cons c rest =>
    have hne : (name == "") = false := by
      rw [beq_eq_false_iff_ne]
      rintro rfl
      cases hname
    rw [hne, Bool.false_or, Family.isName, Family.isName, String.toList_append, hname,
      List.cons_append]
    simp only [List.all_append, hpart, Bool.and_true]

theorem named_iff : Named name ↔ name = "" ∨ Family.isName name := by
  have hall : Named name ↔ ∀ ending ∈ endings, (name == "" || Family.isName name) = true :=
    forall₂_congr fun ending hending => by rw [isName_ending name ending hending]
  rw [hall, ← beq_iff_eq (a := name), ← Bool.or_eq_true]
  exact ⟨fun h => h "_len" (by decide), fun h _ _ => h⟩

/-! ## One registration -/

/-- A registry holds the metrics of caches with these names, no two of them the same, and no other
metrics. -/
structure Holds (r : Registry) (owners : List String) : Prop where
  families : r.families = owners.flatMap fun owner => (unused owner).families
  nodup : owners.Nodup

namespace Holds

theorem empty : Holds .empty [] := ⟨rfl, .nil⟩

theorem names (h : Holds r owners) :
    r.names = owners.flatMap fun owner => endings.map (owner ++ ·) := by
  rw [Registry.names, h.families, List.map_flatMap]
  rfl

/-- The metrics of another cache are entered behind the others. -/
theorem entered (h : Holds r owners) (hnamed : Named name) (hnew : name ∉ owners) :
    register name r = .ok (unused name) ⟨r.families ++ (unused name).families⟩ ∧
      Holds ⟨r.families ++ (unused name).families⟩ (owners ++ [name]) := by
  have hnodup : (owners ++ [name]).Nodup := by
    rw [List.nodup_append]
    refine ⟨h.nodup, List.nodup_singleton name, fun a ha b hb => ?_⟩
    rw [List.mem_singleton.mp hb]
    rintro rfl
    exact hnew ha
  have hfree : (r.names ++ endings.map (name ++ ·)).Nodup := by
    have := nodup_metricNames hnodup
    rwa [List.flatMap_append, List.flatMap_singleton, ← h.names] at this
  refine ⟨register_of_names hnamed hfree, ?_, hnodup⟩
  rw [List.flatMap_append, List.flatMap_singleton, ← h.families]

/-- The first metric of a cache that has been registered is refused, and no other one is tried. -/
theorem again (h : Holds r owners) (hnamed : Named name) (hmem : name ∈ owners) :
    register name r = .error (.metric .duplicate) r := by
  have htaken : name ++ "_hits_total" ∈ r.names := by
    rw [h.names]
    exact List.mem_flatMap.mpr ⟨name, hmem, List.mem_map_of_mem (by decide)⟩
  have hrefused : (unused name).families.forM Registry.register r =
      .error (.metric .duplicate) r := by
    obtain ⟨first, rest, hfamilies, hname⟩ : ∃ first rest,
        (unused name).families = first :: rest ∧ first.name = name ++ "_hits_total" :=
      ⟨_, _, rfl, rfl⟩
    rw [hfamilies, Runs.forM_cons_apply, Registry.register_of_mem (hname ▸ htaken)]
  rw [register_eq_forM hnamed]
  exact Runs.bind_of_error hrefused

end Holds

/-- Without names of metrics, none is entered. -/
theorem unnamed (hnamed : ¬ Named name) (r : Registry) :
    register name r = .error (.metric (.invalidName (name ++ "_hits_total"))) r := by
  refine register_of_refused ?_ r
  rw [isName_ending name _ (by decide), ← Bool.not_eq_true, Bool.or_eq_true, beq_iff_eq]
  exact fun h => hnamed (named_iff.mpr h)

/-! ## All registrations -/

/-- The registry after registrations of these names, each of which may have been refused. -/
def registerAll (calls : List String) : Registry :=
  calls.foldl (fun r name => Runs.final (register name r)) .empty

/-- A registration succeeds, after others. -/
def Succeeds (calls : List String) (name : String) : Prop :=
  ∃ metrics, Runs.outcome (register name (registerAll calls)) = .ok metrics

/-- One of the registrations was of this name and succeeded. -/
def Entered (calls : List String) (name : String) : Prop :=
  ∃ earlier later, calls = earlier ++ name :: later ∧ Succeeds earlier name

theorem not_entered_nil : ¬ Entered [] name := by
  rintro ⟨earlier, later, h, -⟩
  exact absurd h.symm (List.append_ne_nil_of_right_ne_nil _ (List.cons_ne_nil _ _))

theorem entered_concat :
    Entered (calls ++ [last]) name ↔ Entered calls name ∨ name = last ∧ Succeeds calls last := by
  constructor
  · rintro ⟨earlier, later, h, hsucceeds⟩
    rcases List.eq_nil_or_concat later with rfl | ⟨front, final, rfl⟩
    · obtain ⟨rfl, hlast⟩ := List.append_inj' h rfl
      obtain rfl := (List.singleton_inj.mp hlast).symm
      exact .inr ⟨rfl, hsucceeds⟩
    · rw [List.concat_eq_append, ← List.cons_append, ← List.append_assoc] at h
      exact .inl ⟨earlier, front, (List.append_inj' h rfl).1, hsucceeds⟩
  · rintro (⟨earlier, later, rfl, hsucceeds⟩ | ⟨rfl, hsucceeds⟩)
    · exact ⟨earlier, later ++ [last], by simp, hsucceeds⟩
    · exact ⟨calls, [], rfl, hsucceeds⟩

theorem registerAll_concat (calls : List String) (last : String) :
    registerAll (calls ++ [last]) = Runs.final (register last (registerAll calls)) := by
  rw [registerAll, List.foldl_append]
  rfl

/-- The registry holds the metrics of the caches whose registration succeeded. -/
theorem exists_holds (calls : List String) :
    ∃ owners, Holds (registerAll calls) owners ∧ ∀ name, name ∈ owners ↔ Entered calls name := by
  induction calls using List.reverseRecOn with
  | nil => exact ⟨[], .empty, fun name => ⟨nofun, fun h => absurd h not_entered_nil⟩⟩
  | append_singleton calls last ih =>
    obtain ⟨owners, hholds, howners⟩ := ih
    simp only [registerAll_concat, entered_concat, ← howners]
    by_cases hnamed : Named last
    · by_cases hmem : last ∈ owners
      · have hagain := hholds.again hnamed hmem
        rw [hagain]
        refine ⟨owners, hholds, fun name => ⟨.inl, ?_⟩⟩
        rintro (h | ⟨rfl, -⟩)
        · exact h
        · exact hmem
      · obtain ⟨hentered, hnext⟩ := hholds.entered hnamed hmem
        rw [hentered]
        have hsucceeds : Succeeds calls last := ⟨unused last, by rw [hentered]; rfl⟩
        refine ⟨owners ++ [last], hnext, fun name => ?_⟩
        rw [List.mem_append, List.mem_singleton, and_iff_left hsucceeds]
    · have hunnamed := unnamed hnamed (registerAll calls)
      rw [hunnamed]
      refine ⟨owners, hholds, fun name => ⟨.inl, ?_⟩⟩
      rintro (h | ⟨-, metrics, hmetrics⟩)
      · exact h
      · rw [hunnamed] at hmetrics
        cases hmetrics

/-- What becomes of a registration after others. -/
theorem register_outcomes (calls : List String) (name : String) :
    (Named name ∧ ¬ Entered calls name ∧ register name (registerAll calls) =
      .ok (unused name) ⟨(registerAll calls).families ++ (unused name).families⟩) ∨
    (Named name ∧ Entered calls name ∧
      register name (registerAll calls) = .error (.metric .duplicate) (registerAll calls)) ∨
    (¬ Named name ∧ register name (registerAll calls) =
      .error (.metric (.invalidName (name ++ "_hits_total"))) (registerAll calls)) := by
  obtain ⟨owners, hholds, howners⟩ := exists_holds calls
  by_cases hnamed : Named name
  · by_cases hmem : name ∈ owners
    · exact .inr (.inl ⟨hnamed, (howners name).mp hmem, hholds.again hnamed hmem⟩)
    · exact .inl ⟨hnamed, fun h => hmem ((howners name).mpr h), (hholds.entered hnamed hmem).1⟩
  · exact .inr (.inr ⟨hnamed, unnamed hnamed _⟩)

/-- **All metrics of a cache or none.** Whatever has been registered before, a registration succeeds
exactly if the metrics have names of metrics and no registration of the same cache has succeeded.
It then enters the three metrics of the cache and nothing else; a registration that fails leaves
the registry as it was. -/
theorem register_all_or_none (calls : List String) (name : String) :
    (Succeeds calls name ↔ Named name ∧ ¬ Entered calls name) ∧
    (register name (registerAll calls) =
        .ok (unused name) ⟨(registerAll calls).families ++ (unused name).families⟩ ∨
      ∃ cause, register name (registerAll calls) = .error (.metric cause) (registerAll calls)) := by
  rw [Succeeds]
  rcases register_outcomes calls name with ⟨hnamed, hnew, h⟩ | ⟨-, hentered, h⟩ | ⟨hnamed, h⟩
  · rw [h]
    exact ⟨⟨fun _ => ⟨hnamed, hnew⟩, fun _ => ⟨_, rfl⟩⟩, .inl rfl⟩
  · rw [h]
    exact ⟨⟨nofun, fun hnew => absurd hentered hnew.2⟩, .inr ⟨_, rfl⟩⟩
  · rw [h]
    exact ⟨⟨nofun, fun hnew => absurd hnew.1 hnamed⟩, .inr ⟨_, rfl⟩⟩

end CacheMetrics

end WorkQueue
