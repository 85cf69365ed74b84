import Mathlib.Data.List.Induction
import Mathlib.Data.List.Nodup
import WorkQueue.Proofs.Cache
import WorkQueue.Proofs.Metrics

/-!
# Larger caches

Two caches of different capacities that are used in the same way: the larger one finds all that the
smaller one finds (`run_includes`), so it has as many hits at least.

The order in which the entries were used last need not be the same in both, since a look-up may find
its value in the larger one only. What stays is that the entries of the smaller one are among those
of the larger one in the same order (`Includes.sublist`), and that the larger one has more of them
only as far as it has more room (`Includes.room`). So when an entry of the larger one has to go, the
smaller one is full as well, and if it has this entry, it is its last one too.

* `Use.perform`: a use of a cache, and `run`: one use after the other;
* `metrics_perform`: what the metrics come to know of a use;
* `Includes.perform`: a use keeps one cache inside the other;
* `Unused.tallied`: the metrics have counted every look-up, and know the length.
-/

namespace WorkQueue

namespace CacheMetrics

theorem hits_record (m : CacheMetrics) (hit : Bool) :
    (m.record hit).hits = m.hits + hit.toNat := by
  cases hit <;> rfl

theorem lookups_record (m : CacheMetrics) (hit : Bool) :
    (m.record hit).hits + (m.record hit).misses = m.hits + m.misses + 1 := by
  cases hit
  · rfl
  · exact Nat.add_right_comm m.hits 1 m.misses

theorem length_record (m : CacheMetrics) (hit : Bool) : (m.record hit).length = m.length := by
  cases hit <;> rfl

end CacheMetrics

namespace Cache

variable {α β : Type}

/-- A use of a cache. -/
inductive Use (α β : Type) where
  | get (key : α)
  /-- Looks a value up and changes it where it is found. -/
  | modify (key : α) (update : β → β)
  | contains (key : α)
  | put (key : α) (value : β)
  | remove (key : α)
  | flush

namespace Use

/-- Whether a use is a look-up that the metrics count. -/
def isLookup : Use α β → Bool
  | get _ | modify _ _ => true
  | _ => false

/-- Whether a use is a change that the metrics are told of. -/
def isChange : Use α β → Bool
  | put _ _ | remove _ | flush => true
  | _ => false

variable [DecidableEq α]

/-- The value that a look-up finds. -/
def found (c : Cache α β) : Use α β → Option β
  | get key | modify key _ => (c.get key).1
  | _ => none

/-- The cache after a use. -/
def perform (c : Cache α β) : Use α β → Cache α β
  | get key => (c.get key).2
  | modify key update =>
    (c.get key).1.elim (c.get key).2 fun value => (c.get key).2.revise key (update value)
  | contains _ => c
  | put key value => c.put key value
  | remove key => c.remove key
  | flush => c.flush

end Use

variable [DecidableEq α]

/-- The cache after some uses, one after the other. -/
def run (c : Cache α β) (uses : List (Use α β)) : Cache α β := uses.foldl Use.perform c

/-- There are no entries, and no look-up has been counted. -/
structure Unused (c : Cache α β) : Prop where
  entries : c.entries = []
  hits : ∀ m ∈ c.metrics, m.hits = 0
  misses : ∀ m ∈ c.metrics, m.misses = 0

omit [DecidableEq α] in
theorem unused_new (capacity : Nat) (name : String) :
    (new capacity (some (.unused name)) : Cache α β).Unused := by
  refine ⟨rfl, fun m hm => ?_, fun m hm => ?_⟩
  all_goals
    cases hm
    rfl

/-! ## Entries -/

section Entries

variable {c : Cache α β} {key : α} {value : β}

theorem entries_get_of_found (h : c.find? key = some value) :
    (c.get key).2.entries = (key, value) :: c.others key := by
  rw [get, h]

theorem entries_get_of_missed (h : c.find? key = none) : (c.get key).2.entries = c.entries := by
  rw [get, h]

theorem others_of_absent (h : key ∉ c.keys) : c.others key = c.entries := by
  refine List.filter_eq_self.mpr fun e he => bne_iff_ne.mpr ?_
  rintro rfl
  exact h (List.mem_map_of_mem he)

theorem revise_of_absent (h : key ∉ c.keys) : c.revise key value = c := by
  have hentries : (c.entries.map fun e => if e.1 = key then (key, value) else e) = c.entries := by
    conv_rhs => rw [← List.map_id c.entries]
    refine List.map_congr_left fun e he => if_neg ?_
    rintro rfl
    exact h (List.mem_map_of_mem he)
  rw [revise, hentries]

theorem keys_revise : (c.revise key value).keys = c.keys := by
  rw [keys, revise, List.map_map]
  refine List.map_congr_left fun e _ => ?_
  by_cases he : e.1 = key <;> simp [he]

theorem keys_others : (c.others key).map (·.1) = c.keys.filter (· != key) := by
  rw [keys, List.filter_map]
  rfl

theorem length_others_of_absent (h : key ∉ c.keys) : (c.others key).length = c.size := by
  rw [others_of_absent h, size]

theorem length_others_of_present (h : c.keys.Nodup) (hkey : key ∈ c.keys) :
    (c.others key).length + 1 = c.size := by
  have hpos := List.length_pos_of_mem hkey
  have hlength : (c.others key).length = c.keys.length - 1 := by
    rw [← List.length_map (·.1), keys_others, ← h.erase_eq_filter, List.length_erase_of_mem hkey]
  have hsize : c.keys.length = c.size := List.length_map _
  omega

theorem length_others_le (c : Cache α β) (key : α) : (c.others key).length ≤ c.size :=
  List.length_filter_le _ _

theorem size_put : (c.put key value).size = min c.capacity ((c.others key).length + 1) :=
  List.length_take

/-- A full cache into which a new key is put drops its last entry. -/
theorem entries_put_of_full (hfull : (c.others key).length = c.capacity) :
    (c.put key value).entries = ((key, value) :: c.others key).dropLast := by
  rw [List.dropLast_eq_take, List.length_cons, hfull]
  rfl

omit [DecidableEq α] in
theorem dropLast_sublist {entries entries' : List (α × β)} (h : entries.Sublist entries') :
    entries.dropLast.Sublist entries'.dropLast := by
  have htail := h.reverse.tail
  rwa [List.tail_reverse, List.tail_reverse, List.reverse_sublist] at htail

end Entries

/-! ## One cache -/

/-- Each key has one entry, and there are no more entries than there is room. -/
structure Valid (c : Cache α β) : Prop where
  nodup : c.keys.Nodup
  size_le : c.size ≤ c.capacity

section Valid

variable {c : Cache α β} {key : α} {value : β}

omit [DecidableEq α] in
theorem Unused.valid (h : c.Unused) : c.Valid := by
  refine ⟨?_, ?_⟩
  · rw [keys, h.entries]
    exact .nil
  · rw [size, h.entries]
    exact Nat.zero_le _

namespace Valid

/-- The entry that is put in front is the only one of its key. -/
theorem nodup_front (h : c.Valid) : (((key, value) :: c.others key).map (·.1)).Nodup := by
  rw [List.map_cons, keys_others]
  exact List.nodup_cons.mpr ⟨by simp, h.nodup.filter _⟩

theorem size_get (h : c.Valid) (key : α) : (c.get key).2.size = c.size := by
  cases hf : c.find? key with
  | none => rw [size, entries_get_of_missed hf, size]
  | some value =>
    have hkey : key ∈ c.keys := isSome_find?_iff.mp (by rw [hf]; rfl)
    rw [size, entries_get_of_found hf, List.length_cons, length_others_of_present h.nodup hkey]

theorem get (h : c.Valid) (key : α) : (c.get key).2.Valid := by
  refine ⟨?_, ?_⟩
  · cases hf : c.find? key with
    | none =>
      rw [keys, entries_get_of_missed hf]
      exact h.nodup
    | some value =>
      rw [keys, entries_get_of_found hf]
      exact h.nodup_front
  · rw [h.size_get, capacity_get]
    exact h.size_le

theorem revise (h : c.Valid) (key : α) (value : β) : (c.revise key value).Valid :=
  ⟨by rw [keys_revise]; exact h.nodup, Nat.le_trans (Nat.le_of_eq (List.length_map _)) h.size_le⟩

theorem put (h : c.Valid) (key : α) (value : β) : (c.put key value).Valid := by
  refine ⟨?_, c.size_put_le key value⟩
  have hsub := (List.take_sublist c.capacity ((key, value) :: c.others key)).map (·.1)
  exact h.nodup_front.sublist hsub

theorem remove (h : c.Valid) (key : α) : (c.remove key).Valid := by
  have hsub : (c.remove key).entries.Sublist c.entries := List.filter_sublist
  exact ⟨h.nodup.sublist (hsub.map _), Nat.le_trans hsub.length_le h.size_le⟩

omit [DecidableEq α] in
theorem flush (c : Cache α β) : c.flush.Valid := ⟨.nil, Nat.zero_le _⟩

/-- Every use leaves a cache valid. -/
theorem perform (h : c.Valid) (use : Use α β) : (use.perform c).Valid := by
  cases use with
  | get key => exact h.get key
  | modify key update =>
    rw [Use.perform]
    cases (c.get key).1 with
    | some value => exact (h.get key).revise key (update value)
    | none => exact h.get key
  | contains key => exact h
  | put key value => exact h.put key value
  | remove key => exact h.remove key
  | flush => exact flush c

end Valid

end Valid

/-! ## Two caches -/

/-- The larger cache has the entries of the smaller one in the same order of use, and has more of
them only as far as it has more room. -/
structure Includes (small large : Cache α β) : Prop where
  small_valid : small.Valid
  large_valid : large.Valid
  sublist : small.entries.Sublist large.entries
  room : large.size + small.capacity ≤ small.size + large.capacity

section Includes

variable {small large : Cache α β} {key : α} {value : β}

omit [DecidableEq α] in
theorem Unused.includes (hsmall : small.Unused) (hlarge : large.Unused)
    (hle : small.capacity ≤ large.capacity) : small.Includes large := by
  refine ⟨hsmall.valid, hlarge.valid, ?_, ?_⟩
  · rw [hsmall.entries]
    exact List.nil_sublist _
  · rw [size, size, hsmall.entries, hlarge.entries]
    exact Nat.add_le_add_left hle 0

namespace Includes

/-- What the smaller cache finds, the larger one finds. -/
theorem find? (h : small.Includes large) (hf : small.find? key = some value) :
    large.find? key = some value := by
  obtain ⟨before, behind, hentries, -⟩ := List.lookup_eq_some_iff.mp hf
  have hmem : (key, value) ∈ large.entries := h.sublist.subset (by simp [hentries])
  obtain ⟨before, behind, hentries⟩ := List.append_of_mem hmem
  have hnodup := h.large_valid.nodup
  rw [keys, hentries, List.map_append, List.map_cons, List.nodup_middle, List.nodup_cons] at hnodup
  refine List.lookup_eq_some_iff.mpr ⟨before, behind, hentries, fun e he => bne_iff_ne.mpr ?_⟩
  rintro rfl
  exact hnodup.1 (List.mem_append_left _ (List.mem_map.mpr ⟨e, he, rfl⟩))

omit [DecidableEq α] in
theorem keys_subset (h : small.Includes large) (hkey : key ∈ small.keys) : key ∈ large.keys :=
  (h.sublist.map (·.1)).subset hkey

/-- An entry is put in front in both caches. -/
theorem sublist_front (h : small.Includes large) (key : α) (value : β) :
    ((key, value) :: small.others key).Sublist ((key, value) :: large.others key) :=
  (h.sublist.filter _).cons_cons _

theorem get (h : small.Includes large) (key : α) :
    (small.get key).2.Includes (large.get key).2 := by
  refine ⟨h.small_valid.get key, h.large_valid.get key, ?_, ?_⟩
  · cases hs : small.find? key with
    | some value =>
      rw [entries_get_of_found hs, entries_get_of_found (h.find? hs)]
      exact h.sublist_front key value
    | none =>
      rw [entries_get_of_missed hs]
      cases hl : large.find? key with
      | none =>
        rw [entries_get_of_missed hl]
        exact h.sublist
      | some value =>
        -- The entry comes to the front of the larger cache, and the smaller one has none.
        rw [entries_get_of_found hl, ← others_of_absent (find?_eq_none_iff.mp hs)]
        exact (h.sublist.filter _).cons _
  · rw [h.small_valid.size_get, h.large_valid.size_get, capacity_get, capacity_get]
    exact h.room

theorem revise (h : small.Includes large) (key : α) (value : β) :
    (small.revise key value).Includes (large.revise key value) := by
  refine ⟨h.small_valid.revise key value, h.large_valid.revise key value, h.sublist.map _, ?_⟩
  have hroom := h.room
  simpa only [Cache.revise, size, List.length_map] using hroom

/-- The larger cache has no more other entries either than it has more room. -/
theorem room_others (h : small.Includes large) (key : α) :
    (large.others key).length + small.capacity ≤ (small.others key).length + large.capacity := by
  have hroom := h.room
  by_cases hkey : key ∈ large.keys
  · have hlarge := length_others_of_present h.large_valid.nodup hkey
    by_cases hkey' : key ∈ small.keys
    · have hsmall := length_others_of_present h.small_valid.nodup hkey'
      omega
    · have hsmall := length_others_of_absent hkey'
      omega
  · have hlarge := length_others_of_absent hkey
    have hsmall := length_others_of_absent fun hkey' => hkey (h.keys_subset hkey')
    omega

theorem put (h : small.Includes large) (key : α) (value : β) :
    (small.put key value).Includes (large.put key value) := by
  have hroom := h.room_others key
  have hsmall := Nat.le_trans (small.length_others_le key) h.small_valid.size_le
  have hlarge := Nat.le_trans (large.length_others_le key) h.large_valid.size_le
  refine ⟨h.small_valid.put key value, h.large_valid.put key value, ?_, ?_⟩
  · rcases Nat.lt_or_eq_of_le hlarge with hfree | hfull
    · -- The larger cache drops no entry.
      have hall : (large.put key value).entries = (key, value) :: large.others key :=
        List.take_of_length_le (by rw [List.length_cons]; omega)
      rw [hall]
      exact (List.take_sublist _ _).trans (h.sublist_front key value)
    · -- Both caches are full without the key, and each of them drops its last entry.
      rw [entries_put_of_full (c := small) (by omega), entries_put_of_full hfull]
      exact dropLast_sublist (h.sublist_front key value)
  · rw [size_put, size_put]
    show min large.capacity _ + small.capacity ≤ min small.capacity _ + large.capacity
    omega

theorem remove (h : small.Includes large) (key : α) :
    (small.remove key).Includes (large.remove key) :=
  ⟨h.small_valid.remove key, h.large_valid.remove key, h.sublist.filter _, h.room_others key⟩

omit [DecidableEq α] in
theorem flush (h : small.Includes large) : small.flush.Includes large.flush := by
  refine ⟨.flush small, .flush large, List.nil_sublist _, ?_⟩
  have hroom := h.room
  have hsize := h.sublist.length_le
  show 0 + small.capacity ≤ 0 + large.capacity
  rw [size, size] at hroom
  omega

/-- A use keeps one cache inside the other. -/
theorem perform (h : small.Includes large) (use : Use α β) :
    (use.perform small).Includes (use.perform large) := by
  cases use with
  | get key => exact h.get key
  | modify key update =>
    have hget := h.get key
    rw [Use.perform, Use.perform, get_fst, get_fst]
    cases hs : small.find? key with
    | some value =>
      rw [h.find? hs]
      exact hget.revise key (update value)
    | none =>
      cases hl : large.find? key with
      | none => exact hget
      | some value =>
        have habsent : key ∉ (small.get key).2.keys := by
          rw [keys, entries_get_of_missed hs]
          exact find?_eq_none_iff.mp hs
        have hrevise := hget.revise key (update value)
        rwa [revise_of_absent habsent] at hrevise
  | contains key => exact h
  | put key value => exact h.put key value
  | remove key => exact h.remove key
  | flush => exact h.flush

theorem run (h : small.Includes large) (uses : List (Use α β)) :
    (small.run uses).Includes (large.run uses) := by
  induction uses generalizing small large with
  | nil => exact h
  | cons use rest ih => exact ih (h.perform use)

/-- What a look-up finds in the smaller cache, it finds in the larger one. -/
theorem found (h : small.Includes large) {use : Use α β} (hf : use.found small = some value) :
    use.found large = some value := by
  cases use with
  | get key | modify key update =>
    rw [Use.found, get_fst] at hf ⊢
    exact h.find? hf
  | contains | put | remove | flush => cases hf

end Includes

end Includes

/-! ## Metrics -/

section Metrics

variable {c small large : Cache α β}

/-- What the metrics come to know of a use. -/
theorem metrics_perform (c : Cache α β) (use : Use α β) :
    (use.perform c).metrics = c.metrics.map fun m =>
      if use.isLookup then m.record (use.found c).isSome
      else if use.isChange then { m with length := (use.perform c).size }
      else m := by
  have hget : ∀ key, (c.get key).2.metrics = c.metrics.map (·.record (c.get key).1.isSome) := by
    intro key
    rw [get_fst, get]
    cases c.find? key <;> rfl
  cases use with
  | get key => exact hget key
  | modify key update =>
    have hsame : ∀ found : Option β, (found.elim (c.get key).2 fun value =>
        (c.get key).2.revise key (update value)).metrics = (c.get key).2.metrics := by
      intro found
      cases found <;> rfl
    exact (hsame _).trans (hget key)
  | contains key => exact Option.map_id'.symm
  | put key value => rfl
  | remove key => rfl
  | flush => rfl

omit [DecidableEq α] in
theorem Use.not_isLookup {use : Use α β} (h : use.isChange) : ¬ use.isLookup := by
  cases use with
  | get | modify | contains => cases h
  | put | remove | flush => exact Bool.false_ne_true

/-- What is no change leaves the number of entries. -/
theorem Valid.size_perform (h : c.Valid) {use : Use α β} (huse : ¬ use.isChange) :
    (use.perform c).size = c.size := by
  cases use with
  | get key => exact h.size_get key
  | modify key update =>
    have hsame : ∀ found : Option β, (found.elim (c.get key).2 fun value =>
        (c.get key).2.revise key (update value)).size = (c.get key).2.size := by
      intro found
      cases found with
      | none => rfl
      | some value => exact List.length_map _
    exact (hsame _).trans (h.size_get key)
  | contains key => rfl
  | put | remove | flush => exact absurd rfl huse

/-- The metrics of a cache have counted each look-up among its uses, and know its length if it has
been changed. -/
structure Tallied (uses : List (Use α β)) (before after : Cache α β) : Prop where
  metered : after.metrics.isSome = before.metrics.isSome
  lookups : ∀ m ∈ after.metrics, m.hits + m.misses = uses.countP Use.isLookup
  length : ∀ m ∈ after.metrics, uses.any Use.isChange → m.length = after.size

theorem Valid.run (h : c.Valid) (uses : List (Use α β)) : (c.run uses).Valid := by
  induction uses generalizing c with
  | nil => exact h
  | cons use rest ih => exact ih (h.perform use)

theorem run_concat (c : Cache α β) (uses : List (Use α β)) (use : Use α β) :
    c.run (uses ++ [use]) = use.perform (c.run uses) := List.foldl_append ..

theorem capacity_perform (c : Cache α β) (use : Use α β) :
    (use.perform c).capacity = c.capacity := by
  cases use with
  | get key => exact c.capacity_get key
  | modify key update =>
    rw [Use.perform]
    cases (c.get key).1 <;> exact c.capacity_get key
  | contains | put | remove | flush => rfl

theorem capacity_run (c : Cache α β) (uses : List (Use α β)) :
    (c.run uses).capacity = c.capacity := by
  induction uses generalizing c with
  | nil => rfl
  | cons use rest ih => exact (ih _).trans (c.capacity_perform use)

theorem Unused.tallied (h : c.Unused) (uses : List (Use α β)) : Tallied uses c (c.run uses) := by
  induction uses using List.reverseRecOn with
  | nil => exact ⟨rfl, fun m hm => by rw [h.hits m hm, h.misses m hm]; rfl, nofun⟩
  | append_singleton uses use ih =>
    have hmetrics := metrics_perform (c.run uses) use
    rw [run_concat]
    refine ⟨by rw [hmetrics, Option.isSome_map, ih.metered], fun m hm => ?_, fun m hm hany => ?_⟩
    · rw [hmetrics] at hm
      obtain ⟨before, hbefore, rfl⟩ := Option.map_eq_some_iff.mp hm
      have hlookups := ih.lookups before hbefore
      rw [List.countP_append, List.countP_singleton]
      by_cases hlookup : use.isLookup
      · rw [if_pos hlookup, if_pos hlookup, CacheMetrics.lookups_record, hlookups]
      · rw [if_neg hlookup, if_neg hlookup, ← hlookups]
        split <;> rfl
    · rw [hmetrics] at hm
      obtain ⟨before, hbefore, rfl⟩ := Option.map_eq_some_iff.mp hm
      rw [List.any_append, List.any_cons, List.any_nil, Bool.or_false, Bool.or_eq_true] at hany
      by_cases hchange : use.isChange
      · rw [if_neg (use.not_isLookup hchange), if_pos hchange]
      · -- Neither the number of entries changes nor what the metrics know of it.
        rw [if_neg hchange, (h.valid.run uses).size_perform hchange,
          ← ih.length before hbefore (hany.resolve_right hchange)]
        split
        · exact before.length_record _
        · rfl

/-- The larger cache has as many hits as the smaller one, or more. -/
theorem Includes.hits_le (h : small.Includes large)
    (hhits : ∀ m ∈ small.metrics, ∀ m' ∈ large.metrics, m.hits ≤ m'.hits) (uses : List (Use α β)) :
    ∀ m ∈ (small.run uses).metrics, ∀ m' ∈ (large.run uses).metrics, m.hits ≤ m'.hits := by
  induction uses generalizing small large with
  | nil => exact hhits
  | cons use rest ih =>
    refine ih (h.perform use) fun m hm m' hm' => ?_
    rw [metrics_perform] at hm hm'
    obtain ⟨before, hbefore, rfl⟩ := Option.map_eq_some_iff.mp hm
    obtain ⟨before', hbefore', rfl⟩ := Option.map_eq_some_iff.mp hm'
    have hle := hhits before hbefore before' hbefore'
    by_cases hlookup : use.isLookup
    · rw [if_pos hlookup, if_pos hlookup, CacheMetrics.hits_record, CacheMetrics.hits_record]
      refine Nat.add_le_add hle ?_
      cases hf : use.found small with
      | none => exact Nat.zero_le _
      | some value => exact Nat.le_of_eq (by rw [h.found hf])
    · rw [if_neg hlookup, if_neg hlookup]
      split <;> exact hle

end Metrics

/-! ## Any uses -/

/-- Two caches that are empty at first, of which one has at least as much room as the other, after
the same uses. Neither has more entries than it has room, whatever the smaller one finds the larger
one finds too, and the larger one does not have fewer hits. The metrics of each have counted its
look-ups as hits or misses, and know its length once it has been changed. -/
theorem run_includes {small large : Cache α β} (hsmall : small.Unused) (hlarge : large.Unused)
    (hle : small.capacity ≤ large.capacity) (uses : List (Use α β)) :
    (small.run uses).size ≤ small.capacity ∧ (large.run uses).size ≤ large.capacity ∧
    (∀ key value, (small.run uses).find? key = some value →
      (large.run uses).find? key = some value) ∧
    (∀ (use : Use α β) value, use.found (small.run uses) = some value →
      use.found (large.run uses) = some value) ∧
    (∀ m ∈ (small.run uses).metrics, ∀ m' ∈ (large.run uses).metrics, m.hits ≤ m'.hits) ∧
    Tallied uses small (small.run uses) ∧ Tallied uses large (large.run uses) := by
  have hfirst := hsmall.includes hlarge hle
  have hlast := hfirst.run uses
  have hsize := hlast.small_valid.size_le
  have hsize' := hlast.large_valid.size_le
  rw [capacity_run] at hsize hsize'
  refine ⟨hsize, hsize', fun _ _ => hlast.find?, fun _ _ => hlast.found, ?_, hsmall.tallied uses,
    hlarge.tallied uses⟩
  refine hfirst.hits_le (fun m hm m' hm' => ?_) uses
  exact Nat.le_of_eq ((hsmall.hits m hm).trans (hlarge.hits m' hm').symm)

/-- Uses that find a value only in the larger one of two caches with room for two and for three. -/
def crossedUses : List (Use Nat Nat) :=
  [.put 1 10, .put 2 20, .put 3 30, .get 1, .put 4 40, .modify 3 (· + 1), .get 2]

theorem run_includes_crossedUses :
    let small : Cache Nat Nat := .new 2 (some (.unused "small"))
    let large : Cache Nat Nat := .new 3 (some (.unused "large"))
    small.Unused ∧ large.Unused ∧ small.capacity ≤ large.capacity ∧
    (small.run crossedUses).find? 3 = some 31 ∧ (large.run crossedUses).find? 3 = some 31 ∧
    (∀ m ∈ (small.run crossedUses).metrics, m.hits + m.misses = 3) ∧
    ∀ m ∈ (large.run crossedUses).metrics, m.length = (large.run crossedUses).size := by
  intro small large
  have hsmall : small.Unused := unused_new 2 "small"
  have hlarge : large.Unused := unused_new 3 "large"
  have hle : small.capacity ≤ large.capacity := by decide
  have hfound : (small.run crossedUses).find? 3 = some 31 := by decide
  obtain ⟨-, -, hfind, -, -, htallied, htallied'⟩ := run_includes hsmall hlarge hle crossedUses
  exact ⟨hsmall, hlarge, hle, hfound, hfind 3 31 hfound, htallied.lookups,
    fun m hm => htallied'.length m hm (by decide)⟩

end Cache

end WorkQueue
