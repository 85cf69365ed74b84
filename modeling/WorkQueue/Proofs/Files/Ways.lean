import WorkQueue.Files.Path

/-!
# The ways of a path

The segments of a path up to some place make a path of their own, `upTo`, with which the whole path
begins. The ways of a path are such paths, and the ways of one of them are those before it.

* `split_intercalate`, `intercalate_take_split`: segments are cut and put together again;
* `mem_dropLast_ways`: which paths the ways before the last one are;
* `ways_of_getLast?`: the last of these has them all for its ways.
-/

namespace WorkQueue

namespace Path

theorem split_ne_nil (text : List Char) : split text ≠ [] := by
  cases text with
  | nil => simp [split]
  | cons c rest =>
    rw [split]
    split
    · simp
    · split <;> simp

theorem split_slash (text : List Char) : split ('/' :: text) = [] :: split text := by
  rw [split]
  split
  · rename_i h
    exact absurd h (split_ne_nil text)
  · rename_i first others h
    rw [if_pos rfl, h]

theorem split_cons {c : Char} {text first : List Char} {others : List (List Char)}
    (hc : c ≠ '/') (h : split text = first :: others) :
    split (c :: text) = (c :: first) :: others := by
  rw [split, h]
  exact if_neg hc

private theorem split_append_slash {part : List Char} (text : List Char) (h : '/' ∉ part) :
    split (part ++ '/' :: text) = part :: split text := by
  induction part with
  | nil => exact split_slash text
  | cons c part ih =>
    simp only [List.mem_cons, not_or] at h
    exact split_cons (Ne.symm h.1) (ih h.2)

private theorem split_of_no_slash {part : List Char} (h : '/' ∉ part) : split part = [part] := by
  induction part with
  | nil => rfl
  | cons c part ih =>
    simp only [List.mem_cons, not_or] at h
    exact split_cons (Ne.symm h.1) (ih h.2)

theorem slash_not_mem_of_mem_split {text part : List Char} (h : part ∈ split text) :
    '/' ∉ part := by
  induction text generalizing part with
  | nil =>
    rw [List.mem_singleton.mp h]
    simp
  | cons c text ih =>
    obtain ⟨first, others, hs⟩ := List.exists_cons_of_ne_nil (split_ne_nil text)
    by_cases hc : c = '/'
    · rw [hc, split_slash] at h
      rcases List.mem_cons.mp h with rfl | h
      · simp
      · exact ih h
    · rw [split_cons hc hs] at h
      rcases List.mem_cons.mp h with rfl | h
      · have hfirst : '/' ∉ first := ih (by simp [hs])
        simp [hfirst, Ne.symm hc]
      · exact ih (by simp [hs, h])

/-- Parts without slashes come apart again where they were put together. -/
theorem split_intercalate {parts : List (List Char)} (hne : parts ≠ [])
    (h : ∀ part ∈ parts, '/' ∉ part) : split (['/'].intercalate parts) = parts := by
  induction parts with
  | nil => exact absurd rfl hne
  | cons part rest ih =>
    cases rest with
    | nil =>
      rw [List.intercalate_singleton]
      exact split_of_no_slash (h part List.mem_cons_self)
    | cons next rest =>
      rw [List.intercalate_cons_cons, List.append_assoc, List.singleton_append,
        split_append_slash _ (h part List.mem_cons_self),
        ih (by simp) fun p hp => h p (List.mem_cons_of_mem _ hp)]

/-- The first parts of a text, put together, are what it begins with. -/
theorem intercalate_take_split (text : List Char) (n : Nat) :
    ['/'].intercalate ((split text).take n) <+: text := by
  induction text generalizing n with
  | nil =>
    cases n with
    | zero => exact List.nil_prefix
    | succ n => simp [split]
  | cons c text ih =>
    cases n with
    | zero => exact List.nil_prefix
    | succ n =>
      obtain ⟨first, others, hs⟩ := List.exists_cons_of_ne_nil (split_ne_nil text)
      by_cases hc : c = '/'
      · rw [hc, split_slash, List.take_succ_cons]
        cases n with
        | zero => simp
        | succ n =>
          have hn := ih (n + 1)
          rw [hs, List.take_succ_cons] at hn ⊢
          rw [List.intercalate_cons_cons, List.nil_append, List.singleton_append]
          exact List.cons_prefix_cons.mpr ⟨rfl, hn⟩
      · have hn := ih (n + 1)
        rw [split_cons hc hs, List.take_succ_cons]
        rw [hs, List.take_succ_cons] at hn
        have hcons : ['/'].intercalate ((c :: first) :: others.take n) =
            c :: ['/'].intercalate (first :: others.take n) := by
          cases others.take n with
          | nil => simp
          | cons next rest => simp [List.intercalate_cons_cons]
        rw [hcons]
        exact List.cons_prefix_cons.mpr ⟨rfl, hn⟩

/-- The path up to a segment. -/
def upTo (path : String) (n : Nat) : String := ofSegments ((segments path).take n)

theorem toList_upTo (path : String) (n : Nat) :
    (upTo path n).toList = ['/'].intercalate ((split path.toList).take n) := by
  have hid : String.toList ∘ String.ofList = id := funext fun _ => String.toList_ofList
  rw [upTo, ofSegments, String.toList_intercalate, segments, List.map_take, List.map_map, hid,
    List.map_id]
  rfl

theorem segments_upTo (path : String) {n : Nat} (h : 0 < n) :
    segments (upTo path n) = (segments path).take n := by
  have hne : (split path.toList).take n ≠ [] := by
    obtain ⟨first, others, hs⟩ := List.exists_cons_of_ne_nil (split_ne_nil path.toList)
    rw [hs, ← Nat.sub_add_cancel h, List.take_succ_cons]
    simp
  rw [segments, toList_upTo, split_intercalate hne fun part hp =>
    slash_not_mem_of_mem_split (List.mem_of_mem_take hp), segments, List.map_take]

/-- A path begins with the path up to any of its segments. -/
theorem exists_append_upTo (path : String) (n : Nat) : ∃ rest, path = upTo path n ++ rest := by
  obtain ⟨rest, hrest⟩ := intercalate_take_split path.toList n
  refine ⟨String.ofList rest, String.toList_inj.mp ?_⟩
  rw [String.toList_append, String.toList_ofList, toList_upTo, hrest]

/-- The ways before the last one end in names that are not the last segment. -/
theorem mem_dropLast_ways {path way : String} (h : way ∈ (ways path).dropLast) :
    ∃ (n : Nat) (_ : n + 1 < (segments path).length),
      isVoid (segments path)[n] = false ∧ way = upTo path (n + 1) := by
  let ends := (List.range (segments path).length).filter fun n =>
    !isVoid ((segments path).getD n "")
  obtain ⟨n, hn, rfl⟩ : ∃ n ∈ ends.dropLast, upTo path (n + 1) = way := by
    rw [ways, ← List.map_dropLast] at h
    exact List.mem_map.mp h
  have hne : ends ≠ [] := by
    intro he
    rw [he] at hn
    cases hn
  have hascending : ends.Pairwise (· < ·) := List.pairwise_lt_range.filter _
  rw [← List.dropLast_concat_getLast hne] at hascending
  have hlt := (List.pairwise_append.mp hascending).2.2 n hn _ (List.mem_singleton.mpr rfl)
  obtain ⟨hlast, -⟩ := List.mem_filter.mp (List.getLast_mem hne)
  obtain ⟨hrange, hvoid⟩ := List.mem_filter.mp (List.dropLast_subset _ hn)
  have hlen := List.mem_range.mp hlast
  refine ⟨n, by omega, ?_, rfl⟩
  simpa [List.getD_eq_getElem?_getD, List.getElem?_eq_getElem (List.mem_range.mp hrange)]
    using hvoid

/-! ## The ways before the last one -/

variable {p : Nat → Bool}

private theorem filter_range_succ (p : Nat → Bool) (k : Nat) :
    (List.range (k + 1)).filter p =
      if p k then (List.range k).filter p ++ [k] else (List.range k).filter p := by
  rw [List.range_succ, List.filter_append]
  by_cases hk : p k
  · rw [if_pos hk, List.filter_cons_of_pos hk, List.filter_nil]
  · rw [if_neg hk, List.filter_cons_of_neg hk, List.filter_nil, List.append_nil]

theorem filter_range_of_getLast? {k n : Nat} (h : ((List.range k).filter p).getLast? = some n) :
    (List.range (n + 1)).filter p = (List.range k).filter p := by
  induction k with
  | zero => cases h
  | succ k ih =>
    have hsucc := filter_range_succ p k
    split at hsucc
    · rw [hsucc, List.getLast?_concat] at h
      cases h
      rfl
    · rw [hsucc] at h ⊢
      exact ih h

theorem exists_dropLast_filter_range (k : Nat) :
    ∃ m ≤ k, ((List.range k).filter p).dropLast = (List.range m).filter p := by
  induction k with
  | zero => exact ⟨0, Nat.le_refl 0, rfl⟩
  | succ k ih =>
    rw [filter_range_succ]
    split
    · exact ⟨k, Nat.le_succ k, List.dropLast_concat⟩
    · obtain ⟨m, hm, hdrop⟩ := ih
      exact ⟨m, Nat.le_succ_of_le hm, hdrop⟩

/-- The places of the names among the first segments of a path. -/
def ends (path : String) (k : Nat) : List Nat :=
  (List.range k).filter fun n => !isVoid ((segments path).getD n "")

theorem ways_eq (path : String) :
    ways path = (ends path (segments path).length).map fun n => upTo path (n + 1) := rfl

theorem lt_of_mem_ends {path : String} {k n : Nat} (h : n ∈ ends path k) : n < k :=
  List.mem_range.mp (List.mem_filter.mp h).1

theorem ways_upTo {path : String} {k : Nat} (hpos : 0 < k) (hk : k ≤ (segments path).length) :
    ways (upTo path k) = (ends path k).map fun n => upTo path (n + 1) := by
  have hsegments := segments_upTo path hpos
  have hends : ends (upTo path k) k = ends path k := by
    refine List.filter_congr fun n hn => ?_
    have hlt := List.mem_range.mp hn
    rw [hsegments, List.getD_eq_getElem?_getD, List.getElem?_take_of_lt hlt,
      List.getD_eq_getElem?_getD]
  rw [ways_eq, hsegments, List.length_take, Nat.min_eq_left hk, hends]
  refine List.map_congr_left fun n hn => ?_
  rw [upTo, hsegments, List.take_take, Nat.min_eq_left (lt_of_mem_ends hn), upTo]

/-- The last but one way of a path goes through the ways before the last one. -/
theorem ways_of_getLast? {path parent : String} (h : (ways path).dropLast.getLast? = some parent) :
    ways parent = (ways path).dropLast := by
  rw [ways_eq path, ← List.map_dropLast] at h ⊢
  obtain ⟨m, hm, hdrop⟩ := exists_dropLast_filter_range
    (p := fun n => !isVoid ((segments path).getD n "")) (segments path).length
  rw [ends, hdrop, List.getLast?_map, Option.map_eq_some_iff] at h
  obtain ⟨n, hlast, rfl⟩ := h
  have hlt := lt_of_mem_ends (List.mem_of_getLast? hlast)
  rw [ways_upTo (Nat.succ_pos n) (by omega), ends, ends, hdrop, filter_range_of_getLast? hlast]

end Path

end WorkQueue
