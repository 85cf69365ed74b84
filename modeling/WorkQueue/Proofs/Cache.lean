import WorkQueue.Cache

/-!
# What a cache finds

How each operation of a `Cache` changes what `find?` gives. Using an entry leaves all values as
they are (`find?_get`), and putting a value may only lose other entries (`find?_put`).
-/

namespace WorkQueue.Cache

variable {α β : Type} [DecidableEq α]

private theorem lookup_cons (k : α) (e : α × β) (rest : List (α × β)) :
    (e :: rest).lookup k = if k = e.1 then some e.2 else rest.lookup k := by
  obtain ⟨k', v⟩ := e
  by_cases h : k = k'
  · simp [h]
  · have hb : (k == k') = false := by simpa using h
    rw [List.lookup_cons, hb, if_neg h]

private theorem lookup_others (entries : List (α × β)) (key k : α) :
    (entries.filter fun e => e.1 != key).lookup k =
      if k = key then none else entries.lookup k := by
  induction entries with
  | nil => simp
  | cons e rest ih =>
    by_cases he : e.1 = key
    · rw [List.filter_cons_of_neg (by simpa using he), ih, lookup_cons, he]
      split <;> rfl
    · rw [List.filter_cons_of_pos (by simpa using he), lookup_cons, ih, lookup_cons]
      by_cases hk : k = e.1
      · rw [if_pos hk, if_neg (hk ▸ he), if_pos hk]
      · rw [if_neg hk, if_neg hk]

private theorem lookup_take {entries : List (α × β)} {n : Nat} {k : α} {v : β}
    (h : (entries.take n).lookup k = some v) : entries.lookup k = some v := by
  induction entries generalizing n with
  | nil => simp at h
  | cons e rest ih =>
    cases n with
    | zero => simp at h
    | succ n =>
      rw [List.take_succ_cons, lookup_cons] at h
      rw [lookup_cons]
      split
      · rename_i hk
        rwa [if_pos hk] at h
      · rename_i hk
        rw [if_neg hk] at h
        exact ih h

theorem get_fst (c : Cache α β) (key : α) : (c.get key).1 = c.find? key := by
  simp only [get]
  split <;> simp_all

theorem capacity_get (c : Cache α β) (key : α) : (c.get key).2.capacity = c.capacity := by
  rw [get]
  cases c.find? key <;> rfl

/-- Using an entry leaves all values as they are. -/
theorem find?_get (c : Cache α β) (key k : α) : (c.get key).2.find? k = c.find? k := by
  simp only [get]
  split
  · rename_i value h
    show ((key, value) :: c.others key).lookup k = c.entries.lookup k
    rw [lookup_cons, others, lookup_others]
    split
    · rename_i hk
      rw [hk]
      exact h.symm
    · rfl
  · rfl

theorem find?_remove (c : Cache α β) (key k : α) :
    (c.remove key).find? k = if k = key then none else c.find? k :=
  lookup_others c.entries key k

/-- A value that is found after one has been put is that one, or was there before. -/
theorem find?_put {c : Cache α β} {key k : α} {value v : β}
    (h : (c.put key value).find? k = some v) :
    (k = key ∧ v = value) ∨ (k ≠ key ∧ c.find? k = some v) := by
  have h := lookup_take h
  rw [lookup_cons, others, lookup_others] at h
  by_cases hk : k = key
  · rw [if_pos hk] at h
    exact .inl ⟨hk, (Option.some.inj h).symm⟩
  · rw [if_neg hk, if_neg hk] at h
    exact .inr ⟨hk, h⟩

/-- A value that is found after one has been revised is that one, or was there before. -/
theorem find?_revise {c : Cache α β} {key k : α} {value v : β}
    (h : (c.revise key value).find? k = some v) :
    (k = key ∧ v = value) ∨ (k ≠ key ∧ c.find? k = some v) := by
  obtain ⟨entries, capacity, metrics⟩ := c
  simp only [find?, revise] at h ⊢
  induction entries with
  | nil => simp at h
  | cons e rest ih =>
    rw [List.map_cons, lookup_cons] at h
    rw [lookup_cons]
    by_cases hk : k = e.1
    · by_cases he : e.1 = key
      · rw [if_pos he, if_pos (hk.trans he)] at h
        exact .inl ⟨hk.trans he, (Option.some.inj h).symm⟩
      · rw [if_neg he, if_pos hk] at h
        rw [if_pos hk]
        exact .inr ⟨hk ▸ he, h⟩
    · rw [if_neg hk]
      by_cases he : e.1 = key
      · rw [if_pos he] at h
        by_cases hk' : k = key
        · rw [if_pos hk'] at h
          exact .inl ⟨hk', (Option.some.inj h).symm⟩
        · rw [if_neg hk'] at h
          exact ih h
      · rw [if_neg he, if_neg hk] at h
        exact ih h

theorem find?_flush (c : Cache α β) (k : α) : c.flush.find? k = none := rfl

omit [DecidableEq α] in
/-- The keys that have a value, those used last first. -/
def keys (c : Cache α β) : List α := c.entries.map (·.1)

theorem isSome_find?_iff {c : Cache α β} {key : α} : (c.find? key).isSome ↔ key ∈ c.keys := by
  rw [find?, List.lookup_isSome_iff, keys, List.mem_map]
  refine exists_congr fun e => and_congr_right fun _ => ?_
  rw [beq_iff_eq, eq_comm]

theorem find?_eq_none_iff {c : Cache α β} {key : α} : c.find? key = none ↔ key ∉ c.keys := by
  rw [← isSome_find?_iff, Bool.not_eq_true, Option.isSome_eq_false_iff, Option.isNone_iff_eq_none]

theorem contains_iff {c : Cache α β} {key : α} :
    c.contains key = true ↔ ∃ value, c.find? key = some value :=
  Option.isSome_iff_exists

end WorkQueue.Cache
