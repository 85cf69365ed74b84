import WorkQueue.Bytes.Basic

/-!
# Tables

A `Table` maps keys to values, both byte strings, and lists its entries in ascending order of keys.
The order is a field of the type, so a table is determined by its look-ups (`Table.ext_get?`).

`get?_put`, `get?_erase` and `get?_empty` say what each operation does to the look-ups;
`mem_entries` ties the entries to them. `scan` reads the entries whose keys begin with given bytes:
it starts at the first key that is not smaller and stops at the first that begins otherwise.
-/

namespace WorkQueue

/-- A finite map from keys to values, in ascending order of keys. -/
structure Table where
  entries : List (Bytes × Bytes)
  ascending : entries.Pairwise fun a b => a.1 < b.1

namespace Table

/-! ## Lists of entries -/

/-- Puts an entry where it belongs, in place of an entry of the same key. -/
def insertEntry (key value : Bytes) : List (Bytes × Bytes) → List (Bytes × Bytes)
  | [] => [(key, value)]
  | (k, v) :: rest =>
    if key < k then (key, value) :: (k, v) :: rest
    else if key = k then (key, value) :: rest
    else (k, v) :: insertEntry key value rest

theorem mem_insertEntry {key value : Bytes} {entries : List (Bytes × Bytes)} {e : Bytes × Bytes}
    (h : e ∈ insertEntry key value entries) : e = (key, value) ∨ e ∈ entries := by
  induction entries with
  | nil => simpa [insertEntry] using h
  | cons e' rest ih =>
    obtain ⟨k, v⟩ := e'
    rw [insertEntry] at h
    split at h
    · simpa using h
    · split at h
      · rcases List.mem_cons.mp h with h | h
        · exact .inl h
        · exact .inr (List.mem_cons_of_mem _ h)
      · rcases List.mem_cons.mp h with h | h
        · exact .inr (h ▸ List.mem_cons_self)
        · rcases ih h with h | h
          · exact .inl h
          · exact .inr (List.mem_cons_of_mem _ h)

theorem pairwise_insertEntry {key value : Bytes} {entries : List (Bytes × Bytes)}
    (h : entries.Pairwise fun a b => a.1 < b.1) :
    (insertEntry key value entries).Pairwise fun a b => a.1 < b.1 := by
  induction entries with
  | nil => simp [insertEntry]
  | cons e rest ih =>
    obtain ⟨k, v⟩ := e
    obtain ⟨hk, hr⟩ := List.pairwise_cons.mp h
    rw [insertEntry]
    split
    · next hlt =>
      refine List.pairwise_cons.mpr ⟨fun e he => ?_, h⟩
      rcases List.mem_cons.mp he with rfl | he
      · exact hlt
      · exact List.lt_trans hlt (hk e he)
    · split
      · next heq => exact List.pairwise_cons.mpr ⟨fun e he => heq ▸ hk e he, hr⟩
      · next hlt hne =>
        have hgt : k < key := by grind
        refine List.pairwise_cons.mpr ⟨fun e he => ?_, ih hr⟩
        rcases mem_insertEntry he with rfl | he
        · exact hgt
        · exact hk e he

/-! ## Operations -/

/-- The table without entries. -/
def empty : Table := ⟨[], .nil⟩

instance : Inhabited Table := ⟨empty⟩

/-- The value of a key. -/
def get? (t : Table) (key : Bytes) : Option Bytes := t.entries.lookup key

/-- Whether a key has a value. -/
def contains (t : Table) (key : Bytes) : Bool := (t.get? key).isSome

/-- The table with a new value for a key. -/
def put (t : Table) (key value : Bytes) : Table :=
  ⟨insertEntry key value t.entries, pairwise_insertEntry t.ascending⟩

/-- The table without a key. -/
def erase (t : Table) (key : Bytes) : Table :=
  ⟨t.entries.filter fun e => e.1 != key, t.ascending.filter _⟩

/-- The number of keys. -/
def size (t : Table) : Nat := t.entries.length

/-- The entries whose keys begin with `lead`, in ascending order. -/
def scan (t : Table) (lead : Bytes) : List (Bytes × Bytes) :=
  (t.entries.dropWhile fun e => e.1 < lead).takeWhile fun e => lead.isPrefixOf e.1

/-! ## Look-ups -/

@[simp] theorem get?_empty (key : Bytes) : empty.get? key = none := rfl

private theorem lookup_cons (k : Bytes) (e : Bytes × Bytes) (rest : List (Bytes × Bytes)) :
    (e :: rest).lookup k = if k = e.1 then some e.2 else rest.lookup k := by
  obtain ⟨k', v⟩ := e
  by_cases h : k = k'
  · simp [h]
  · have hb : (k == k') = false := by simpa using h
    rw [List.lookup_cons, hb, if_neg h]

private theorem lookup_insertEntry (key value k : Bytes) (entries : List (Bytes × Bytes)) :
    (insertEntry key value entries).lookup k =
      if k = key then some value else entries.lookup k := by
  induction entries with
  | nil => rw [insertEntry, lookup_cons]
  | cons e rest ih =>
    obtain ⟨k', v⟩ := e
    rw [insertEntry]
    split
    · rw [lookup_cons]
    · split
      · next heq => rw [lookup_cons, lookup_cons, ← heq]; split <;> rfl
      · next hne =>
        rw [lookup_cons, lookup_cons, ih]
        by_cases h : k = k'
        · have hk : k ≠ key := fun hk => hne (hk ▸ h)
          rw [if_pos h, if_neg hk, if_pos h]
        · rw [if_neg h, if_neg h]

private theorem lookup_filter (key k : Bytes) (entries : List (Bytes × Bytes)) :
    (entries.filter fun e => e.1 != key).lookup k =
      if k = key then none else entries.lookup k := by
  induction entries with
  | nil => simp
  | cons e rest ih =>
    by_cases he : e.1 = key
    · rw [List.filter_cons_of_neg (by simpa using he), ih, lookup_cons, he]
      split <;> rfl
    · rw [List.filter_cons_of_pos (by simpa using he), lookup_cons, ih, lookup_cons]
      by_cases h : k = e.1
      · rw [if_pos h, if_neg (h ▸ he), if_pos h]
      · rw [if_neg h, if_neg h]

theorem get?_put (t : Table) (key value k : Bytes) :
    (t.put key value).get? k = if k = key then some value else t.get? k :=
  lookup_insertEntry key value k t.entries

theorem get?_erase (t : Table) (key k : Bytes) :
    (t.erase key).get? k = if k = key then none else t.get? k :=
  lookup_filter key k t.entries

theorem mem_entries {t : Table} {key value : Bytes} :
    (key, value) ∈ t.entries ↔ t.get? key = some value := by
  obtain ⟨entries, h⟩ := t
  unfold get?
  induction entries with
  | nil => simp
  | cons e rest ih =>
    obtain ⟨k, v⟩ := e
    obtain ⟨hk, hr⟩ := List.pairwise_cons.mp h
    rw [lookup_cons]
    by_cases he : key = k
    · subst he
      have hn : (key, value) ∉ rest := fun hm => List.lt_irrefl key (hk (key, value) hm)
      simp [hn, eq_comm]
    · simpa [he] using ih hr

/-- Ascending lists with the same members are the same. -/
private theorem eq_of_mem_iff {l l' : List (Bytes × Bytes)} (h : ∀ e, e ∈ l ↔ e ∈ l')
    (hp : l.Pairwise fun a b => a.1 < b.1) (hp' : l'.Pairwise fun a b => a.1 < b.1) : l = l' := by
  induction l generalizing l' with
  | nil => exact (List.eq_nil_iff_forall_not_mem.mpr fun e he => nomatch (h e).mpr he).symm
  | cons e rest ih =>
    cases l' with
    | nil => exact nomatch (h e).mp List.mem_cons_self
    | cons e' rest' =>
      obtain ⟨hr, ht⟩ := List.pairwise_cons.mp hp
      obtain ⟨hr', ht'⟩ := List.pairwise_cons.mp hp'
      have he : e = e' := by
        rcases List.mem_cons.mp ((h e).mp List.mem_cons_self) with he | he
        · exact he
        · rcases List.mem_cons.mp ((h e').mpr List.mem_cons_self) with he' | he'
          · exact he'.symm
          · exact absurd (List.lt_trans (hr' e he) (hr e' he')) (List.lt_irrefl _)
      subst he
      congr 1
      refine ih (fun x => ⟨fun hx => ?_, fun hx => ?_⟩) ht ht'
      · rcases List.mem_cons.mp ((h x).mp (List.mem_cons_of_mem _ hx)) with rfl | hx'
        · exact absurd (hr x hx) (List.lt_irrefl _)
        · exact hx'
      · rcases List.mem_cons.mp ((h x).mpr (List.mem_cons_of_mem _ hx)) with rfl | hx'
        · exact absurd (hr' x hx) (List.lt_irrefl _)
        · exact hx'

/-- Tables with the same look-ups are the same. -/
theorem ext_get? {s t : Table} (h : ∀ key, s.get? key = t.get? key) : s = t := by
  have hm : s.entries = t.entries :=
    eq_of_mem_iff (fun e => by rw [mem_entries, mem_entries, h]) s.ascending t.ascending
  cases s
  cases t
  cases hm
  rfl

end Table

end WorkQueue
