import WorkQueue.Store.Table

/-!
# Scans

`Table.scan` starts at the first key that is not smaller than the lead and stops at the first that
begins otherwise. Since keys with a common beginning stand together, it reads all of them:

* `scan_eq`: a scan gives the entries whose keys begin with the lead;
* `mem_scan`, `pairwise_scan`: these entries and no others, in ascending order;
* `scan_complete`: all of this together, and what stands in the table around them.
-/

namespace WorkQueue.Table

/-- A key that begins with `lead` is not smaller. -/
theorem not_lt_of_prefix {lead key : Bytes} (h : lead <+: key) : ¬ key < lead := by
  induction lead generalizing key with
  | nil => exact List.not_lt_nil key
  | cons a lead ih =>
    obtain ⟨rest, rfl⟩ := h
    rw [List.cons_append, List.cons_lt_cons_iff]
    rintro (hlt | ⟨-, hlt⟩)
    · exact Nat.lt_irrefl _ hlt
    · exact ih (List.prefix_append lead rest) hlt

/-- After a key that does not begin with `lead` though it is not smaller, no key does. -/
theorem not_prefix_of_lt {lead k k' : Bytes} (hk : ¬ k < lead) (hn : ¬ lead <+: k) (h : k < k') :
    ¬ lead <+: k' := by
  induction lead generalizing k k' with
  | nil => exact absurd List.nil_prefix hn
  | cons a lead ih =>
    rintro ⟨rest, rfl⟩
    cases k with
    | nil => exact hk (List.nil_lt_cons a lead)
    | cons b k =>
      rw [List.cons_lt_cons_iff] at hk
      rw [List.cons_append, List.cons_lt_cons_iff] at h
      rcases h with hlt | ⟨rfl, hlt⟩
      · exact hk (.inl hlt)
      · refine ih (fun hlt => hk (.inr ⟨rfl, hlt⟩)) (fun hp => hn ?_) hlt
          (List.prefix_append lead rest)
        obtain ⟨tail, rfl⟩ := hp
        exact ⟨tail, rfl⟩

/-- From the first key that is not smaller than the lead on, reading up to the first key that
begins otherwise leaves none out. -/
theorem takeWhile_prefix {lead : Bytes} {entries : List (Bytes × Bytes)}
    (hp : entries.Pairwise fun a b => a.1 < b.1) (hge : ∀ e ∈ entries, ¬ e.1 < lead) :
    (entries.takeWhile fun e => lead.isPrefixOf e.1) =
      entries.filter fun e => lead.isPrefixOf e.1 := by
  induction entries with
  | nil => rfl
  | cons e rest ih =>
    obtain ⟨he, hr⟩ := List.pairwise_cons.mp hp
    have ih := ih hr fun e' h => hge e' (List.mem_cons_of_mem _ h)
    by_cases hlead : lead <+: e.1
    · simp [hlead, ih]
    · have hnone : ∀ e' ∈ rest, ¬ lead <+: e'.1 := fun e' he' =>
        not_prefix_of_lt (hge e List.mem_cons_self) hlead (he e' he')
      simpa [hlead] using hnone

/-- In ascending order, the keys that are not smaller than the lead stand behind those that are. -/
theorem dropWhile_lt {lead : Bytes} {entries : List (Bytes × Bytes)}
    (hp : entries.Pairwise fun a b => a.1 < b.1) :
    (entries.dropWhile fun e => e.1 < lead) = entries.filter fun e => ¬ e.1 < lead := by
  induction entries with
  | nil => rfl
  | cons e rest ih =>
    obtain ⟨he, hr⟩ := List.pairwise_cons.mp hp
    by_cases hlt : e.1 < lead
    · rw [List.dropWhile_cons_of_pos (by simpa using hlt), ih hr]
      simp [hlt]
    · have hrest : ∀ e' ∈ rest, ¬ e'.1 < lead := fun e' h hlt' =>
        hlt (List.lt_trans (he e' h) hlt')
      rw [List.dropWhile_cons_of_neg (by simpa using hlt), eq_comm, List.filter_eq_self]
      intro e' h
      rcases List.mem_cons.mp h with rfl | h
      · simpa using hlt
      · simpa using hrest e' h

/-- A scan gives the entries whose keys begin with the lead. -/
theorem scan_eq (t : Table) (lead : Bytes) :
    t.scan lead = t.entries.filter fun e => lead.isPrefixOf e.1 := by
  have hge : ∀ e ∈ t.entries.filter fun e => ¬ e.1 < lead, ¬ e.1 < lead := fun e he => by
    simpa using (List.mem_filter.mp he).2
  rw [scan, dropWhile_lt t.ascending, takeWhile_prefix (t.ascending.filter _) hge,
    List.filter_filter]
  refine List.filter_congr fun e _ => ?_
  by_cases hlead : lead <+: e.1
  · have hnot := not_lt_of_prefix hlead
    simp [hnot]
  · simp [hlead]

theorem mem_scan {t : Table} {lead key value : Bytes} :
    (key, value) ∈ t.scan lead ↔ lead <+: key ∧ t.get? key = some value := by
  rw [scan_eq, List.mem_filter, mem_entries, List.isPrefixOf_iff_prefix, and_comm]

theorem pairwise_scan (t : Table) (lead : Bytes) :
    (t.scan lead).Pairwise fun a b => a.1 < b.1 := by
  rw [scan_eq]
  exact t.ascending.filter _

/-- No entry is read twice. -/
theorem nodup_scan (t : Table) (lead : Bytes) : (t.scan lead).Nodup :=
  (pairwise_scan t lead).imp fun h => by
    rintro rfl
    exact List.lt_irrefl _ h

/-! ## What stands around a scan -/

/-- The entries behind a scan have greater keys that do not begin with the lead. -/
theorem dropWhile_prefix {lead : Bytes} {entries : List (Bytes × Bytes)}
    (hp : entries.Pairwise fun a b => a.1 < b.1) (hge : ∀ e ∈ entries, ¬ e.1 < lead) :
    ∀ e ∈ entries.dropWhile fun e => lead.isPrefixOf e.1, lead < e.1 ∧ ¬ lead <+: e.1 := by
  have hgreater : ∀ e ∈ entries, ¬ lead <+: e.1 → lead < e.1 := by
    intro e he hn
    have hge := hge e he
    have hne : e.1 ≠ lead := fun h => hn (h ▸ List.prefix_refl _)
    grind
  induction entries with
  | nil => nofun
  | cons e rest ih =>
    obtain ⟨he, hr⟩ := List.pairwise_cons.mp hp
    by_cases hlead : lead <+: e.1
    · rw [List.dropWhile_cons_of_pos (by simpa using hlead)]
      exact ih hr (fun e' h => hge e' (List.mem_cons_of_mem _ h))
        fun e' h => hgreater e' (List.mem_cons_of_mem _ h)
    · rw [List.dropWhile_cons_of_neg (by simpa using hlead)]
      intro e' h
      have hn : ¬ lead <+: e'.1 := by
        rcases List.mem_cons.mp h with rfl | h
        · exact hlead
        · exact not_prefix_of_lt (hge e List.mem_cons_self) hlead (he e' h)
      exact ⟨hgreater e' h hn, hn⟩

/-- A scan is a stretch of the table. -/
theorem exists_entries_eq (t : Table) (lead : Bytes) :
    ∃ before after, t.entries = before ++ t.scan lead ++ after ∧ (∀ e ∈ before, e.1 < lead) ∧
      ∀ e ∈ after, lead < e.1 ∧ ¬ lead <+: e.1 := by
  refine ⟨t.entries.takeWhile fun e => e.1 < lead,
    (t.entries.dropWhile fun e => e.1 < lead).dropWhile fun e => lead.isPrefixOf e.1, ?_, ?_, ?_⟩
  · rw [scan, List.append_assoc, List.takeWhile_append_dropWhile, List.takeWhile_append_dropWhile]
  · intro e he
    simpa using List.all_eq_true.mp List.all_takeWhile e he
  · rw [dropWhile_lt t.ascending]
    refine dropWhile_prefix (t.ascending.filter _) fun e he => ?_
    simpa using (List.mem_filter.mp he).2

/-- **A scan is complete.** Whatever the keys begin with that are asked for, reading from there up
to the first key that begins otherwise gives the entries that filtering the whole table gives, each
of them once and in ascending order. They stand together: all entries before them have smaller keys
than what is asked for, and all entries behind them have greater ones that begin otherwise. -/
theorem scan_complete (t : Table) (lead : Bytes) :
    (t.scan lead = (t.entries.filter fun e => ¬ e.1 < lead).takeWhile fun e =>
      lead.isPrefixOf e.1) ∧
    (t.scan lead = t.entries.filter fun e => lead.isPrefixOf e.1) ∧
    (∀ key value, (t.scan lead).count (key, value) =
      if lead <+: key ∧ t.get? key = some value then 1 else 0) ∧
    (t.scan lead).Pairwise (fun a b => a.1 < b.1) ∧
    ∃ before after, t.entries = before ++ t.scan lead ++ after ∧ (∀ e ∈ before, e.1 < lead) ∧
      ∀ e ∈ after, lead < e.1 ∧ ¬ lead <+: e.1 := by
  refine ⟨?_, scan_eq t lead, fun key value => ?_, pairwise_scan t lead, exists_entries_eq t lead⟩
  · rw [scan, dropWhile_lt t.ascending]
  · simp only [(nodup_scan t lead).count, mem_scan]

end WorkQueue.Table
