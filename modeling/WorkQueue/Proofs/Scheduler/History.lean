import WorkQueue.JobId.Basic

/-!
# Histories

A history lists the accepted pushes and the executions of jobs in the order in which they came.
`Alternating` says that every job was pushed and executed by turns, beginning with a push, and that
the jobs whose turn it is to be executed are those that are stored. `Alternating.once`,
`Alternating.at_most_once` and `Alternating.stored_iff` draw from this what becomes of each push.
-/

namespace WorkQueue

/-- What happens to a job. -/
inductive Event where
  | accepted (id : JobId)
  | executed (id : JobId)
deriving DecidableEq

/-- Jobs are pushed and executed by turns, and those that were pushed last are stored. -/
structure Alternating (history : List Event) (stored : JobId → Bool) : Prop where
  turns : ∀ before, before <+: history → ∀ id,
    before.count (.executed id) ≤ before.count (.accepted id) ∧
      before.count (.accepted id) ≤ before.count (.executed id) + 1
  last : ∀ id, history.count (.accepted id) =
    history.count (.executed id) + if stored id then 1 else 0

namespace Alternating

variable {history : List Event} {stored : JobId → Bool}

theorem empty : Alternating [] fun _ => false := by
  refine ⟨fun before h id => ?_, fun id => rfl⟩
  rw [List.prefix_nil.mp h]
  exact ⟨Nat.le_refl 0, Nat.zero_le 1⟩

/-- What holds of the jobs after one more event. -/
theorem snoc (h : Alternating history stored) {e : Event} {stored' : JobId → Bool}
    (hlast : ∀ id, (history ++ [e]).count (.accepted id) =
      (history ++ [e]).count (.executed id) + if stored' id then 1 else 0) :
    Alternating (history ++ [e]) stored' := by
  refine ⟨fun before hb id => ?_, hlast⟩
  rcases List.prefix_concat_iff.mp hb with rfl | hb
  · have hid := hlast id
    split at hid <;> omega
  · exact h.turns before hb id

/-- A job that is not stored is pushed. -/
theorem accept (h : Alternating history stored) {id : JobId} (hid : stored id = false)
    {stored' : JobId → Bool} (hs : ∀ other, stored' other = (decide (other = id) || stored other)) :
    Alternating (history ++ [.accepted id]) stored' := by
  refine h.snoc fun other => ?_
  have hlast := h.last other
  rw [hs other, List.count_append, List.count_append]
  by_cases he : other = id
  · subst he
    simp [hid] at hlast ⊢
    omega
  · have hne : id ≠ other := fun h => he h.symm
    simpa [he, hne] using hlast

/-- A job that is stored is executed. -/
theorem execute (h : Alternating history stored) {id : JobId} (hid : stored id = true)
    {stored' : JobId → Bool} (hs : ∀ other, stored' other = (!decide (other = id) && stored other)) :
    Alternating (history ++ [.executed id]) stored' := by
  refine h.snoc fun other => ?_
  have hlast := h.last other
  rw [hs other, List.count_append, List.count_append]
  by_cases he : other = id
  · subst he
    simp [hid] at hlast ⊢
    omega
  · have hne : id ≠ other := fun h => he h.symm
    simpa [he, hne] using hlast

/-- Between two accepted pushes of a job it is executed once. -/
theorem once (h : Alternating history stored) {id : JobId} {before between after : List Event}
    (hsplit : history = before ++ .accepted id :: (between ++ .accepted id :: after))
    (hnone : .accepted id ∉ between) : between.count (.executed id) = 1 := by
  subst hsplit
  have hbefore := h.turns before (List.prefix_append _ _) id
  have hfirst := h.turns (before ++ [.accepted id]) ⟨between ++ .accepted id :: after, by simp⟩ id
  have hbetween := h.turns (before ++ .accepted id :: between) ⟨.accepted id :: after, by simp⟩ id
  have hsecond := h.turns (before ++ .accepted id :: (between ++ [.accepted id])) ⟨after, by simp⟩ id
  have hzero : between.count (.accepted id) = 0 := List.count_eq_zero.mpr hnone
  simp [hzero] at hbefore hfirst hbetween hsecond
  omega

/-- After the last accepted push of a job it is executed once at most. -/
theorem at_most_once (h : Alternating history stored) {id : JobId} {before after : List Event}
    (hsplit : history = before ++ .accepted id :: after) (hnone : .accepted id ∉ after) :
    after.count (.executed id) ≤ 1 := by
  subst hsplit
  have hfirst := h.turns (before ++ [.accepted id]) ⟨after, by simp⟩ id
  have hall := h.turns _ (List.prefix_refl _) id
  have hzero : after.count (.accepted id) = 0 := List.count_eq_zero.mpr hnone
  simp [hzero] at hfirst hall
  omega

/-- The stored jobs are those that have not been executed since their last accepted push. -/
theorem stored_iff (h : Alternating history stored) {id : JobId} :
    stored id = true ↔
      ∃ before after, history = before ++ .accepted id :: after ∧ .executed id ∉ after := by
  have hlast := h.last id
  constructor
  · intro hs
    rw [if_pos hs] at hlast
    have hmem : Event.accepted id ∈ history.reverse := by
      rw [List.mem_reverse, ← List.count_pos_iff]
      omega
    obtain ⟨after, before, hsplit, hnone⟩ := List.eq_append_cons_of_mem hmem
    have hhistory : history = before.reverse ++ .accepted id :: after.reverse := by
      rw [← List.reverse_reverse history, hsplit]
      simp
    refine ⟨_, _, hhistory, fun hex => ?_⟩
    have hbefore := h.turns before.reverse ⟨.accepted id :: after.reverse, hhistory.symm⟩ id
    have hfirst := h.turns (before.reverse ++ [.accepted id]) ⟨after.reverse, by simp [hhistory]⟩ id
    have hpos : 0 < after.count (.executed id) := List.count_pos_iff.mpr (List.mem_reverse.mp hex)
    have hzero : after.count (.accepted id) = 0 := List.count_eq_zero.mpr hnone
    rw [hhistory] at hlast
    simp [hzero] at hbefore hfirst hlast
    omega
  · rintro ⟨before, after, rfl, hnone⟩
    have hbefore := h.turns before (List.prefix_append _ _) id
    have hfirst := h.turns (before ++ [.accepted id]) ⟨after, by simp⟩ id
    have hzero : after.count (.executed id) = 0 := List.count_eq_zero.mpr hnone
    cases hs : stored id with
    | true => rfl
    | false =>
      simp [hzero, hs] at hbefore hfirst hlast
      omega

/-- A stored job has been pushed. -/
theorem accepted_of_stored (h : Alternating history stored) {id : JobId} (hs : stored id = true) :
    .accepted id ∈ history := by
  obtain ⟨before, after, rfl, -⟩ := h.stored_iff.mp hs
  simp

/-- A job that has been pushed and is not stored has been executed. -/
theorem executed_of_accepted (h : Alternating history stored) {id : JobId}
    (ha : .accepted id ∈ history) (hs : stored id = false) : .executed id ∈ history := by
  have hlast := h.last id
  have hpos := List.count_pos_iff.mpr ha
  rw [hs] at hlast
  rw [← List.count_pos_iff]
  simp at hlast
  omega

end Alternating

end WorkQueue
