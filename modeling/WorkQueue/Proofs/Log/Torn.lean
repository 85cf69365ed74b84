import WorkQueue.Proofs.Log.Frames

/-!
# Logs with a torn record at the end

A program that stops while it writes a record leaves a beginning of the record, or a frame of the
right length whose bytes have not all arrived (`Torn`). The replay stops there: a log that is torn
behind whole records gives these records and their length (`replay_written_torn`).
-/

namespace WorkQueue.Log

/-- What is left of a record whose writing was broken off. -/
inductive Torn : Bytes → Prop where
  /-- A beginning of a record, maybe an empty one. -/
  | cut {batch : Batch} {tail : Bytes} (framed : Framed batch) (part : tail <+: record batch)
      (short : tail ≠ record batch) : Torn tail
  /-- A frame of the length that it announces, whose checksum is not that of its payload. -/
  | failed {payload sum : Bytes} (fits : payload.length < lengthLimit)
      (length : sum.length = checksumSize) (wrong : sum ≠ checksum payload) :
      Torn (sized payload ++ sum)

/-- A beginning that shows its length announces the whole record, and one that does not is shorter
than any record. -/
private theorem length_lt_span_of_cut {batch : Batch} {tail : Bytes} (hf : Framed batch)
    (hp : tail <+: record batch) (hne : tail ≠ record batch) : tail.length < span tail := by
  have hlt : tail.length < (record batch).length := by
    rcases Nat.lt_or_eq_of_le hp.length_le with hlt | heq
    · exact hlt
    · exact absurd (hp.eq_of_length heq) hne
  by_cases hshort : tail.length < lengthSize
  · rw [span]
    omega
  · have htake : tail.take lengthSize = (record batch ++ []).take lengthSize := by
      obtain ⟨rest, hrest⟩ := hp
      rw [List.append_nil, ← hrest, List.take_append_of_le_length (by omega)]
    rwa [span_congr htake, span_record [] hf]

/-- The replay stops at a torn record. -/
theorem Torn.next {tail : Bytes} (h : Torn tail) : tail = [] ∨ next 0 tail = .torn := by
  by_cases hne : tail = []
  · exact .inl hne
  refine .inr (next_torn_iff.mpr ⟨hne, ?_⟩)
  cases h with
  | cut hf hp hshort => exact .inl (length_lt_span_of_cut hf hp hshort)
  | @failed payload sum hfits hlen hwrong =>
    refine .inr ⟨?_, ?_⟩
    · rw [span_sized sum hfits, List.length_append, hlen]
    · have := sound_sized_iff [] hfits hlen
      rw [List.append_nil] at this
      exact fun hs => hwrong (this.mp hs)

end WorkQueue.Log
