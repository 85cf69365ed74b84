import WorkQueue.Proofs.Log.Frames

/-!
# Logs with an overwritten record

Bytes of a log are overwritten in one place, the gap, with whole records before and behind. What the
gap announces as lengths decides where the replay goes on. Unless a frame runs over the end of the
gap and has the right checksum by chance (`Uncrossed`), there are three cases (`reads_gap`):

* the replay comes out at the end of the gap and takes in all records behind it;
* it finds damage in the gap;
* it meets a length in the gap that reaches to the end of the log or beyond (`Overreaches`). That
  looks as a torn record does, and the records behind the gap are lost
  (`replay_of_overreaches`).

The third case asks for a changed length: with the length of the record as it was, the replay comes
to the records behind it or finds damage (`not_overreaches_of_length`).
-/

namespace WorkQueue.Log

variable {gap later : Bytes}

/-- No frame that begins in the gap and ends behind it has the right checksum. -/
def Uncrossed (gap later : Bytes) : Prop :=
  ∀ part, part <:+ gap → part ≠ [] → part.length < span (part ++ later) →
    span (part ++ later) ≤ (part ++ later).length → ¬ Sound (part ++ later)

theorem uncrossed_iff : Uncrossed gap later ↔ ∀ n < gap.length,
    (gap.drop n).length < span (gap.drop n ++ later) →
      span (gap.drop n ++ later) ≤ (gap.drop n ++ later).length → ¬ Sound (gap.drop n ++ later) := by
  constructor
  · intro h n hn
    refine h _ (List.drop_suffix n gap) fun he => ?_
    have := List.drop_eq_nil_iff.mp he
    omega
  · rintro h part ⟨front, rfl⟩ hne
    have hn := h front.length (by
      have := List.length_pos_iff.mpr hne
      rw [List.length_append]
      omega)
    rwa [List.drop_left] at hn

instance (gap later : Bytes) : Decidable (Uncrossed gap later) :=
  decidable_of_iff _ uncrossed_iff.symm

/-- After the records `inner` of the gap, the replay meets a length that reaches to the end of the
log or beyond; `part` is what is left of the gap there. -/
structure Overreaches (gap later : Bytes) (inner : List Batch) (part : Bytes) : Prop where
  reads : Reads (gap ++ later) inner (part ++ later)
  inside : part <:+ gap
  nonempty : part ≠ []
  beyond : (part ++ later).length ≤ span (part ++ later)

/-- The ways through a gap. -/
theorem reads_gap (h : Uncrossed gap later) :
    (∃ inner, Reads (gap ++ later) inner later) ∨
    (∃ inner rest, Reads (gap ++ later) inner rest ∧
      ∀ offset, ∃ damage, next offset rest = .damaged damage) ∨
    ∃ inner part, Overreaches gap later inner part := by
  -- By induction on what is left of the gap.
  induction hn : gap.length using Nat.strongRecOn generalizing gap with
  | _ n ih =>
    by_cases hne : gap = []
    · exact .inl ⟨[], hne ▸ .stop later⟩
    by_cases hover : (gap ++ later).length ≤ span (gap ++ later)
    · exact .inr (.inr ⟨[], gap, .stop _, List.suffix_refl gap, hne, hover⟩)
    have hlog : gap ++ later ≠ [] := by simp [hne]
    by_cases hs : Sound (gap ++ later)
    · cases hb : readBatch (enclosed (gap ++ later)) with
      | error damage =>
        refine .inr (.inl ⟨[], _, .stop _, fun offset => ⟨damage, ?_⟩⟩)
        rw [next_eq, if_neg hlog, if_neg (by omega), if_pos hs, hb]
      | ok batch =>
        have hin : span (gap ++ later) ≤ gap.length := Nat.le_of_not_lt fun hcross =>
          h gap (List.suffix_refl gap) hne hcross (by omega) hs
        have hnext : next 0 (gap ++ later) =
            .record batch (gap.drop (span (gap ++ later)) ++ later) := by
          rw [next_record_iff]
          exact ⟨hlog, by omega, hs, hb, List.drop_append_of_le_length hin⟩
        have hsub : gap.drop (span (gap ++ later)) <:+ gap := List.drop_suffix _ _
        have hless : (gap.drop (span (gap ++ later))).length < n := by
          have hspan : 0 < span (gap ++ later) := by
            rw [span, lengthSize]
            omega
          have hpos := List.length_pos_iff.mpr hne
          rw [List.length_drop]
          omega
        rcases ih _ hless (fun part hp => h part (hp.trans hsub)) rfl with
          ⟨inner, hr⟩ | ⟨inner, rest, hr, hd⟩ | ⟨inner, part, ho⟩
        · exact .inl ⟨batch :: inner, .record hnext hr⟩
        · exact .inr (.inl ⟨batch :: inner, rest, .record hnext hr, hd⟩)
        · exact .inr (.inr ⟨batch :: inner, part, .record hnext ho.reads, ho.inside.trans hsub,
            ho.nonempty, ho.beyond⟩)
    · refine .inr (.inl ⟨[], _, .stop _, fun offset =>
        ⟨.checksum offset ((gap ++ later).length - span (gap ++ later)), ?_⟩⟩)
      rw [next_eq, if_neg hlog, if_neg (by omega), if_neg hs, if_neg (by omega)]

/-- A length that reaches too far is taken for that of a torn record. -/
theorem Overreaches.next {inner : List Batch} {part : Bytes} (ho : Overreaches gap later inner part)
    (h : Uncrossed gap later) (hlater : later ≠ []) : next 0 (part ++ later) = .torn := by
  refine next_torn_iff.mpr ⟨by simp [hlater], ?_⟩
  rcases Nat.lt_or_eq_of_le ho.beyond with hlt | heq
  · exact .inl hlt
  · refine .inr ⟨heq, h part ho.inside ho.nonempty ?_ (by omega)⟩
    have hpos := List.length_pos_iff.mpr hlater
    rw [← heq, List.length_append]
    omega

/-- With its length as it was, an overwritten record does not reach too far. -/
theorem not_overreaches_of_length {batch : Batch} (hb : Framed batch)
    (hlen : gap.length = (record batch).length)
    (htake : gap.take lengthSize = (record batch).take lengthSize) (hlater : later ≠ [])
    (inner : List Batch) (part : Bytes) : ¬ Overreaches gap later inner part := by
  rintro ⟨hreads, hin, hne, hbeyond⟩
  have hpos := List.length_pos_iff.mpr hlater
  have hrecord := length_record batch
  have hspan : span (gap ++ later) = gap.length := by
    have hsame : (gap ++ later).take lengthSize = (record batch ++ []).take lengthSize := by
      rw [List.append_nil, ← htake, List.take_append_of_le_length (by omega)]
    rw [span_congr hsame, span_record [] hb, hlen]
  generalize hrest : part ++ later = rest at hreads
  cases hreads with
  | stop =>
    rw [hrest, hspan, List.length_append] at hbeyond
    omega
  | record hn hmore =>
    -- The frame ends where the gap does, and nothing of the gap is left.
    obtain ⟨-, -, -, -, hmid⟩ := next_record_iff.mp hn
    rw [hspan, List.drop_left] at hmid
    have hle := hmore.length_le
    have hpart := List.length_pos_iff.mpr hne
    rw [← hmid, ← hrest, List.length_append] at hle
    omega

/-! ## The whole log -/

variable {before after : List Batch}

/-- Where no length reaches too far, the damage is noticed or the records behind it are read. -/
theorem replay_overwritten (hbefore : ∀ b ∈ before, Framed b) (hafter : ∀ b ∈ after, Framed b)
    (h : Uncrossed gap (written after))
    (ho : ∀ inner part, ¬ Overreaches gap (written after) inner part) :
    (∃ damage, replay (written before ++ (gap ++ written after)) = .error damage) ∨
    ∃ inner, replay (written before ++ (gap ++ written after)) =
      .ok ⟨before ++ (inner ++ after), (written before ++ (gap ++ written after)).length⟩ := by
  have hfirst := reads_written hbefore (gap ++ written after)
  rcases reads_gap h with ⟨inner, hr⟩ | ⟨inner, rest, hr, hd⟩ | ⟨inner, part, hpart⟩
  · have hlast := reads_written hafter []
    rw [List.append_nil] at hlast
    exact .inr ⟨inner, (hfirst.trans (hr.trans hlast)).replay_torn (.inl rfl)⟩
  · obtain ⟨damage, hd⟩ := hd _
    exact .inl ⟨damage, (hfirst.trans hr).replay_damaged hd⟩
  · exact absurd hpart (ho inner part)

/-- Where a length reaches too far, the replay ends before it and has none of the records behind
the gap. -/
theorem replay_of_overreaches (hbefore : ∀ b ∈ before, Framed b) (hafter : after ≠ [])
    (h : Uncrossed gap (written after)) {inner : List Batch} {kept part : Bytes}
    (ho : Overreaches gap (written after) inner part) (hkept : gap = kept ++ part) :
    replay (written before ++ (gap ++ written after)) =
      .ok ⟨before ++ inner, (written before ++ kept).length⟩ := by
  have hlater : written after ≠ [] := by
    obtain ⟨batch, rest, rfl⟩ := List.exists_cons_of_ne_nil hafter
    simp [record_ne_nil]
  have hreads := (reads_written hbefore (gap ++ written after)).trans ho.reads
  rw [hreads.replay_torn (.inr (ho.next h hlater)), hkept]
  simp only [List.length_append]
  congr 2
  omega

end WorkQueue.Log
