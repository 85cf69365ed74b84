import WorkQueue.Proofs.OrderedSet.Runs

/-!
# What an ordered set holds

`Lists` says that the entries of a namespace are those of an ordered set: member and index entries
agree, all sequence numbers are below the tail, and there is nothing else. Putting a member,
taking one out and taking all out keep it (`Lists.put`, `Lists.delete`, `Lists.takeAll`) as long
as the tail does not come round to zero. Reading gives the members in the order in which they came
(`Lists.listed`).
-/

namespace WorkQueue

namespace BigEndian

/-- Numbers of a fixed width are ordered as their bytes are. -/
theorem encode_lt {width a b : Nat} :
    encode width a < encode width b ↔ a % capacity width < b % capacity width := by
  induction width generalizing a b with
  | zero => simp [encode, capacity, Nat.mod_one]
  | succ width ih =>
    have hp := capacity_pos width
    have hmod : ∀ n, n % capacity (width + 1) =
        (n / capacity width % 256) * capacity width + n % capacity width := by
      intro n
      rw [capacity, Nat.mod_mul, Nat.add_comm, Nat.mul_comm]
    have hbyte : ∀ n, (UInt8.ofNat (n / capacity width)).toNat = n / capacity width % 256 := by
      intro n
      simp
    have ha := Nat.mod_lt a hp
    have hb := Nat.mod_lt b hp
    rw [encode, encode, List.cons_lt_cons_iff, ih, hmod, hmod, UInt8.lt_iff_toNat_lt,
      ← UInt8.toNat_inj, hbyte, hbyte]
    generalize a / capacity width % 256 = x
    generalize b / capacity width % 256 = y
    constructor
    · rintro (h | ⟨rfl, h⟩)
      · have hs := Nat.mul_le_mul_right (capacity width) (Nat.succ_le_of_lt h)
        rw [Nat.succ_mul] at hs
        omega
      · omega
    · intro h
      rcases Nat.lt_trichotomy x y with hlt | rfl | hgt
      · exact .inl hlt
      · exact .inr ⟨rfl, by omega⟩
      · have hs := Nat.mul_le_mul_right (capacity width) (Nat.succ_le_of_lt hgt)
        rw [Nat.succ_mul] at hs
        omega

theorem encodeWord_lt {a b : UInt64} : encodeWord a < encodeWord b ↔ a < b := by
  rw [encodeWord, encodeWord, encode_lt, UInt64.lt_iff_toNat_lt]
  have ha : a.toNat % capacity 8 = a.toNat := Nat.mod_eq_of_lt a.toNat_lt
  have hb : b.toNat % capacity 8 = b.toNat := Nat.mod_eq_of_lt b.toNat_lt
  rw [ha, hb]

@[simp] theorem encodeWord_inj {a b : UInt64} : encodeWord a = encodeWord b ↔ a = b :=
  ⟨encodeWord_injective, congrArg encodeWord⟩

end BigEndian

namespace OrderedSet

open BigEndian (encodeWord)

/-! ## Keys -/

@[simp] theorem readSeq_encodeWord (seq : UInt64) : readSeq (encodeWord seq) = .ok seq := by
  rw [readSeq, BigEndian.decodeWord?_encodeWord]

@[simp] theorem memberKey_inj {a b : UInt64} : memberKey a = memberKey b ↔ a = b := by
  simp [memberKey]

@[simp] theorem indexKey_inj {a b : Bytes} : indexKey a = indexKey b ↔ a = b := by
  simp [indexKey]

@[simp] theorem memberKey_ne_indexKey (seq : UInt64) (m : Bytes) : memberKey seq ≠ indexKey m := by
  simp [memberKey, indexKey, memberTag, indexTag]

@[simp] theorem memberKey_ne_tailKey (seq : UInt64) : memberKey seq ≠ tailKey := by
  simp [memberKey, tailKey, memberTag]

@[simp] theorem indexKey_ne_tailKey (m : Bytes) : indexKey m ≠ tailKey := by
  simp [indexKey, tailKey, indexTag]

theorem memberKey_lt {a b : UInt64} : memberKey a < memberKey b ↔ a < b := by
  rw [memberKey, memberKey, List.cons_lt_cons_iff, BigEndian.encodeWord_lt]
  simp only [UInt8.lt_irrefl, true_and, false_or]

/-! ## Contents -/

/-- The entries of a namespace are those of an ordered set that lists the given sequence numbers
and members, oldest first, and whose next sequence number is `tail`. -/
structure Lists (space : Namespace) (t : Table) (entries : List (UInt64 × Bytes)) (tail : UInt64) :
    Prop where
  ascending : entries.Pairwise fun a b => a.1 < b.1
  below : ∀ e ∈ entries, e.1 < tail
  distinct : (entries.map (·.2)).Nodup
  member : ∀ seq m, space.view t (memberKey seq) = some m ↔ (seq, m) ∈ entries
  index : ∀ m value, space.view t (indexKey m) = some value ↔
    ∃ seq, (seq, m) ∈ entries ∧ value = encodeWord seq
  tail_eq : space.view t tailKey = if tail = 0 then none else some (encodeWord tail)
  only : ∀ key value, space.view t key = some value →
    key = tailKey ∨ (∃ seq, key = memberKey seq) ∨ ∃ m, key = indexKey m

/-- A namespace without entries is an ordered set without members. -/
theorem lists_empty {space : Namespace} {t : Table} (h : ∀ key, space.view t key = none) :
    Lists space t [] 0 where
  ascending := .nil
  below := nofun
  distinct := .nil
  member := by simp [h]
  index := by simp [h]
  tail_eq := by simp [h]
  only := by simp [h]

namespace Lists

variable {space : Namespace} {t : Table} {entries : List (UInt64 × Bytes)} {tail : UInt64}

/-- What a namespace lists depends on its view only. -/
theorem of_view {t' : Table} (h : Lists space t entries tail) (hv : space.view t' = space.view t) :
    Lists space t' entries tail where
  ascending := h.ascending
  below := h.below
  distinct := h.distinct
  member := by rw [hv]; exact h.member
  index := by rw [hv]; exact h.index
  tail_eq := by rw [hv]; exact h.tail_eq
  only := by rw [hv]; exact h.only

/-! ## Reading -/

theorem stored (h : Lists space t entries tail) : stored space t = .ok ⟨space, tail⟩ := by
  rw [OrderedSet.stored, h.tail_eq]
  split
  · rename_i hn
    split at hn
    · rename_i h0
      rw [h0]
    · cases hn
  · rename_i value hv
    split at hv
    · cases hv
    · cases hv
      rw [readSeq_encodeWord]
      rfl

theorem indexed_iff (h : Lists space t entries tail) {m : Bytes} :
    indexed space t m = true ↔ m ∈ entries.map (·.2) := by
  rw [indexed, Option.isSome_iff_exists, List.mem_map]
  constructor
  · rintro ⟨value, hv⟩
    obtain ⟨seq, hmem, -⟩ := (h.index m value).mp hv
    exact ⟨_, hmem, rfl⟩
  · rintro ⟨⟨seq, m⟩, hmem, rfl⟩
    exact ⟨encodeWord seq, (h.index m _).mpr ⟨seq, hmem, rfl⟩⟩

/-- The entries that hold members, in the order in which they came. -/
theorem listed (h : Lists space t entries tail) :
    listed space t = entries.map fun e => (memberKey e.1, e.2) := by
  refine Namespace.entries_eq_of_mem_iff ?_ fun key value => ?_
  · rw [List.pairwise_map]
    exact h.ascending.imp memberKey_lt.mpr
  · rw [List.mem_map]
    constructor
    · rintro ⟨⟨seq, m⟩, hmem, he⟩
      cases he
      exact ⟨⟨encodeWord seq, rfl⟩, (h.member seq m).mpr hmem⟩
    · rintro ⟨⟨rest, rfl⟩, hv⟩
      rcases h.only _ _ hv with he | ⟨seq, he⟩ | ⟨m, he⟩
      · exact absurd he (by simp [memberTag, tailKey])
      · rw [he] at hv ⊢
        exact ⟨_, (h.member seq value).mp hv, rfl⟩
      · exact absurd he (by simp [memberTag, indexKey, indexTag])

theorem members (h : Lists space t entries tail) :
    (OrderedSet.listed space t).map (·.2) = entries.map (·.2) := by
  rw [h.listed, List.map_map]
  rfl

/-! ## Writing -/

private theorem view_additions (set : OrderedSet) (m : Bytes) (t : Table) (key : Bytes) :
    set.space.view (Batch.apply (set.additions m) t) key =
      if key = tailKey then some (encodeWord (set.tail + 1))
      else if key = indexKey m then some (encodeWord set.tail)
      else if key = memberKey set.tail then some m
      else set.space.view t key := by
  simp only [additions, Namespace.stagePut, Batch.apply_cons, Batch.apply_nil, Operation.apply,
    Namespace.view_put]

/-- A new member stands at the end. -/
theorem put (h : Lists space t entries tail) {m : Bytes} (hm : m ∉ entries.map (·.2))
    (htail : tail.toNat + 1 < UInt64.size) :
    Lists space (Batch.apply (additions ⟨space, tail⟩ m) t) (entries ++ [(tail, m)]) (tail + 1) := by
  have hview := view_additions ⟨space, tail⟩ m t
  have hnext : (tail + 1).toNat = tail.toNat + 1 := by
    rw [UInt64.toNat_add]
    exact Nat.mod_eq_of_lt htail
  have hne : tail + 1 ≠ 0 := fun h0 => by
    rw [h0] at hnext
    exact absurd hnext (by simp)
  have hlt : tail < tail + 1 := UInt64.lt_iff_toNat_lt.mpr (by omega)
  have hout : ∀ m', (tail, m') ∉ entries := fun m' hmem =>
    absurd (h.below _ hmem) (UInt64.lt_irrefl tail)
  have hseq : ∀ seq, (seq, m) ∉ entries := fun seq hmem => hm (List.mem_map.mpr ⟨_, hmem, rfl⟩)
  refine ⟨?_, ?_, ?_, fun seq m' => ?_, fun m' value => ?_, ?_, fun key value hv => ?_⟩
  · rw [List.pairwise_append]
    refine ⟨h.ascending, List.pairwise_singleton _ _, fun a ha b hb => ?_⟩
    rw [List.mem_singleton.mp hb]
    exact h.below a ha
  · intro e he
    rcases List.mem_append.mp he with he | he
    · exact UInt64.lt_trans (h.below e he) hlt
    · rw [List.mem_singleton.mp he]
      exact hlt
  · rw [List.map_append, List.nodup_append]
    refine ⟨h.distinct, by simp, fun a ha b hb he => hm ?_⟩
    obtain rfl : b = m := List.mem_singleton.mp hb
    rwa [he] at ha
  · rw [hview, if_neg (memberKey_ne_tailKey seq), if_neg (memberKey_ne_indexKey seq m)]
    by_cases hs : seq = tail
    · subst hs
      simp [hout, eq_comm]
    · simp [hs, h.member]
  · rw [hview, if_neg (indexKey_ne_tailKey m')]
    by_cases hs : m' = m
    · subst hs
      simp [hseq, eq_comm]
    · have hs' : indexKey m' ≠ memberKey tail := (memberKey_ne_indexKey tail m').symm
      simp [hs, hs', h.index]
  · rw [hview, if_pos rfl, if_neg hne]
  · rw [hview] at hv
    split at hv
    · exact .inl ‹_›
    · split at hv
      · exact .inr (.inr ⟨m, ‹_›⟩)
      · split at hv
        · exact .inr (.inl ⟨tail, ‹_›⟩)
        · exact h.only key value hv

private theorem view_removal (set : OrderedSet) (seq : UInt64) (m : Bytes) (t : Table)
    (key : Bytes) :
    set.space.view (Batch.apply (set.removal seq m) t) key =
      if key = indexKey m then none
      else if key = memberKey seq then none
      else set.space.view t key := by
  simp only [removal, Namespace.stageDelete, Batch.apply_cons, Batch.apply_nil, Operation.apply,
    Namespace.view_erase]

/-- Two members with one sequence number are the same. -/
theorem eq_of_seq (h : Lists space t entries tail) {seq : UInt64} {m m' : Bytes}
    (hm : (seq, m) ∈ entries) (hm' : (seq, m') ∈ entries) : m = m' :=
  Option.some.inj (((h.member seq m).mpr hm).symm.trans ((h.member seq m').mpr hm'))

/-- A member has one sequence number. -/
theorem eq_of_member (h : Lists space t entries tail) {seq seq' : UInt64} {m : Bytes}
    (hm : (seq, m) ∈ entries) (hm' : (seq', m) ∈ entries) : seq = seq' :=
  BigEndian.encodeWord_injective <| Option.some.inj <|
    ((h.index m _).mpr ⟨seq, hm, rfl⟩).symm.trans ((h.index m _).mpr ⟨seq', hm', rfl⟩)

/-- The other members stay where they are when one is taken out. -/
theorem delete (h : Lists space t entries tail) {seq : UInt64} {m : Bytes}
    (hm : (seq, m) ∈ entries) :
    Lists space (Batch.apply (removal ⟨space, tail⟩ seq m) t)
      (entries.filter fun e => e.2 != m) tail := by
  have hview := view_removal ⟨space, tail⟩ seq m t
  have hmem : ∀ e, e ∈ (entries.filter fun e => e.2 != m) ↔ e ∈ entries ∧ e.2 ≠ m := fun e => by
    rw [List.mem_filter, bne_iff_ne]
  refine ⟨h.ascending.filter _, fun e he => h.below e ((hmem e).mp he).1, ?_, fun seq' m' => ?_,
    fun m' value => ?_, ?_, fun key value hv => ?_⟩
  · exact (List.filter_sublist.map _).nodup h.distinct
  · rw [hview, if_neg (memberKey_ne_indexKey seq' m), hmem]
    by_cases hs : seq' = seq
    · subst hs
      rw [if_pos rfl]
      exact ⟨nofun, fun ⟨hin, hne⟩ => absurd (h.eq_of_seq hin hm) hne⟩
    · have hne : (seq', m') ∈ entries → m' ≠ m := fun hin he => hs (h.eq_of_member (he ▸ hin) hm)
      rw [if_neg (by simpa using hs), h.member]
      exact ⟨fun hin => ⟨hin, hne hin⟩, fun hin => hin.1⟩
  · have hk : indexKey m' ≠ memberKey seq := (memberKey_ne_indexKey seq m').symm
    rw [hview, if_neg hk]
    by_cases hs : m' = m
    · subst hs
      rw [if_pos rfl]
      exact ⟨nofun, fun ⟨_, hin, _⟩ => absurd rfl ((hmem _).mp hin).2⟩
    · rw [if_neg (by simpa using hs), h.index]
      simp only [hmem, ne_eq, hs, not_false_eq_true, and_true]
  · have hi : tailKey ≠ indexKey m := (indexKey_ne_tailKey m).symm
    have hk : tailKey ≠ memberKey seq := (memberKey_ne_tailKey seq).symm
    rw [hview, if_neg hi, if_neg hk, h.tail_eq]
  · rw [hview] at hv
    split at hv
    · cases hv
    · split at hv
      · cases hv
      · exact h.only key value hv

theorem isPut_removals (set : OrderedSet) (taken : List (Bytes × Bytes)) :
    ∀ op ∈ set.removals taken, op.isPut = false := by
  intro op hop
  rcases List.mem_append.mp hop with hop | hop
  · obtain ⟨e, -, he⟩ := List.mem_flatMap.mp hop
    simp only [List.mem_cons, List.not_mem_nil, or_false] at he
    rcases he with rfl | rfl <;> rfl
  · rw [List.mem_singleton.mp hop]
    rfl

theorem view_removals (set : OrderedSet) (taken : List (Bytes × Bytes)) (t : Table) (key : Bytes) :
    set.space.view (Batch.apply (set.removals taken) t) key =
      if key = tailKey ∨ ∃ e ∈ taken, key = e.1 ∨ key = indexKey e.2 then none
      else set.space.view t key := by
  have hkeys : set.space.key key ∈ (set.removals taken).map Operation.key ↔
      key = tailKey ∨ ∃ e ∈ taken, key = e.1 ∨ key = indexKey e.2 := by
    simp only [removals, Namespace.stageDelete, List.map_append, List.map_flatMap, List.map_cons,
      List.map_nil, Operation.key, List.mem_append, List.mem_flatMap, List.mem_cons,
      List.not_mem_nil, or_false, Namespace.key_inj]
    exact or_comm
  rw [Namespace.view, Batch.get?_apply_deletes (isPut_removals set taken)]
  simp only [hkeys]
  rfl

/-- Nothing is left when all members are taken out. -/
theorem takeAll (h : Lists space t entries tail) :
    Lists space (Batch.apply (removals ⟨space, tail⟩ (OrderedSet.listed space t)) t) [] 0 := by
  refine lists_empty fun key => ?_
  have hview := view_removals ⟨space, tail⟩ (OrderedSet.listed space t) t key
  simp only at hview
  rw [hview]
  split
  · rfl
  · rename_i hout
    refine Option.eq_none_iff_forall_not_mem.mpr fun value hv => hout ?_
    rw [h.listed]
    rcases h.only key value hv with he | ⟨seq, rfl⟩ | ⟨m, rfl⟩
    · exact .inl he
    · exact .inr ⟨_, List.mem_map_of_mem ((h.member seq value).mp hv), .inl rfl⟩
    · obtain ⟨seq, hmem, -⟩ := (h.index m value).mp hv
      exact .inr ⟨_, List.mem_map_of_mem hmem, .inr rfl⟩

end Lists

/-! ## Over any entries -/

/-- After a member has been put, it is indexed beside those that were. -/
theorem indexed_put {set : OrderedSet} {m : Bytes} {s t : Store} {r : Bool × OrderedSet}
    (h : set.put m s = .ok r t) (other : Bytes) :
    indexed set.space t.table other = true ↔
      indexed set.space s.table other = true ∨ other = m := by
  rw [put_run] at h
  split at h
  · rename_i hm
    cases h
    refine ⟨.inl, ?_⟩
    rintro (h | rfl)
    · exact h
    · exact hm
  · split at h
    · cases h
    · cases h
      have htail : indexKey other ≠ tailKey := by simp
      have hmember : indexKey other ≠ memberKey set.tail := (memberKey_ne_indexKey _ _).symm
      rw [Store.table_after, indexed, Lists.view_additions, if_neg htail, if_neg hmember, indexed]
      by_cases he : other = m <;> simp [he]

/-- After a member has been taken out, it is not indexed, and the others are as they were. -/
theorem indexed_delete {set : OrderedSet} {m : Bytes} {s t : Store} {b : Bool}
    (h : set.delete m s = .ok b t) (other : Bytes) :
    indexed set.space t.table other = true ↔
      indexed set.space s.table other = true ∧ other ≠ m := by
  rw [delete_run] at h
  split at h
  · rename_i hnone
    cases h
    refine ⟨fun hother => ⟨hother, ?_⟩, And.left⟩
    rintro rfl
    rw [indexed, hnone] at hother
    cases hother
  · split at h
    · cases h
    · rename_i seq _
      split at h
      · cases h
      · cases h
        have hmember : indexKey other ≠ memberKey seq := (memberKey_ne_indexKey _ _).symm
        rw [Store.table_after, indexed, Lists.view_removal, if_neg hmember, indexed]
        by_cases he : other = m <;> simp [he]

/-- After all members have been taken out, none is listed. -/
theorem listed_takeAll {α : Type} {convert : Bytes → Except Error α} {set : OrderedSet}
    {s t : Store} {r : List α × OrderedSet} (h : set.takeAll convert s = .ok r t) :
    listed set.space t.table = [] := by
  rw [takeAll_run] at h
  split at h
  · cases h
  · split at h
    · rename_i hempty
      cases h
      exact List.isEmpty_iff.mp hempty
    · split at h
      · cases h
      · cases h
        rw [Store.table_after, List.eq_nil_iff_forall_not_mem]
        rintro ⟨key, value⟩ hmem
        obtain ⟨hstart, hview⟩ := Namespace.mem_entries.mp hmem
        rw [Lists.view_removals] at hview
        split at hview
        · cases hview
        · rename_i hout
          exact hout (.inr ⟨(key, value), Namespace.mem_entries.mpr ⟨hstart, hview⟩, .inl rfl⟩)

/-! ## Aligned entries -/

/-- Every entry that holds a member stands under the sequence number that the member has in the
index. Sequence numbers may have come round to zero, and an index entry may have lost its member. -/
def Aligned (space : Namespace) (t : Table) : Prop :=
  ∀ key m, (key, m) ∈ listed space t →
    ∃ seq, key = memberKey seq ∧ space.view t (indexKey m) = some (encodeWord seq)

theorem Lists.aligned {space : Namespace} {t : Table} {entries : List (UInt64 × Bytes)}
    {tail : UInt64} (h : Lists space t entries tail) : Aligned space t := by
  intro key m hmem
  rw [h.listed, List.mem_map] at hmem
  obtain ⟨⟨seq, m⟩, hmem, he⟩ := hmem
  cases he
  exact ⟨seq, rfl, (h.index m _).mpr ⟨seq, hmem, rfl⟩⟩

namespace Aligned

variable {space : Namespace} {t : Table}

theorem of_view {t' : Table} (h : Aligned space t) (hv : space.view t' = space.view t) :
    Aligned space t' := by
  intro key m hmem
  rw [listed, Namespace.mem_entries, hv, ← Namespace.mem_entries] at hmem
  rw [hv]
  exact h key m hmem

/-- What is listed is indexed. -/
theorem indexed (h : Aligned space t) {m : Bytes} (hmem : m ∈ (listed space t).map (·.2)) :
    OrderedSet.indexed space t m = true := by
  obtain ⟨⟨key, member⟩, hentry, rfl⟩ := List.mem_map.mp hmem
  obtain ⟨seq, -, hindex⟩ := h key member hentry
  rw [OrderedSet.indexed, hindex]
  rfl

theorem put {set : OrderedSet} {m : Bytes} {s u : Store} {r : Bool × OrderedSet}
    (h : Aligned set.space s.table) (hput : set.put m s = .ok r u) :
    Aligned set.space u.table := by
  rw [put_run] at hput
  split at hput
  · cases hput
    exact h
  · rename_i hnew
    split at hput
    · cases hput
    cases hput
    rw [Store.table_after]
    intro key other hmem
    obtain ⟨hstart, hview⟩ := Namespace.mem_entries.mp hmem
    rw [Lists.view_additions] at hview
    split at hview
    · rename_i he
      exact absurd (he ▸ hstart) (by simp [memberTag, tailKey])
    split at hview
    · rename_i he
      exact absurd (he ▸ hstart) (by simp [memberTag, indexKey, indexTag])
    split at hview
    · rename_i he
      cases hview
      exact ⟨set.tail, he, by rw [Lists.view_additions, if_neg (indexKey_ne_tailKey _), if_pos rfl]⟩
    -- An entry that was there before is that of another member.
    · have hold : (key, other) ∈ listed set.space s.table :=
        Namespace.mem_entries.mpr ⟨hstart, hview⟩
      obtain ⟨seq, he, hindex⟩ := h key other hold
      have hne : other ≠ m := by
        rintro rfl
        exact hnew (h.indexed (List.mem_map.mpr ⟨_, hold, rfl⟩))
      refine ⟨seq, he, ?_⟩
      rw [Lists.view_additions, if_neg (indexKey_ne_tailKey _), if_neg (by simpa using hne),
        if_neg (memberKey_ne_indexKey _ _).symm]
      exact hindex

theorem delete {set : OrderedSet} {m : Bytes} {s u : Store} {b : Bool}
    (h : Aligned set.space s.table) (hdelete : set.delete m s = .ok b u) :
    Aligned set.space u.table := by
  rw [delete_run] at hdelete
  split at hdelete
  · cases hdelete
    exact h
  · rename_i value hvalue
    cases hseq : readSeq value with
    | error e =>
      rw [hseq] at hdelete
      cases hdelete
    | ok seq =>
      simp only [hseq] at hdelete
      split at hdelete
      · cases hdelete
      cases hdelete
      rw [Store.table_after]
      intro key other hmem
      obtain ⟨hstart, hview⟩ := Namespace.mem_entries.mp hmem
      rw [Lists.view_removal] at hview
      split at hview
      · cases hview
      split at hview
      · cases hview
      -- The member's own entry is gone, so this is that of another one.
      · rename_i hkey
        obtain ⟨seq', rfl, hindex⟩ := h key other (Namespace.mem_entries.mpr ⟨hstart, hview⟩)
        have hne : other ≠ m := by
          rintro rfl
          cases hvalue.symm.trans hindex
          rw [readSeq_encodeWord] at hseq
          cases hseq
          exact hkey rfl
        refine ⟨seq', rfl, ?_⟩
        rw [Lists.view_removal, if_neg (by simpa using hne),
          if_neg (memberKey_ne_indexKey _ _).symm]
        exact hindex

/-- Taking the first member out is one write, and leaves the others where they are. -/
theorem delete_first {set : OrderedSet} {s : Store} {first : Bytes × Bytes}
    {rest : List (Bytes × Bytes)} (h : Aligned set.space s.table)
    (hlisted : listed set.space s.table = first :: rest) :
    ∃ seq, set.delete first.2 s =
        (if s.writesLeft = some 0 then .error (.file .writeRefused) s
        else .ok true (s.after (set.removal seq first.2))) ∧
      listed set.space (Batch.apply (set.removal seq first.2) s.table) = rest := by
  obtain ⟨key, m⟩ := first
  obtain ⟨seq, rfl, hindex⟩ := h key m (hlisted ▸ List.mem_cons_self)
  refine ⟨seq, by simp only [delete_run, hindex, readSeq_encodeWord], ?_⟩
  have hascending := Namespace.pairwise_entries set.space [memberTag] s.table
  rw [← OrderedSet.listed, hlisted] at hascending
  obtain ⟨hlater, hrest⟩ := List.pairwise_cons.mp hascending
  refine Namespace.entries_eq_of_mem_iff hrest fun key value => ?_
  have hmem : (key, value) ∈ (memberKey seq, m) :: rest ↔
      [memberTag] <+: key ∧ set.space.view s.table key = some value := by
    rw [← hlisted, OrderedSet.listed, Namespace.mem_entries]
  rw [Lists.view_removal]
  constructor
  · intro hin
    obtain ⟨hstart, hview⟩ := hmem.mp (List.mem_cons_of_mem _ hin)
    have hkey : key ≠ memberKey seq := fun he => List.lt_irrefl _ (he ▸ hlater _ hin)
    have hindexKey : key ≠ indexKey m := by
      rintro rfl
      simp [indexKey, memberTag, indexTag] at hstart
    exact ⟨hstart, by rw [if_neg hindexKey, if_neg hkey, hview]⟩
  · rintro ⟨hstart, hview⟩
    split at hview
    · cases hview
    · split at hview
      · cases hview
      · rename_i hkey
        refine (List.mem_cons.mp (hmem.mpr ⟨hstart, hview⟩)).resolve_left fun he => hkey ?_
        exact (Prod.mk.inj he).1

end Aligned

end OrderedSet

end WorkQueue
