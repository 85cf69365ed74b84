import WorkQueue.Proofs.Store.Views
import WorkQueue.Scheduler.Basic

/-!
# The parts of a scheduler's store

Each `Part` of a scheduler has a namespace of its own: the stored jobs, their number, the runnable
queue, the missing ids, and the jobs that wait, a bucket for each job they wait for. Parts that
differ are apart (`Part.apart`), the buckets as long as the hashes of their ids differ (`Hashed`).
-/

namespace WorkQueue.Scheduler

/-- A part of the store with a namespace of its own. -/
inductive Part where
  | jobs
  | pending
  | runnable
  | missing
  | bucket (dependency : JobId)
deriving DecidableEq

/-- Different ids of the list have different hashes, so that each has a bucket of its own. -/
def Hashed (ids : List JobId) : Prop :=
  ∀ a ∈ ids, ∀ b ∈ ids, Blake3.hash a.bytes = Blake3.hash b.bytes → a = b

instance (ids : List JobId) : Decidable (Hashed ids) :=
  inferInstanceAs (Decidable (∀ a ∈ ids, ∀ b ∈ ids, _ → _))

theorem hashed_nil : Hashed [] := by
  intro a ha
  cases ha

/-- The namespace of a bucket. -/
def bucketSpace (dependency : JobId) : Namespace := dependentsSpace.nested dependency.bytes

theorem bucketSpace_of_eq {d : Dependents} (h : d.space = dependentsSpace) (dependency : JobId) :
    d.bucketSpace dependency = bucketSpace dependency := by
  rw [Dependents.bucketSpace, h]
  rfl

namespace Part

/-- The namespace of a part. -/
def space : Part → Namespace
  | jobs => jobsSpace
  | pending => pendingSpace
  | runnable => runnableSpace
  | missing => missingSpace
  | bucket dependency => bucketSpace dependency

/-- Whether a part is one that ids of the list lead to. -/
def Of (ids : List JobId) : Part → Prop
  | bucket dependency => dependency ∈ ids
  | _ => True

/-- The namespace in the whole store in which a part lies. -/
def outer : Part → Namespace
  | bucket _ => dependentsSpace
  | part => part.space

/-- The leads of the five namespaces in the whole store. -/
def leads : List Bytes :=
  [jobsSpace.lead, pendingSpace.lead, runnableSpace.lead, missingSpace.lead, dependentsSpace.lead]

/-- Which of the five leads is that of a part. -/
def rank : Part → Nat
  | jobs => 0
  | pending => 1
  | runnable => 2
  | missing => 3
  | bucket _ => 4

theorem leads_rank (part : Part) : leads[part.rank]? = some part.outer.lead := by
  cases part <;> rfl

/-- The keys of a part lie in its namespace in the whole store. -/
theorem lead_prefix (part : Part) (key : Bytes) : part.outer.lead <+: part.space.key key := by
  cases part with
  | bucket dependency =>
    rw [space, bucketSpace, Namespace.nested, Namespace.key, List.append_assoc]
    exact List.prefix_append _ _
  | _ => exact List.prefix_append _ _

theorem leads_distinct : leads.Nodup := by decide +kernel

theorem length_of_mem_leads : ∀ lead ∈ leads, lead.length = 32 := by decide +kernel

/-- What lies in different ones of the five namespaces is apart. -/
theorem apart_of_rank_ne {a b : Part} (hne : a.rank ≠ b.rank) : a.space.Apart b.space := by
  have houter : a.outer.Apart b.outer := by
    have hmem : ∀ part : Part, part.outer.lead ∈ leads := fun part =>
      List.mem_of_getElem? (leads_rank part)
    refine Namespace.apart_of_lead_ne ?_ fun he => hne ?_
    · rw [length_of_mem_leads _ (hmem a), length_of_mem_leads _ (hmem b)]
    · have hlt := (List.getElem?_eq_some_iff.mp (leads_rank a)).1
      rw [← List.getElem?_inj hlt leads_distinct, leads_rank, leads_rank, he]
  have inner : ∀ {part : Part} {ns : Namespace}, part.outer.Apart ns → part.space.Apart ns := by
    intro part ns h
    cases part with
    | bucket d => exact h.nested d.bytes
    | _ => exact h
  exact inner (inner houter.symm).symm

/-- Parts that differ are apart. -/
theorem apart {ids : List JobId} (h : Hashed ids) {a b : Part} (ha : a.Of ids) (hb : b.Of ids)
    (hne : a ≠ b) : a.space.Apart b.space := by
  by_cases hr : a.rank = b.rank
  · -- Only buckets lie in the same namespace.
    obtain ⟨d, d', rfl, rfl⟩ : ∃ d d', a = .bucket d ∧ b = .bucket d' := by
      cases a <;> cases b <;> simp_all [rank]
    refine Namespace.apart_of_hash_ne dependentsSpace fun he => hne ?_
    rw [h d ha d' hb he]
  · exact apart_of_rank_ne hr

/-- All keys of a batch lie in the given parts. -/
def Within (ids : List JobId) (parts : List Part) (batch : Batch) : Prop :=
  ∀ op ∈ batch, ∃ part ∈ parts, part.Of ids ∧ ∃ k, op.key = part.space.key k

theorem within_nil {ids : List JobId} (parts : List Part) : Within ids parts [] := by
  intro op hop
  cases hop

theorem within_of_holds {ids : List JobId} (part : Part) (h : part.Of ids) {batch : Batch}
    (hb : part.space.Holds batch) : Within ids [part] batch :=
  fun op hop => ⟨part, List.mem_singleton_self part, h, hb op hop⟩

theorem holds_of_within {ids : List JobId} {part : Part} {batch : Batch}
    (h : Within ids [part] batch) : part.space.Holds batch := by
  intro op hop
  obtain ⟨other, hmem, -, hkey⟩ := h op hop
  rw [List.mem_singleton.mp hmem] at hkey
  exact hkey

/-- A batch leaves the view of every other part. -/
theorem view_apply {ids : List JobId} (h : Hashed ids) {parts : List Part} {batch : Batch}
    (hw : Within ids parts batch) (part : Part) (hpart : part.Of ids) (hout : part ∉ parts)
    (t : Table) : part.space.view (batch.apply t) = part.space.view t := by
  funext l
  refine Batch.get?_apply_of_not_mem fun op hop he => ?_
  obtain ⟨other, hmem, hother, k, hk⟩ := hw op hop
  have hne : other ≠ part := fun h => hout (h ▸ hmem)
  exact apart h hother hpart hne k l (hk.symm.trans he)

end Part

end WorkQueue.Scheduler
