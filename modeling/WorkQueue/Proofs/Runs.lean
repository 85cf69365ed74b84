/-!
# Running actions

What an action made of smaller ones gives, read off what the smaller ones give. An action is run by
applying it to a state.
-/

namespace WorkQueue.Runs

variable {ε σ α β : Type}

/-- The state in which an action ends, with a value or an error. -/
def final : EStateM.Result ε σ α → σ
  | .ok _ s | .error _ s => s

@[simp] theorem final_ok (a : α) (s : σ) : final (.ok a s : EStateM.Result ε σ α) = s := rfl

@[simp] theorem final_error (e : ε) (s : σ) : final (.error e s : EStateM.Result ε σ α) = s := rfl

/-- What an action gives, without the state in which it ends. -/
def outcome : EStateM.Result ε σ α → Except ε α
  | .ok a _ => .ok a
  | .error e _ => .error e

@[simp] theorem outcome_ok (a : α) (s : σ) :
    outcome (.ok a s : EStateM.Result ε σ α) = .ok a := rfl

@[simp] theorem outcome_error (e : ε) (s : σ) :
    outcome (.error e s : EStateM.Result ε σ α) = .error e := rfl

/-- What actions of any type give, a value or an error. -/
def Outcome (ε : Type) := (α : Type) × Except ε α

/-- Runs an action, for what it gives and the state in which it ends. -/
def attempt (action : EStateM ε σ α) (s : σ) : Outcome ε × σ :=
  (⟨α, outcome (action s)⟩, final (action s))

/-- A result with its state seen through `f`. -/
def mapState {τ : Type} (f : σ → τ) : EStateM.Result ε σ α → EStateM.Result ε τ α
  | .ok a s => .ok a (f s)
  | .error e s => .error e (f s)

@[simp] theorem final_mapState {τ : Type} (f : σ → τ) (r : EStateM.Result ε σ α) :
    final (mapState f r) = f (final r) := by
  cases r <;> rfl

/-- A result with its value seen through `f`. -/
def mapValue (f : α → β) : EStateM.Result ε σ α → EStateM.Result ε σ β
  | .ok a s => .ok (f a) s
  | .error e s => .error e s

@[simp] theorem final_mapValue (f : α → β) (r : EStateM.Result ε σ α) :
    final (mapValue f r) = final r := by
  cases r <;> rfl

@[simp] theorem pure_apply (a : α) (s : σ) : (pure a : EStateM ε σ α) s = .ok a s := rfl

@[simp] theorem throw_apply (e : ε) (s : σ) : (throw e : EStateM ε σ α) s = .error e s := rfl

@[simp] theorem get_apply (s : σ) : (get : EStateM ε σ σ) s = .ok s s := rfl

@[simp] theorem ofExcept_ok (a : α) (s : σ) :
    (MonadExcept.ofExcept (.ok a : Except ε α) : EStateM ε σ α) s = .ok a s := rfl

@[simp] theorem ofExcept_error (e : ε) (s : σ) :
    (MonadExcept.ofExcept (.error e : Except ε α) : EStateM ε σ α) s = .error e s := rfl

@[simp] theorem outcome_ofExcept (r : Except ε α) (s : σ) :
    outcome ((MonadExcept.ofExcept r : EStateM ε σ α) s) = r := by
  cases r <;> rfl

theorem ofExcept_eq_ok {r : Except ε α} {s t : σ} {a : α} :
    (MonadExcept.ofExcept r : EStateM ε σ α) s = .ok a t ↔ t = s ∧ r = .ok a := by
  cases r with
  | ok b =>
    rw [ofExcept_ok, EStateM.Result.ok.injEq, Except.ok.injEq]
    exact and_comm.trans (and_congr_left' eq_comm)
  | error e => simp

theorem mapState_bind {τ : Type} (f : σ → τ) {x : EStateM ε σ α} {y : EStateM ε τ α}
    {g : α → EStateM ε σ β} {h : α → EStateM ε τ β} {s : σ} (hx : mapState f (x s) = y (f s))
    (hg : ∀ a t, mapState f (g a t) = h a (f t)) :
    mapState f ((x >>= g) s) = (y >>= h) (f s) := by
  show mapState f (EStateM.bind x g s) = EStateM.bind y h (f s)
  simp only [EStateM.bind]
  rw [← hx]
  cases x s with
  | ok a t => exact hg a t
  | error e t => rfl

theorem bind_apply (x : EStateM ε σ α) (f : α → EStateM ε σ β) (s : σ) :
    (x >>= f) s = match x s with
      | .ok a t => f a t
      | .error e t => .error e t := rfl

theorem discard_apply (x : EStateM ε σ α) (s : σ) :
    Functor.discard x s = match x s with
      | .ok _ t => .ok ⟨⟩ t
      | .error e t => .error e t := rfl

theorem forM_cons_apply (f : α → EStateM ε σ PUnit) (a : α) (rest : List α) (s : σ) :
    (a :: rest).forM f s = match f a s with
      | .ok _ t => rest.forM f t
      | .error e t => .error e t := by
  show (f a >>= fun _ => rest.forM f) s = _
  rw [bind_apply]
  cases f a s <;> rfl

theorem forM_append_apply (f : α → EStateM ε σ PUnit) (first second : List α) (s : σ) :
    (first ++ second).forM f s = match first.forM f s with
      | .ok _ t => second.forM f t
      | .error e t => .error e t := by
  induction first generalizing s with
  | nil => rfl
  | cons a first ih =>
    rw [List.cons_append, forM_cons_apply, forM_cons_apply]
    cases f a s with
    | ok _ t => exact ih t
    | error e t => rfl

/-- A loop succeeds if each step does where it starts. -/
theorem forM_ok {P : σ → Prop} {f : α → EStateM ε σ PUnit}
    (h : ∀ a s, P s → ∃ t, f a s = .ok ⟨⟩ t ∧ P t) (l : List α) {s : σ} (hs : P s) :
    ∃ t, l.forM f s = .ok ⟨⟩ t ∧ P t := by
  induction l generalizing s with
  | nil => exact ⟨s, rfl, hs⟩
  | cons a rest ih =>
    obtain ⟨mid, ha, hmid⟩ := h a s hs
    obtain ⟨t, hrest, ht⟩ := ih hmid
    exact ⟨t, by rw [forM_cons_apply, ha]; exact hrest, ht⟩

theorem bind_of_ok {x : EStateM ε σ α} {f : α → EStateM ε σ β} {s t : σ} {a : α}
    (h : x s = .ok a t) : (x >>= f) s = f a t := by
  rw [bind_apply, h]

theorem bind_of_error {x : EStateM ε σ α} {f : α → EStateM ε σ β} {s t : σ} {e : ε}
    (h : x s = .error e t) : (x >>= f) s = .error e t := by
  rw [bind_apply, h]

theorem bind_eq_ok {x : EStateM ε σ α} {f : α → EStateM ε σ β} {s u : σ} {b : β} :
    (x >>= f) s = .ok b u ↔ ∃ a t, x s = .ok a t ∧ f a t = .ok b u := by
  rw [bind_apply]
  cases hx : x s with
  | ok a t => exact ⟨fun h => ⟨a, t, rfl, h⟩, fun ⟨_, _, h, hf⟩ => by cases h; exact hf⟩
  | error e t => exact ⟨nofun, fun ⟨_, _, h, _⟩ => nomatch h⟩

theorem bind_eq_error {x : EStateM ε σ α} {f : α → EStateM ε σ β} {s u : σ} {e : ε} :
    (x >>= f) s = .error e u ↔
      x s = .error e u ∨ ∃ a t, x s = .ok a t ∧ f a t = .error e u := by
  rw [bind_apply]
  cases hx : x s with
  | ok a t =>
    refine ⟨fun h => .inr ⟨a, t, rfl, h⟩, ?_⟩
    rintro (h | ⟨_, _, h, hf⟩)
    · cases h
    · cases h
      exact hf
  | error e' t =>
    refine ⟨fun h => .inl (by cases h; rfl), ?_⟩
    rintro (h | ⟨_, _, h, _⟩)
    · cases h
      rfl
    · cases h

/-- An action gives a value with a property. -/
def Gives (x : EStateM ε σ α) (s : σ) (p : α → Prop) : Prop := ∃ a t, x s = .ok a t ∧ p a

theorem gives_iff {x : EStateM ε σ α} {s t : σ} {a : α} (h : x s = .ok a t) (p : α → Prop) :
    Gives x s p ↔ p a := by
  refine ⟨?_, fun hp => ⟨a, t, h, hp⟩⟩
  rintro ⟨a', t', h', hp⟩
  cases h.symm.trans h'
  exact hp

theorem tryCatch_of_ok {x : EStateM ε σ α} {handle : ε → EStateM ε σ α} {s t : σ} {a : α}
    (h : x s = .ok a t) : tryCatch x handle s = .ok a t := by
  change EStateM.tryCatch x handle s = _
  delta EStateM.tryCatch
  rw [h]

theorem tryCatch_of_error {x : EStateM ε σ α} {handle : ε → EStateM ε σ α} {s t : σ} {e : ε}
    (h : x s = .error e t) : tryCatch x handle s = handle e t := by
  change EStateM.tryCatch x handle s = _
  delta EStateM.tryCatch
  rw [h]
  rfl

/-! ## Invariants -/

/-- An action leads from states with a property to such states, whatever comes of it. -/
def Preserves (P : σ → Prop) (x : EStateM ε σ α) : Prop := ∀ s, P s → P (final (x s))

namespace Preserves

variable {P : σ → Prop} {x : EStateM ε σ α}

theorem of_ok (h : Preserves P x) {s t : σ} {a : α} (hs : P s) (hx : x s = .ok a t) : P t := by
  have ht := h s hs
  rwa [hx] at ht

theorem of_error (h : Preserves P x) {s t : σ} {e : ε} (hs : P s) (hx : x s = .error e t) :
    P t := by
  have ht := h s hs
  rwa [hx] at ht

theorem pure (a : α) : Preserves P (pure a : EStateM ε σ α) := fun _ hs => hs

theorem ofExcept (r : Except ε α) : Preserves P (MonadExcept.ofExcept r : EStateM ε σ α) := by
  intro s hs
  cases r <;> exact hs

theorem bind {f : α → EStateM ε σ β} (h : Preserves P x) (hf : ∀ a, Preserves P (f a)) :
    Preserves P (x >>= f) := by
  intro s hs
  rw [bind_apply]
  cases hx : x s with
  | ok a t => exact hf a t (h.of_ok hs hx)
  | error e t => exact h.of_error hs hx

theorem discard (h : Preserves P x) : Preserves P (Functor.discard x) :=
  h.bind fun _ => pure ()

theorem forM {f : α → EStateM ε σ PUnit} (hf : ∀ a, Preserves P (f a)) (l : List α) :
    Preserves P (l.forM f) := by
  induction l with
  | nil => exact fun _ hs => hs
  | cons a rest ih => exact (hf a).bind fun _ => ih

theorem tryCatch {handle : ε → EStateM ε σ α} (h : Preserves P x)
    (hhandle : ∀ e, Preserves P (handle e)) : Preserves P (tryCatch x handle) := by
  intro s hs
  cases hx : x s with
  | ok a t =>
    rw [tryCatch_of_ok hx]
    exact h.of_ok hs hx
  | error e t =>
    rw [tryCatch_of_error hx]
    exact hhandle e t (h.of_error hs hx)

end Preserves

/-! ## Views -/

/-- From states with a property, an action does the same on the state seen through `f`, and ends in
what is seen of where it ends otherwise. -/
def Commutes (P : σ → Prop) (f : σ → σ) (x : EStateM ε σ α) : Prop :=
  ∀ s, P s → mapState f (x s) = x (f s)

namespace Commutes

variable {P : σ → Prop} {f : σ → σ} {x : EStateM ε σ α}

theorem pure (a : α) : Commutes P f (pure a : EStateM ε σ α) := fun _ _ => rfl

theorem ofExcept (r : Except ε α) :
    Commutes P f (MonadExcept.ofExcept r : EStateM ε σ α) := by
  intro s _
  cases r <;> rfl

theorem bind {g : α → EStateM ε σ β} (hx : Commutes P f x) (hP : Preserves P x)
    (hg : ∀ a, Commutes P f (g a)) : Commutes P f (x >>= g) := by
  intro s hs
  rw [bind_apply, bind_apply, ← hx s hs]
  cases hrun : x s with
  | ok a t => exact hg a t (hP.of_ok hs hrun)
  | error e t => rfl

theorem discard (hx : Commutes P f x) : Commutes P f (Functor.discard x) := by
  intro s hs
  rw [discard_apply, discard_apply, ← hx s hs]
  cases x s <;> rfl

theorem forM {g : α → EStateM ε σ PUnit} (hg : ∀ a, Commutes P f (g a))
    (hP : ∀ a, Preserves P (g a)) (l : List α) : Commutes P f (l.forM g) := by
  induction l with
  | nil => exact pure _
  | cons a rest ih => exact (hg a).bind (hP a) fun _ => ih

theorem tryCatch {handle : ε → EStateM ε σ α} (hx : Commutes P f x) (hP : Preserves P x)
    (hhandle : ∀ e, Commutes P f (handle e)) : Commutes P f (tryCatch x handle) := by
  intro s hs
  have hf := hx s hs
  cases hrun : x s with
  | ok a t =>
    rw [hrun] at hf
    rw [tryCatch_of_ok hrun, tryCatch_of_ok hf.symm]
    rfl
  | error e t =>
    rw [hrun] at hf
    rw [tryCatch_of_error hrun, tryCatch_of_error hf.symm]
    exact hhandle e t (hP.of_error hs hrun)

end Commutes

/-! ## Errors -/

/-- The errors of an action have a property. -/
def Raises (P : ε → Prop) (x : EStateM ε σ α) : Prop := ∀ s e t, x s = .error e t → P e

namespace Raises

variable {P : ε → Prop} {x : EStateM ε σ α}

theorem pure (a : α) : Raises P (pure a : EStateM ε σ α) := nofun

theorem ofExcept {r : Except ε α} (h : ∀ e, r = .error e → P e) :
    Raises P (MonadExcept.ofExcept r : EStateM ε σ α) := by
  intro s e t hx
  cases r with
  | ok a => cases hx
  | error e =>
    cases hx
    exact h e rfl

theorem bind {f : α → EStateM ε σ β} (h : Raises P x) (hf : ∀ a, Raises P (f a)) :
    Raises P (x >>= f) := by
  intro s e u hx
  rcases bind_eq_error.mp hx with hx | ⟨a, t, -, hx⟩
  · exact h s e u hx
  · exact hf a t e u hx

theorem discard (h : Raises P x) : Raises P (Functor.discard x) := h.bind fun _ => pure ()

theorem mapM {f : α → EStateM ε σ β} (hf : ∀ a, Raises P (f a)) (l : List α) :
    Raises P (l.mapM f) := by
  induction l with
  | nil => exact pure []
  | cons a rest ih =>
    rw [List.mapM_cons]
    exact (hf a).bind fun _ => ih.bind fun _ => pure _

end Raises

end WorkQueue.Runs
