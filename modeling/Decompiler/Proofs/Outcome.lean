import Mathlib.Tactic
/-!
# Taking runs apart

A run that succeeds is a chain of steps that succeed. The lemmas split such a run at its first step,
for computations that change a state and for plain ones, and carry an invariant through a loop over
a list. For computations that may fail, `Meets` and `Does` say at once what holds of the result and
what of the cause of a failure. A property of the state that a computation keeps, whether it
succeeds or fails, is kept by what is made of it (`Keeps`).
-/

namespace Decompiler

open List

section Stateful

variable {ε σ α β : Type} {s s'' : σ} {x : EStateM ε σ α} {f : α → EStateM ε σ β} {a : α} {s' : σ}
  {handle : ε → EStateM ε σ α}

theorem bind_eq_ok {b : β} :
    (x >>= f) s = .ok b s'' ↔ ∃ a s', x s = .ok a s' ∧ f a s' = .ok b s'' := by
  constructor
  · intro h
    simp only [bind, EStateM.bind] at h
    cases hx : x s with
    | ok a s' =>
      rw [hx] at h
      exact ⟨a, s', rfl, h⟩
    | error e s' =>
      rw [hx] at h
      cases h
  · rintro ⟨a, s', hx, hf⟩
    simp only [bind, EStateM.bind, hx, hf]

theorem pure_eq_ok {b : α} : (pure a : EStateM ε σ α) s = .ok b s'' ↔ a = b ∧ s = s'' := by
  constructor
  · intro h
    cases h
    exact ⟨rfl, rfl⟩
  · rintro ⟨rfl, rfl⟩
    rfl

theorem get_eq_ok {a : σ} : (get : EStateM ε σ σ) s = .ok a s'' ↔ s = a ∧ s = s'' := by
  constructor
  · intro h
    cases h
    exact ⟨rfl, rfl⟩
  · rintro ⟨rfl, rfl⟩
    rfl

/-- Reading the state leaves it as it is. -/
theorem get_bind_apply {f : σ → EStateM ε σ α} : ((get : EStateM ε σ σ) >>= f) s = f s s := rfl

/-- Changing the state does nothing else. -/
theorem modify_bind_apply {g : σ → σ} {f : PUnit → EStateM ε σ α} :
    ((modify g : EStateM ε σ PUnit) >>= f) s = f () (g s) := rfl

/-- After a first step that succeeds, a computation goes on from where that ends. -/
theorem bind_of_ok (h : x s = .ok a s') : (x >>= f) s = f a s' := by
  simp only [bind, EStateM.bind, h]

theorem bind_of_error {e : ε} (h : x s = .error e s') : (x >>= f) s = .error e s' := by
  simp only [bind, EStateM.bind, h]

theorem map_eq_ok {f : α → β} {b : β} :
    (f <$> x) s = .ok b s'' ↔ ∃ a, x s = .ok a s'' ∧ f a = b := by
  simp only [Functor.map, EStateM.map]
  cases x s with
  | ok a s' =>
    constructor
    · intro h
      cases h
      exact ⟨a, rfl, rfl⟩
    · rintro ⟨a, h, rfl⟩
      cases h
      rfl
  | error e s' =>
    constructor
    · intro h
      cases h
    · rintro ⟨a, h, -⟩
      cases h

/-- What is guarded by a handler succeeds by itself, or fails and the handler succeeds. -/
theorem tryCatch_eq_ok :
    (tryCatch x handle) s = .ok a s'' ↔
      x s = .ok a s'' ∨ ∃ e s', x s = .error e s' ∧ handle e s' = .ok a s'' := by
  simp only [tryCatch, tryCatchThe, MonadExceptOf.tryCatch, EStateM.tryCatch]
  cases hx : x s with
  | ok b s' => simp
  | error e s' =>
    constructor
    · intro h
      exact .inr ⟨e, s', rfl, h⟩
    · rintro (h | ⟨e', s₁, h, hhandle⟩)
      · cases h
      · cases h
        exact hhandle

/-- A failure is left to the handler. -/
theorem tryCatch_of_error {e : ε} (h : x s = .error e s') :
    (tryCatch x handle) s = handle e s' := by
  simp only [tryCatch, tryCatchThe, MonadExceptOf.tryCatch, EStateM.tryCatch, h]
  rfl

/-- A computation ends with a value and a state of one kind, or fails for a cause of another. -/
def Does (P : α → σ → Prop) (Q : ε → Prop) : EStateM.Result ε σ α → Prop
  | .ok a s => P a s
  | .error e _ => Q e

variable {P : α → σ → Prop} {Q : ε → Prop} {R : β → σ → Prop}

theorem Does.bind (hx : Does P Q (x s)) (hf : ∀ a s', P a s' → Does R Q (f a s')) :
    Does R Q ((x >>= f) s) := by
  simp only [Bind.bind, EStateM.bind]
  cases h : x s with
  | ok a s' =>
    rw [h] at hx
    exact hf a s' hx
  | error e s' =>
    rw [h] at hx
    exact hx

theorem Does.mono {P' : α → σ → Prop} {Q' : ε → Prop} {r : EStateM.Result ε σ α} (h : Does P Q r)
    (hP : ∀ a s, P a s → P' a s) (hQ : ∀ e, Q e → Q' e) : Does P' Q' r := by
  cases r with
  | ok a s => exact hP a s h
  | error e s => exact hQ e h

/-! ## What a computation keeps -/

/-- The state in which a computation ends. -/
def endState : EStateM.Result ε σ α → σ
  | .ok _ s => s
  | .error _ s => s

/-- A computation keeps a property of the state, whether it succeeds or fails. -/
def Keeps (I : σ → Prop) (x : EStateM ε σ α) : Prop := ∀ s, I s → I (endState (x s))

variable {I : σ → Prop}

theorem Keeps.of_ok (h : Keeps I x) (hs : I s) (hx : x s = .ok a s') : I s' := by
  have hend := h s hs
  rw [hx] at hend
  exact hend

theorem Keeps.pure (a : α) : Keeps I (pure a : EStateM ε σ α) := fun _ hs => hs

theorem Keeps.throw (e : ε) : Keeps I (throw e : EStateM ε σ α) := fun _ hs => hs

theorem Keeps.get : Keeps I (MonadState.get : EStateM ε σ σ) := fun _ hs => hs

theorem Keeps.modify {f : σ → σ} (h : ∀ s, I s → I (f s)) :
    Keeps I (modify f : EStateM ε σ PUnit) := h

/-- What comes after a first step need only be looked at in the states in which that succeeds. -/
theorem endState_bind (hx : I (endState (x s)))
    (hf : ∀ a s', x s = .ok a s' → I s' → I (endState (f a s'))) : I (endState ((x >>= f) s)) := by
  simp only [bind, EStateM.bind]
  cases h : x s with
  | ok a s' =>
    rw [h] at hx
    exact hf a s' h hx
  | error e s' =>
    rw [h] at hx
    exact hx

theorem Keeps.bind (hx : Keeps I x) (hf : ∀ a, Keeps I (f a)) : Keeps I (x >>= f) :=
  fun s hs => endState_bind (hx s hs) fun a s' _ hs' => hf a s' hs'

theorem Keeps.map (f : α → β) (hx : Keeps I x) : Keeps I (f <$> x) := by
  rw [map_eq_pure_bind]
  exact hx.bind fun a => Keeps.pure (f a)

/-- What a computation makes of the state that it reads. -/
theorem Keeps.get_bind {f : σ → EStateM ε σ α} (h : ∀ s, I s → I (endState (f s s))) :
    Keeps I ((MonadState.get : EStateM ε σ σ) >>= f) := h

theorem Keeps.tryCatch (hx : Keeps I x) (hh : ∀ e, Keeps I (handle e)) :
    Keeps I (tryCatch x handle) := by
  intro s hs
  have hend := hx s hs
  simp only [MonadExcept.tryCatch, tryCatchThe, MonadExceptOf.tryCatch, EStateM.tryCatch]
  cases h : x s with
  | ok a s' =>
    rw [h] at hend
    exact hend
  | error e s' =>
    rw [h] at hend
    exact hh e s' hend

end Stateful

section Plain

variable {ε α β : Type} {x : Except ε α}

theorem Except.bind_eq_ok {f : α → Except ε β} {b : β} :
    (x >>= f) = .ok b ↔ ∃ a, x = .ok a ∧ f a = .ok b := by
  cases x with
  | ok a | error e => simp [bind, Except.bind]

/-- An invariant that every step of a loop keeps holds at its end. -/
theorem foldlM_invariant {σ : Type} {f : σ → α → Except ε σ} (P : σ → Prop) {l : List α} {s s' : σ}
    (hstep : ∀ s a s', a ∈ l → P s → f s a = .ok s' → P s') (hs : P s) (h : l.foldlM f s = .ok s') :
    P s' := by
  induction l generalizing s with
  | nil =>
    cases h
    exact hs
  | cons a rest ih =>
    rw [foldlM_cons, Except.bind_eq_ok] at h
    obtain ⟨s₁, h₁, hrest⟩ := h
    exact ih (fun s b s' hb => hstep s b s' (mem_cons_of_mem a hb))
      (hstep s a s₁ (.head _) hs h₁) hrest

/-! ## Results and causes of failure -/

/-- A computation gives a value with one property or fails for a cause with another. -/
def Meets (P : α → Prop) (Q : ε → Prop) : Except ε α → Prop
  | .ok a => P a
  | .error e => Q e

variable {P : α → Prop} {Q : ε → Prop} {R : β → Prop}

theorem Meets.bind {f : α → Except ε β} (hx : Meets P Q x) (hf : ∀ a, P a → Meets R Q (f a)) :
    Meets R Q (x >>= f) := by
  cases x with
  | ok a => exact hf a hx
  | error e => exact hx

theorem Meets.mono {P' : α → Prop} (hx : Meets P Q x) (hP : ∀ a, P a → P' a) : Meets P' Q x := by
  cases x with
  | ok a => exact hP a hx
  | error e => exact hx

theorem Meets.mono_error {Q' : ε → Prop} (hx : Meets P Q x) (hQ : ∀ e, Q e → Q' e) :
    Meets P Q' x := by
  cases x with
  | ok a => exact hx
  | error e => exact hQ e hx

/-- A loop every step of which keeps an invariant or fails for an admitted cause. -/
theorem Meets.foldlM {f : α → β → Except ε α} : ∀ {l : List β} {a : α}, P a →
    (∀ a b, b ∈ l → P a → Meets P Q (f a b)) → Meets P Q (l.foldlM f a) := by
  intro l
  induction l with
  | nil => intro a ha _; exact ha
  | cons b rest ih =>
    intro a ha hstep
    rw [foldlM_cons]
    exact (hstep a b (.head _) ha).bind fun a' ha' =>
      ih ha' fun a c hc => hstep a c (mem_cons_of_mem b hc)

end Plain

end Decompiler
