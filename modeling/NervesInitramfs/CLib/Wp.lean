import Mathlib.Init

/-!
# Weakest preconditions for computations with a state and exceptions

`Ensures m s post stop` says what holds after running `m` from `s`: `post` of its result and the
final state when it returns, `stop` of the exception and the state when it throws.
-/

namespace CLib

variable {ε σ α β : Type}

def Ensures (m : EStateM ε σ α) (s : σ) (post : α → σ → Prop) (stop : ε → σ → Prop) : Prop :=
  match m s with
  | .ok a s' => post a s'
  | .error e s' => stop e s'

section

variable {m : EStateM ε σ α} {s s' : σ} {post post' : α → σ → Prop} {stop stop' : ε → σ → Prop}

theorem Ensures.ok (h : Ensures m s post stop) {a : α} (hm : m s = .ok a s') : post a s' := by
  unfold Ensures at h
  rwa [hm] at h

theorem Ensures.error (h : Ensures m s post stop) {e : ε} (hm : m s = .error e s') : stop e s' := by
  unfold Ensures at h
  rwa [hm] at h

theorem ensures_of_ok {a : α} (hm : m s = .ok a s') (h : post a s') : Ensures m s post stop := by
  unfold Ensures
  rwa [hm]

/-- Only what the computation comes to matters. -/
theorem Ensures.of_eq {m' : EStateM ε σ α} {s1 : σ} (h : Ensures m' s1 post stop)
    (heq : m s = m' s1) : Ensures m s post stop := by
  unfold Ensures at h ⊢
  rwa [heq]

theorem ensures_of_error {e : ε} (hm : m s = .error e s') (h : stop e s') :
    Ensures m s post stop := by
  unfold Ensures
  rwa [hm]

theorem ensures_true : Ensures m s (fun _ _ => True) fun _ _ => True := by
  unfold Ensures
  cases m s <;> trivial

/-- A computation ends in some way. -/
theorem not_ensures_false : ¬ Ensures m s (fun _ _ => False) fun _ _ => False := by
  unfold Ensures
  cases m s <;> exact id

/-- The rule of consequence. -/
theorem Ensures.mono (h : Ensures m s post stop) (hpost : ∀ a s', post a s' → post' a s')
    (hstop : ∀ e s', stop e s' → stop' e s') : Ensures m s post' stop' := by
  unfold Ensures at h ⊢
  cases hm : m s with
  | ok a s' =>
    rw [hm] at h
    exact hpost a s' h
  | error e s' =>
    rw [hm] at h
    exact hstop e s' h

/-- The same where only the postcondition is weakened. -/
theorem Ensures.imp (h : Ensures m s post stop) (hpost : ∀ a s', post a s' → post' a s') :
    Ensures m s post' stop := h.mono hpost fun _ _ hstop => hstop

/-- The rule of conjunction. -/
theorem Ensures.and (h : Ensures m s post stop) (h' : Ensures m s post' stop') :
    Ensures m s (fun a s' => post a s' ∧ post' a s') fun e s' => stop e s' ∧ stop' e s' := by
  unfold Ensures at h h' ⊢
  cases hm : m s with
  | ok a s' =>
    rw [hm] at h h'
    exact ⟨h, h'⟩
  | error e s' =>
    rw [hm] at h h'
    exact ⟨h, h'⟩

@[simp] theorem ensures_pure {a : α} : Ensures (pure a : EStateM ε σ α) s post stop ↔ post a s :=
  Iff.rfl

@[simp] theorem ensures_throw {e : ε} :
    Ensures (throw e : EStateM ε σ α) s post stop ↔ stop e s := Iff.rfl

@[simp] theorem ensures_bind {f : α → EStateM ε σ β} {post : β → σ → Prop} :
    Ensures (m >>= f) s post stop ↔ Ensures m s (fun a s' => Ensures (f a) s' post stop) stop := by
  unfold Ensures
  simp only [bind, EStateM.bind]
  cases m s <;> rfl

@[simp] theorem ensures_tryCatch {handle : ε → EStateM ε σ α} :
    Ensures (tryCatch m handle) s post stop ↔
      Ensures m s post fun e s' => Ensures (handle e) s' post stop := by
  unfold Ensures
  simp only [tryCatch, tryCatchThe, MonadExceptOf.tryCatch]
  delta EStateM.tryCatch
  cases m s <;> rfl

theorem tryCatch_of_ok {handle : ε → EStateM ε σ α} {a : α} (h : m s = .ok a s') :
    tryCatch m handle s = .ok a s' := by
  simp only [tryCatch, tryCatchThe, MonadExceptOf.tryCatch]
  delta EStateM.tryCatch
  simp only [h]

theorem tryCatch_of_error {handle : ε → EStateM ε σ α} {e : ε} (h : m s = .error e s') :
    tryCatch m handle s = handle e s' := by
  simp only [tryCatch, tryCatchThe, MonadExceptOf.tryCatch]
  delta EStateM.tryCatch
  simp only [h]
  rfl

/-- Other names for the exceptions. -/
@[simp] theorem ensures_adaptExcept {ε' : Type} {f : ε → ε'} {stop : ε' → σ → Prop} :
    Ensures (EStateM.adaptExcept f m) s post stop ↔ Ensures m s post fun e s' => stop (f e) s' := by
  unfold Ensures EStateM.adaptExcept
  cases m s <;> rfl

theorem Ensures.bind {f : α → EStateM ε σ β} {mid : α → σ → Prop} {post : β → σ → Prop}
    (hm : Ensures m s mid stop) (hf : ∀ a s', mid a s' → Ensures (f a) s' post stop) :
    Ensures (m >>= f) s post stop :=
  ensures_bind.mpr (hm.mono hf fun _ _ h => h)

end

section

variable {s : σ} {stop : ε → σ → Prop}

@[simp] theorem ensures_get {post : σ → σ → Prop} :
    Ensures (get : EStateM ε σ σ) s post stop ↔ post s s := Iff.rfl

@[simp] theorem ensures_set {s' : σ} {post : PUnit → σ → Prop} :
    Ensures (set s' : EStateM ε σ PUnit) s post stop ↔ post ⟨⟩ s' := Iff.rfl

@[simp] theorem ensures_modify {f : σ → σ} {post : PUnit → σ → Prop} :
    Ensures (modify f : EStateM ε σ PUnit) s post stop ↔ post ⟨⟩ (f s) := Iff.rfl

end

/-- From `x >>= f` returning, what `x` returned. -/
theorem bind_eq_ok {m : EStateM ε σ α} {f : α → EStateM ε σ β} {s s' : σ} {b : β} :
    (m >>= f) s = .ok b s' ↔ ∃ a s1, m s = .ok a s1 ∧ f a s1 = .ok b s' := by
  simp only [bind, EStateM.bind]
  cases m s with
  | ok a s1 =>
    constructor
    · intro h
      exact ⟨a, s1, rfl, h⟩
    · rintro ⟨a', s1', ⟨rfl, rfl⟩, h⟩
      exact h
  | error e s1 => simp

theorem bind_of_ok {m : EStateM ε σ α} {f : α → EStateM ε σ β} {s s1 : σ} {a : α}
    (h : m s = .ok a s1) : (m >>= f) s = f a s1 := by
  simp only [bind, EStateM.bind, h]

theorem bind_of_error {m : EStateM ε σ α} {f : α → EStateM ε σ β} {s s1 : σ} {e : ε}
    (h : m s = .error e s1) : (m >>= f) s = .error e s1 := by
  simp only [bind, EStateM.bind, h]

/-- Computations that do the same, one after the other. -/
theorem bind_congr_at {m m' : EStateM ε σ α} {f g : α → EStateM ε σ β} {s : σ} (hm : m s = m' s)
    (hf : ∀ a s1, m' s = .ok a s1 → f a s1 = g a s1) : (m >>= f) s = (m' >>= g) s := by
  cases hrun : m' s with
  | ok a s1 => rw [bind_of_ok (hm.trans hrun), bind_of_ok hrun, hf a s1 hrun]
  | error e s1 => rw [bind_of_error (hm.trans hrun), bind_of_error hrun]

theorem ensures_bind_of_ok {m : EStateM ε σ α} {f : α → EStateM ε σ β} {s s1 : σ} {a : α}
    {post : β → σ → Prop} {stop : ε → σ → Prop} (h : m s = .ok a s1) :
    Ensures (m >>= f) s post stop ↔ Ensures (f a) s1 post stop := by
  rw [ensures_bind, Ensures, h]

end CLib
