import NervesInitramfs.CLib.Wp

/-!
# Refinement between computations with a state and exceptions

`Refines excused m s m' s' post stop` says that whatever `m` does from `s`, `m'` does from `s'`: when
`m` returns, so does `m'`, with results and states that `post` relates; when `m` throws, so does `m'`,
as `stop` says. `m` may also throw one of the `excused` exceptions, about which nothing is said.
-/

namespace CLib

variable {ε ε' σ σ' α α' β β' : Type}

def Refines (excused : ε → Prop) (m : EStateM ε σ α) (s : σ) (m' : EStateM ε' σ' α') (s' : σ')
    (post : α → σ → α' → σ' → Prop) (stop : ε → σ → ε' → σ' → Prop) : Prop :=
  Ensures m s (fun a t => ∃ a' t', m' s' = .ok a' t' ∧ post a t a' t')
    fun e t => excused e ∨ ∃ e' t', m' s' = .error e' t' ∧ stop e t e' t'

section

variable {excused : ε → Prop} {m : EStateM ε σ α} {m' : EStateM ε' σ' α'} {s : σ} {s' : σ'}
  {post post' : α → σ → α' → σ' → Prop} {stop stop' : ε → σ → ε' → σ' → Prop}

theorem Refines.ok (h : Refines excused m s m' s' post stop) {a : α} {t : σ}
    (hm : m s = .ok a t) : ∃ a' t', m' s' = .ok a' t' ∧ post a t a' t' := Ensures.ok h hm

theorem Refines.error (h : Refines excused m s m' s' post stop) {e : ε} {t : σ}
    (hm : m s = .error e t) :
    excused e ∨ ∃ e' t', m' s' = .error e' t' ∧ stop e t e' t' := Ensures.error h hm

/-- Where no excused exception is thrown, both end in the same way. -/
theorem Refines.both (h : Refines excused m s m' s' post stop)
    (hend : ∀ e t, m s = .error e t → ¬excused e) :
    (∃ a t a' t', m s = .ok a t ∧ m' s' = .ok a' t' ∧ post a t a' t') ∨
      ∃ e t e' t', m s = .error e t ∧ m' s' = .error e' t' ∧ stop e t e' t' := by
  cases hm : m s with
  | ok a t =>
    obtain ⟨a', t', hm', hrel⟩ := h.ok hm
    exact Or.inl ⟨a, t, a', t', rfl, hm', hrel⟩
  | error e t =>
    rcases h.error hm with he | ⟨e', t', hm', hrel⟩
    · exact absurd he (hend e t hm)
    · exact Or.inr ⟨e, t, e', t', rfl, hm', hrel⟩

theorem refines_pure {a : α} {a' : α'} (h : post a s a' s') :
    Refines excused (pure a) s (pure a') s' post stop := ⟨a', s', rfl, h⟩

theorem refines_throw {e : ε} {e' : ε'} (h : stop e s e' s') :
    Refines excused (throw e) s (throw e') s' post stop := Or.inr ⟨e', s', rfl, h⟩

theorem refines_excused {e : ε} (h : excused e) :
    Refines excused (throw e) s m' s' post stop := Or.inl h

/-- The rule of consequence. -/
theorem Refines.mono (h : Refines excused m s m' s' post stop)
    (hpost : ∀ a t a' t', post a t a' t' → post' a t a' t')
    (hstop : ∀ e t e' t', stop e t e' t' → stop' e t e' t') :
    Refines excused m s m' s' post' stop' := by
  refine Ensures.mono h ?_ ?_
  · rintro a t ⟨a', t', hm', hrel⟩
    exact ⟨a', t', hm', hpost a t a' t' hrel⟩
  · rintro e t (he | ⟨e', t', hm', hrel⟩)
    · exact Or.inl he
    · exact Or.inr ⟨e', t', hm', hstop e t e' t' hrel⟩

/-- One after the other. -/
theorem Refines.bind {f : α → EStateM ε σ β} {f' : α' → EStateM ε' σ' β'}
    {mid : α → σ → α' → σ' → Prop} {post : β → σ → β' → σ' → Prop}
    (hm : Refines excused m s m' s' mid stop)
    (hf : ∀ a t a' t', mid a t a' t' → Refines excused (f a) t (f' a') t' post stop) :
    Refines excused (m >>= f) s (m' >>= f') s' post stop := by
  refine ensures_bind.mpr (Ensures.mono hm ?_ ?_)
  · rintro a t ⟨a', t', hm', hrel⟩
    unfold Refines at hf
    rw [bind_of_ok hm']
    exact hf a t a' t' hrel
  · rintro e t (he | ⟨e', t', hm', hrel⟩)
    · exact Or.inl he
    · exact Or.inr ⟨e', t', bind_of_error hm', hrel⟩

/-- A step of the one that the other one does not have. -/
theorem refines_bind_left {f : α → EStateM ε σ β} {a : α} {t : σ} {m' : EStateM ε' σ' β'}
    {post : β → σ → β' → σ' → Prop} (hm : m s = .ok a t)
    (hf : Refines excused (f a) t m' s' post stop) :
    Refines excused (m >>= f) s m' s' post stop := (ensures_bind_of_ok hm).mpr hf

theorem refines_bind_right {f' : α' → EStateM ε' σ' β'} {v : α'} {u : σ'} {m : EStateM ε σ β}
    {post : β → σ → β' → σ' → Prop} (hm' : m' s' = .ok v u)
    (hf : Refines excused m s (f' v) u post stop) :
    Refines excused m s (m' >>= f') s' post stop := by
  unfold Refines at hf ⊢
  rwa [bind_of_ok hm']

/-- Steps of the one of which only something is known. -/
theorem Refines.bind_ensures {f : α → EStateM ε σ β} {m' : EStateM ε' σ' β'} {mid : α → σ → Prop}
    {post : β → σ → β' → σ' → Prop} (hm : Ensures m s mid fun e _ => excused e)
    (hf : ∀ a t, mid a t → Refines excused (f a) t m' s' post stop) :
    Refines excused (m >>= f) s m' s' post stop :=
  Ensures.bind (Ensures.mono hm (fun _ _ h => h) fun _ _ h => Or.inl h) hf

/-- A handler that lets the excused exceptions through. -/
theorem Refines.tryCatch {handle : ε → EStateM ε σ α} {handle' : ε' → EStateM ε' σ' α'}
    (h : Refines excused m s m' s' post stop) (hthrough : ∀ e, excused e → handle e = throw e)
    (hhandle : ∀ e t e' t', stop e t e' t' →
      Refines excused (handle e) t (handle' e') t' post stop') :
    Refines excused (tryCatch m handle) s (tryCatch m' handle') s' post stop' := by
  refine ensures_tryCatch.mpr (Ensures.mono h ?_ ?_)
  · rintro a t ⟨a', t', hm', hrel⟩
    exact ⟨a', t', tryCatch_of_ok hm', hrel⟩
  · rintro e t (he | ⟨e', t', hm', hrel⟩)
    · rw [hthrough e he]
      exact Or.inl he
    · unfold Refines at hhandle
      rw [tryCatch_of_error hm']
      exact hhandle e t e' t' hrel

/-- What is known of the one computation alone. -/
theorem Refines.and_ensures {mid : α → σ → Prop} {left : ε → σ → Prop}
    (h : Refines excused m s m' s' post stop) (hm : Ensures m s mid left) :
    Refines excused m s m' s' (fun a t a' t' => post a t a' t' ∧ mid a t) stop := by
  refine (Ensures.and h hm).mono ?_ fun _ _ he => he.1
  rintro a t ⟨⟨a', t', hm', hrel⟩, hmid⟩
  exact ⟨a', t', hm', hrel, hmid⟩

end

/-! ## Runs -/

/-- The states that a step relation leads to on a sequence of inputs. -/
inductive RunsTo {ι : Type} (step : ι → σ → σ → Prop) : σ → List ι → σ → Prop
  | nil (s : σ) : RunsTo step s [] s
  | cons {i : ι} {rest : List ι} {s t u : σ} (first : step i s t) (others : RunsTo step t rest u) :
    RunsTo step s (i :: rest) u

/-- A simulation of the steps is one of the runs. -/
theorem RunsTo.simulate {ι : Type} {step : ι → σ → σ → Prop} {step' : ι → σ' → σ' → Prop}
    {rel : σ → σ' → Prop} (hstep : ∀ i s t s', rel s s' → step i s t → ∃ t', step' i s' t' ∧ rel t t')
    {is : List ι} {s u : σ} (hrun : RunsTo step s is u) {s' : σ'} (h : rel s s') :
    ∃ u', RunsTo step' s' is u' ∧ rel u u' := by
  induction hrun generalizing s' with
  | nil s => exact ⟨s', .nil s', h⟩
  | cons first _ ih =>
    obtain ⟨t', hfirst, ht⟩ := hstep _ _ _ _ h first
    obtain ⟨u', hothers, hu⟩ := ih ht
    exact ⟨u', .cons hfirst hothers, hu⟩

end CLib
