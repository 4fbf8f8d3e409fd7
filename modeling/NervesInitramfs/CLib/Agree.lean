import NervesInitramfs.CLib.Wp

/-!
# Two runs of one computation

A computation agrees with itself for a relation of states when its runs from related states return
the same and come to related states again, or stop for the same reason in related states. The
reasons are further limited to some that are expected.
-/

namespace CLib

variable {ε σ α β : Type}

/-- The results of two runs are the same but for the states, which are related. -/
def Related (R : σ → σ → Prop) (E : ε → Prop) (r r' : EStateM.Result ε σ α) : Prop :=
  match r with
  | .ok a s => ∃ s', r' = .ok a s' ∧ R s s'
  | .error e s => ∃ s', r' = .error e s' ∧ E e ∧ R s s'

def Agree (R : σ → σ → Prop) (E : ε → Prop) (m : EStateM ε σ α) : Prop :=
  ∀ s s', R s s' → Related R E (m s) (m s')

section

variable {R : σ → σ → Prop} {E : ε → Prop}

theorem related_bind {m m' : EStateM ε σ α} {f f' : α → EStateM ε σ β} {s s' : σ}
    (hm : Related R E (m s) (m' s')) (hf : ∀ a s s', R s s' → Related R E (f a s) (f' a s')) :
    Related R E ((m >>= f) s) ((m' >>= f') s') := by
  simp only [bind, EStateM.bind]
  cases hms : m s with
  | ok a t =>
    rw [hms] at hm
    obtain ⟨t', hm', ht⟩ := hm
    rw [hm']
    exact hf a t t' ht
  | error e t =>
    rw [hms] at hm
    obtain ⟨t', hm', he, ht⟩ := hm
    rw [hm']
    exact ⟨t', rfl, he, ht⟩

theorem Agree.bind {m : EStateM ε σ α} {f : α → EStateM ε σ β} (hm : Agree R E m)
    (hf : ∀ a, Agree R E (f a)) : Agree R E (m >>= f) :=
  fun s s' h => related_bind (hm s s' h) fun a t t' ht => hf a t t' ht

theorem agree_pure (a : α) : Agree R E (pure a : EStateM ε σ α) := fun _ s' h => ⟨s', rfl, h⟩

theorem agree_throw {e : ε} (he : E e) : Agree R E (throw e : EStateM ε σ α) :=
  fun _ s' h => ⟨s', rfl, he, h⟩

/-- What is done with the state has to agree for related states. -/
theorem agree_get_bind {f : σ → EStateM ε σ α}
    (hf : ∀ s s', R s s' → Related R E (f s s) (f s' s')) : Agree R E (get >>= f) :=
  fun s s' h => hf s s' h

theorem agree_modify {f : σ → σ} (hf : ∀ s s', R s s' → R (f s) (f s')) :
    Agree R E (modify f : EStateM ε σ PUnit) :=
  fun s s' h => ⟨f s', rfl, hf s s' h⟩

end

end CLib
