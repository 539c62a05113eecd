import Mathlib

namespace Boltchain.Lib.Action

variable {ε σ α β : Type}

section Except

def ensure (b : Bool) (e : ε) : Except ε Unit := if b then .ok () else .error e

def orThrow (o : Option α) (e : ε) : Except ε α := o.elim (.error e) .ok

variable {x : Except ε α} {f : α → Except ε β} {b : β} {e : ε} {c : Bool} {o : Option α} {a : α}

theorem bind_eq_ok : (x >>= f) = .ok b ↔ ∃ a, x = .ok a ∧ f a = .ok b := by
  cases x with
  | error e => simp [bind, Except.bind]
  | ok a => simp [bind, Except.bind]

@[simp] theorem ensure_eq_ok {u : Unit} : ensure c e = .ok u ↔ c = true := by
  cases c <;> simp [ensure]

theorem ensure_ok (h : c = true) : ensure c e = .ok () := ensure_eq_ok.2 h

@[simp] theorem orThrow_eq_ok : orThrow o e = .ok a ↔ o = some a := by
  cases o <;> simp [orThrow]

@[simp] theorem ok_bind (a : α) (f : α → Except ε β) : (Except.ok a >>= f) = f a := rfl

@[simp] theorem error_bind (e : ε) (f : α → Except ε β) : (Except.error e >>= f) = .error e := rfl

end Except

def lift (x : Except ε α) : EStateM ε σ α := fun s =>
  match x with
  | .ok a => .ok a s
  | .error e => .error e s

/-- What holds after a run of `m` from `s`: `Q` if it succeeds, `E` if it fails. A failed run keeps
the state it has reached. -/
def Ends (m : EStateM ε σ α) (s : σ) (Q : α → σ → Prop) (E : ε → σ → Prop) : Prop :=
  match m s with
  | .ok a s' => Q a s'
  | .error e s' => E e s'

section

variable {m : EStateM ε σ α} {f : α → EStateM ε σ β} {s s' : σ} {a : α} {e : ε}

theorem bind_of_ok (h : m s = .ok a s') : (m >>= f) s = f a s' := by
  simp only [bind, EStateM.bind, h]

theorem bind_of_error (h : m s = .error e s') : (m >>= f) s = .error e s' := by
  simp only [bind, EStateM.bind, h]

theorem bind_ok {b : β} {t : σ} (h : (m >>= f) s = .ok b t) :
    ∃ a s', m s = .ok a s' ∧ f a s' = .ok b t := by
  cases hm : m s with
  | ok a s' => exact ⟨a, s', rfl, by rwa [bind_of_ok hm] at h⟩
  | error e s' => rw [bind_of_error hm] at h; cases h

theorem get_bind (f : σ → EStateM ε σ β) : ((get : EStateM ε σ σ) >>= f) s = f s s := rfl

theorem modify_bind (g : σ → σ) (f : PUnit → EStateM ε σ β) :
    ((modify g : EStateM ε σ PUnit) >>= f) s = f ⟨⟩ (g s) := rfl

variable {x : Except ε α}

theorem lift_bind (h : x = .ok a) : (lift x >>= f) s = f a s := by
  subst h
  rfl

theorem lift_bind_error (h : x = .error e) : (lift x >>= f) s = .error e s := by
  subst h
  rfl

theorem lift_eq_ok (h : (lift x : EStateM ε σ α) s = .ok a s') : x = .ok a ∧ s' = s := by
  cases x with
  | ok a => cases h; exact ⟨rfl, rfl⟩
  | error e => cases h

variable {Q Q' : α → σ → Prop} {E E' : ε → σ → Prop}

theorem Ends.bind {R : β → σ → Prop} (h : Ends m s (fun a t => Ends (f a) t R E) E) :
    Ends (m >>= f) s R E := by
  unfold Ends at h ⊢
  cases hm : m s with
  | ok a t => rw [bind_of_ok hm]; rw [hm] at h; exact h
  | error e t => rw [bind_of_error hm]; rw [hm] at h; exact h

theorem Ends.mono (h : Ends m s Q E) (hQ : ∀ a t, Q a t → Q' a t) (hE : ∀ e t, E e t → E' e t) :
    Ends m s Q' E' := by
  unfold Ends at h ⊢
  cases hm : m s with
  | ok a t => rw [hm] at h; exact hQ a t h
  | error e t => rw [hm] at h; exact hE e t h

theorem Ends.lift (hQ : ∀ a, x = .ok a → Q a s) (hE : ∀ e, x = .error e → E e s) :
    Ends (Action.lift x) s Q E := by
  cases x with
  | ok a => exact hQ a rfl
  | error e => exact hE e rfl

theorem Ends.of_ok (h : Ends m s Q E) (hm : m s = .ok a s') : Q a s' := by
  unfold Ends at h
  rwa [hm] at h

theorem Ends.of_error (h : Ends m s Q E) (hm : m s = .error e s') : E e s' := by
  unfold Ends at h
  rwa [hm] at h

end

def Keeps (I : σ → Prop) (m : EStateM ε σ α) : Prop := ∀ s, I s → Ends m s (fun _ => I) (fun _ => I)

section

variable {I : σ → Prop} {m : EStateM ε σ α} {f : α → EStateM ε σ β}

theorem Keeps.bind (hm : Keeps I m) (hf : ∀ a, Keeps I (f a)) : Keeps I (m >>= f) :=
  fun s hs => Ends.bind ((hm s hs).mono (fun a t ht => hf a t ht) fun _ _ ht => ht)

theorem Keeps.pure (a : α) : Keeps I (Pure.pure a : EStateM ε σ α) := fun _ hs => hs

theorem Keeps.throw (e : ε) : Keeps I (MonadExcept.throw e : EStateM ε σ α) := fun _ hs => hs

theorem Keeps.modify {g : σ → σ} (hg : ∀ s, I s → I (g s)) : Keeps I (modify g : EStateM ε σ PUnit) := hg

end

end Boltchain.Lib.Action
