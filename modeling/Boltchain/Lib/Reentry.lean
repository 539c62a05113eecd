import Mathlib

namespace Boltchain.Lib.Reentry

/-- A call of a contract in progress: it has ended in a state, it has failed, or it hands control to
the account `dest`. There it goes on in a state after `sent` if the account accepts, and in `s` if it
refuses. -/
inductive Code (ρ σ α : Type) where
  | ret (s : σ) (a : α)
  | revert
  | send (dest : ρ) (s sent : σ) (k : σ → Bool → Code ρ σ α)

def Call (ρ σ α : Type) := σ → Code ρ σ α

variable {ρ σ α β ι : Type}

def Code.bind : Code ρ σ α → (α → Call ρ σ β) → Code ρ σ β
  | .ret s a, f => f a s
  | .revert, _ => .revert
  | .send dest s sent k, f => .send dest s sent fun s' b => (k s' b).bind f

namespace Call

instance : Monad (Call ρ σ) where
  pure a := fun s => .ret s a
  bind x f := fun s => (x s).bind f

def get : Call ρ σ σ := fun s => .ret s s

def set (s : σ) : Call ρ σ Unit := fun _ => .ret s ()

def lift (o : Option α) : Call ρ σ α := fun s => o.elim .revert (.ret s)

def update (f : σ → Option σ) : Call ρ σ Unit := fun s => (f s).elim .revert fun s' => .ret s' ()

def require (p : Prop) [Decidable p] : Call ρ σ Unit := fun s => if p then .ret s () else .revert

/-- Hands control to `dest`, moving to it what `move` says; whether it accepted. -/
def send (dest : ρ) (move : σ → Option σ) : Call ρ σ Bool := fun s =>
  match move s with
  | some sent => .send dest s sent .ret
  | none => .ret s false

end Call

section Semantics

variable (refuses : ρ → Prop) (entry : ι → Call ρ σ Unit) (ok : ι → σ → Prop)

mutual

/-- How a call in progress can end. An account that has control makes any calls `entry` before it
accepts; one that refuses undoes what it has done. -/
inductive Finishes : Code ρ σ Unit → σ → Prop
  | ret (s : σ) : Finishes (.ret s ()) s
  | accepted {dest : ρ} {s sent s₁ s₂ : σ} {k : σ → Bool → Code ρ σ Unit} :
      Reaches sent s₁ → Finishes (k s₁ true) s₂ → Finishes (.send dest s sent k) s₂
  | refused {dest : ρ} {s sent s₁ : σ} {k : σ → Bool → Code ρ σ Unit} :
      refuses dest → Finishes (k s false) s₁ → Finishes (.send dest s sent k) s₁

/-- The states that calls `entry` can lead to, each made in a state where it is `ok`. -/
inductive Reaches : σ → σ → Prop
  | refl (s : σ) : Reaches s s
  | call {s s₁ s₂ : σ} (i : ι) : Reaches s s₁ → ok i s₁ → Finishes (entry i s₁) s₂ → Reaches s s₂

end

/-- The states that calls of transactions, `top`, and steps of the environment between them lead to. -/
inductive Run (top : ι → σ → Prop) (tick : σ → σ → Prop) : σ → σ → Prop
  | refl (s : σ) : Run top tick s s
  | call {s s₁ s₂ : σ} (i : ι) :
      Run top tick s s₁ → top i s₁ → Finishes refuses entry ok (entry i s₁) s₂ → Run top tick s s₂
  | tick {s s₁ s₂ : σ} : Run top tick s s₁ → tick s₁ s₂ → Run top tick s s₂

end Semantics

section Logic

variable {refuses : ρ → Prop} {P : σ → Prop} {G : σ → σ → Prop}

/-- The call hands control away in states with `P` only, and `Q` holds when it ends, provided that
`G` holds between the states in which control goes and comes back. -/
def Code.Ends (refuses : ρ → Prop) (P : σ → Prop) (G : σ → σ → Prop) (Q : α → σ → Prop) : Code ρ σ α → Prop
  | .ret s a => Q a s
  | .revert => True
  | .send dest s sent k => P sent ∧ (∀ s', G sent s' → (k s' true).Ends refuses P G Q) ∧
      (refuses dest → (k s false).Ends refuses P G Q)

/-- The call keeps an invariant, also whenever it hands control away. -/
abbrev Code.Keeps (refuses : ρ → Prop) (I : σ → Prop) (c : Code ρ σ Unit) : Prop :=
  c.Ends refuses I (fun _ => I) fun _ => I

theorem Code.Ends.mono {Q Q' : α → σ → Prop} {c : Code ρ σ α} (h : c.Ends refuses P G Q)
    (hQ : ∀ a s, Q a s → Q' a s) : c.Ends refuses P G Q' := by
  induction c with
  | ret s a => exact hQ a s h
  | revert => trivial
  | send dest s sent k ih =>
    obtain ⟨hsent, hback, hrefused⟩ := h
    exact ⟨hsent, fun s' hs' => ih s' true (hback s' hs'), fun hr => ih s false (hrefused hr)⟩

theorem Code.ends_bind {Q : β → σ → Prop} {c : Code ρ σ α} {f : α → Call ρ σ β} :
    (c.bind f).Ends refuses P G Q ↔ c.Ends refuses P G fun a s => (f a s).Ends refuses P G Q := by
  induction c with
  | ret s a => rfl
  | revert => rfl
  | send dest s sent k ih =>
    refine and_congr Iff.rfl (and_congr (forall_congr' fun s' => ?_) ?_)
    · exact imp_congr_right fun _ => ih s' true
    · exact imp_congr_right fun _ => ih s false

namespace Call

variable {Q : α → σ → Prop} {s : σ}

@[simp]
theorem ends_pure {a : α} : ((pure a : Call ρ σ α) s).Ends refuses P G Q ↔ Q a s := Iff.rfl

@[simp]
theorem ends_bind {Q : β → σ → Prop} {x : Call ρ σ α} {f : α → Call ρ σ β} :
    ((x >>= f) s).Ends refuses P G Q ↔ (x s).Ends refuses P G fun a s => (f a s).Ends refuses P G Q :=
  Code.ends_bind

@[simp]
theorem ends_get {Q : σ → σ → Prop} : ((get : Call ρ σ σ) s).Ends refuses P G Q ↔ Q s s := Iff.rfl

@[simp]
theorem ends_set {Q : Unit → σ → Prop} {s' : σ} : ((set s' : Call ρ σ Unit) s).Ends refuses P G Q ↔ Q () s' := Iff.rfl

@[simp]
theorem ends_lift {o : Option α} : ((lift o : Call ρ σ α) s).Ends refuses P G Q ↔ ∀ a, o = some a → Q a s := by
  cases o <;> simp [lift, Code.Ends]

@[simp]
theorem ends_update {Q : Unit → σ → Prop} {f : σ → Option σ} :
    ((update f : Call ρ σ Unit) s).Ends refuses P G Q ↔ ∀ s', f s = some s' → Q () s' := by
  cases h : f s <;> simp [update, h, Code.Ends]

@[simp]
theorem ends_require {Q : Unit → σ → Prop} {p : Prop} [Decidable p] :
    ((require p : Call ρ σ Unit) s).Ends refuses P G Q ↔ (p → Q () s) := by
  by_cases h : p <;> simp [require, h, Code.Ends]

theorem ends_send {Q : Bool → σ → Prop} {dest : ρ} {move : σ → Option σ}
    (hsent : ∀ sent, move s = some sent → P sent ∧ ∀ s', G sent s' → Q true s')
    (hrefused : refuses dest → Q false s) (hshort : move s = none → Q false s) :
    ((send dest move : Call ρ σ Bool) s).Ends refuses P G Q := by
  unfold send
  cases h : move s with
  | none => exact hshort h
  | some sent => exact ⟨(hsent sent h).1, (hsent sent h).2, hrefused⟩

end Call

section Finishes

variable {entry : ι → Call ρ σ Unit} {ok : ι → σ → Prop} {s s' : σ}

theorem finishes_update (f : σ → Option σ) :
    Finishes refuses entry ok ((Call.update f : Call ρ σ Unit) s) s' ↔ f s = some s' := by
  unfold Call.update
  constructor
  · intro h
    cases hf : f s with
    | none =>
      rw [hf] at h
      cases h
    | some t =>
      rw [hf] at h
      cases h
      rfl
  · intro h
    rw [h]
    exact .ret s'

theorem finishes_bind {c : Code ρ σ Unit} {f : Unit → Call ρ σ Unit} :
    Finishes refuses entry ok (c.bind f) s' ↔
      ∃ t, Finishes refuses entry ok c t ∧ Finishes refuses entry ok (f () t) s' := by
  constructor
  · intro h
    induction c with
    | ret s a => exact ⟨s, .ret s, h⟩
    | revert => cases h
    | send dest s sent k ih =>
      cases h with
      | accepted hr hf =>
        obtain ⟨t, ht, hft⟩ := ih _ true hf
        exact ⟨t, .accepted hr ht, hft⟩
      | refused hr hf =>
        obtain ⟨t, ht, hft⟩ := ih _ false hf
        exact ⟨t, .refused hr ht, hft⟩
  · rintro ⟨t, ht, hft⟩
    induction c with
    | ret s a =>
      cases ht
      exact hft
    | revert => cases ht
    | send dest s sent k ih =>
      cases ht with
      | accepted hr hf => exact .accepted hr (ih _ true hf)
      | refused hr hf => exact .refused hr (ih _ false hf)

end Finishes

/-- A guarantee that calls made one after the other give together; it implies `P` afterwards. -/
structure Guarantee (P : σ → Prop) (G : σ → σ → Prop) : Prop where
  refl : ∀ s, P s → G s s
  trans : ∀ s₁ s₂ s₃, G s₁ s₂ → G s₂ s₃ → G s₁ s₃
  post : ∀ s s', G s s' → P s'

theorem Guarantee.ofInvariant (I : σ → Prop) : Guarantee I fun _ => I := ⟨fun _ h => h, fun _ _ _ _ h => h, fun _ _ h => h⟩

variable {entry : ι → Call ρ σ Unit} {ok top : ι → σ → Prop} {tick : σ → σ → Prop}

mutual

theorem Finishes.ends (hG : Guarantee P G)
    (hentry : ∀ i s, P s → ok i s → (entry i s).Ends refuses P G fun _ => G s) {c : Code ρ σ Unit} {s' : σ}
    {Q : Unit → σ → Prop} : Finishes refuses entry ok c s' → c.Ends refuses P G Q → Q () s'
  | .ret _, h => h
  | .accepted hr hf, h => hf.ends hG hentry (h.2.1 _ (hr.guarantees hG hentry h.1))
  | .refused hr hf, h => hf.ends hG hentry (h.2.2 hr)

theorem Reaches.guarantees (hG : Guarantee P G)
    (hentry : ∀ i s, P s → ok i s → (entry i s).Ends refuses P G fun _ => G s) {s s' : σ} :
    Reaches refuses entry ok s s' → P s → G s s'
  | .refl _, h => hG.refl _ h
  | .call i hr hok hf, h =>
    have h₁ := hr.guarantees hG hentry h
    hG.trans _ _ _ h₁ (hf.ends hG hentry (hentry i _ (hG.post _ _ h₁) hok))

end

theorem Run.keeps (hG : Guarantee P G) (hentry : ∀ i s, P s → ok i s → (entry i s).Ends refuses P G fun _ => G s)
    (htop : ∀ i s, P s → top i s → (entry i s).Ends refuses P G fun _ => P)
    (htick : ∀ s s', P s → tick s s' → P s') {s s' : σ} (h : Run refuses entry ok top tick s s') (hs : P s) : P s' := by
  induction h with
  | refl => exact hs
  | call i _ hok hf ih => exact hf.ends hG hentry (htop i _ ih hok)
  | tick _ ht ih => exact htick _ _ ih ht

theorem Run.invariant {I : σ → Prop} (hentry : ∀ i s, I s → ok i s → (entry i s).Keeps refuses I)
    (htick : ∀ s s', I s → tick s s' → I s') {s s' : σ} (h : Run refuses entry ok ok tick s s') (hs : I s) : I s' :=
  h.keeps (.ofInvariant I) hentry hentry htick hs

theorem Run.trans {s s₁ s₂ : σ} (h : Run refuses entry ok top tick s s₁) (h' : Run refuses entry ok top tick s₁ s₂) :
    Run refuses entry ok top tick s s₂ := by
  induction h' with
  | refl => exact h
  | call i _ hok hf ih => exact .call i ih hok hf
  | tick _ ht ih => exact .tick ih ht

end Logic

section Record

variable {η : Type}

/-- The call, on a state that carries a record next to it: the call itself writes nothing, calls made
while it has handed control away may. -/
def Code.framed (h : η) : Code ρ σ α → Code ρ (σ × η) α
  | .ret s a => .ret (s, h) a
  | .revert => .revert
  | .send dest s sent k => .send dest (s, h) (sent, h) fun d b => (k d.1 b).framed d.2

theorem Code.framed_keeps {refuses : ρ → Prop} {I : η → Prop} {c : Code ρ σ Unit} {h : η} (hI : I h) :
    (c.framed h).Keeps refuses fun d => I d.2 := by
  induction c generalizing h with
  | ret s a => exact hI
  | revert => trivial
  | send dest s sent k ih => exact ⟨hI, fun d hd => ih d.1 true hd, fun _ => ih s false hI⟩

end Record

end Boltchain.Lib.Reentry
