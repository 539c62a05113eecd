import Mathlib

namespace Boltchain.Lib

/-- How a call ends: with a value, with an error that it returns, or in a panic. -/
inductive Outcome (ε α : Type) where
  | ok (a : α)
  | err (e : ε)
  | panic
  deriving DecidableEq

namespace Outcome

variable {ε α β : Type} {x : Outcome ε α} {f : α → Outcome ε β}

protected def bind (x : Outcome ε α) (f : α → Outcome ε β) : Outcome ε β :=
  match x with
  | ok a => f a
  | err e => err e
  | panic => panic

instance : Monad (Outcome ε) where
  pure := ok
  bind := Outcome.bind

/-- The call does not panic, and a value that it returns satisfies `q`. -/
inductive Safe (q : α → Prop) : Outcome ε α → Prop where
  | ok {a : α} (h : q a) : Safe q (.ok a)
  | err {e : ε} : Safe q (.err e)

variable {p : α → Prop}

variable {a : α}

@[simp] theorem safe_ok : Safe (ε := ε) p (ok a) ↔ p a := ⟨fun h => by cases h; assumption, .ok⟩

@[simp] theorem safe_pure : Safe (ε := ε) p (pure a) ↔ p a := safe_ok

@[simp] theorem safe_err {e : ε} : Safe p (err e) ↔ True := ⟨fun _ => trivial, fun _ => .err⟩

@[simp] theorem safe_bind {q : β → Prop} : Safe q (x >>= f) ↔ Safe (fun a => Safe q (f a)) x := by
  cases x with
  | ok a => exact (safe_ok (p := fun a => Safe q (f a))).symm
  | err e => exact ⟨fun _ => .err, fun _ => .err⟩
  | panic => exact ⟨nofun, nofun⟩

theorem Safe.mono {q : α → Prop} (h : Safe p x) (hpq : ∀ a, p a → q a) : Safe q x := by
  cases h with
  | ok h => exact .ok (hpq _ h)
  | err => exact .err

theorem Safe.ne_panic (h : Safe p x) : x ≠ .panic := by
  rintro rfl
  cases h

@[simp] theorem bind_ok_eq (a : α) : ((ok a : Outcome ε α) >>= f) = f a := rfl

@[simp] theorem bind_err_eq (e : ε) : ((err e : Outcome ε α) >>= f) = err e := rfl

section Machine

variable {q : α → Prop}

def okOr (o : Option α) (e : ε) : Outcome ε α :=
  match o with
  | some a => ok a
  | none => err e

variable {e : ε}

@[simp] theorem safe_okOr {o : Option α} : Safe q (okOr o e) ↔ ∀ a, o = some a → q a := by
  cases o <;> simp [okOr]

def ensure (p : Prop) [Decidable p] (e : ε) : Outcome ε Unit := if p then ok () else err e

@[simp] theorem safe_ensure {p : Prop} [Decidable p] {q : Unit → Prop} :
    Safe q (ensure p e) ↔ (p → q ()) := by
  by_cases h : p <;> simp [ensure, h]

def uadd (a b : Nat) : Outcome ε Nat := if a + b < 2 ^ 64 then ok (a + b) else panic

def umul (a b : Nat) : Outcome ε Nat := if a * b < 2 ^ 64 then ok (a * b) else panic

@[simp] theorem safe_umul {a b : Nat} {q : Nat → Prop} : Safe (ε := ε) q (umul a b) ↔ a * b < 2 ^ 64 ∧ q (a * b) := by
  unfold umul
  split
  case isTrue h => exact safe_ok.trans (and_iff_right h).symm
  case isFalse h => exact ⟨nofun, fun hq => absurd hq.1 h⟩

def udiv (a b : Nat) : Outcome ε Nat := if b = 0 then panic else ok (a / b)

@[simp] theorem safe_udiv {a b : Nat} {q : Nat → Prop} : Safe (ε := ε) q (udiv a b) ↔ b ≠ 0 ∧ q (a / b) := by
  unfold udiv
  split
  case isTrue h => exact ⟨nofun, fun hq => absurd h hq.1⟩
  case isFalse h => exact safe_ok.trans (and_iff_right h).symm

def get (d : List α) (p q : Nat) : Option (List α) :=
  if p ≤ q ∧ q ≤ d.length then some ((d.drop p).take (q - p)) else none

def slice (d : List α) (p q : Nat) : Outcome ε (List α) :=
  match get d p q with
  | some b => ok b
  | none => panic

def index (d : List α) (i : Nat) : Outcome ε α :=
  match d[i]? with
  | some a => ok a
  | none => panic

/-- Writes the elements of a range; panics unless it lies in the list and has their number. -/
def copyInto (d : List α) (p q : Nat) (b : List α) : Outcome ε (List α) :=
  if p ≤ q ∧ q ≤ d.length ∧ b.length = q - p then ok (d.take p ++ b ++ d.drop q) else panic

variable {d : List α}

theorem get_of_le {p q : Nat} (hpq : p ≤ q) (hq : q ≤ d.length) : get d p q = some ((d.drop p).take (q - p)) :=
  if_pos ⟨hpq, hq⟩

theorem slice_of_le {p q : Nat} (hpq : p ≤ q) (hq : q ≤ d.length) :
    (slice d p q : Outcome ε (List α)) = ok ((d.drop p).take (q - p)) := by
  rw [slice, get_of_le hpq hq]

variable {i : Nat}

theorem safe_index (hi : i < d.length) (h : ∀ a, q a) : Safe (ε := ε) q (index d i) := by
  rw [index, List.getElem?_eq_getElem hi]
  exact .ok (h _)

theorem safe_copyInto {b : List α} {j : Nat} {q : List α → Prop} (hij : i ≤ j) (hj : j ≤ d.length)
    (hb : b.length = j - i) (h : ∀ b, b.length = d.length → q b) : Safe (ε := ε) q (copyInto d i j b) := by
  rw [copyInto, if_pos ⟨hij, hj, hb⟩]
  refine .ok (h _ ?_)
  simp only [List.length_append, List.length_take, List.length_drop]
  omega

end Machine

end Outcome

end Boltchain.Lib
