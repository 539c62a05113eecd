import Mathlib

namespace Boltchain.Lib.TwoChain

variable {V β : Type}

def Descends (par : β → β) (b a : β) : Prop := ∃ k, par^[k] b = a

namespace Descends

variable {par : β → β} {a b c : β}

theorem refl (b : β) : Descends par b b := ⟨0, rfl⟩

theorem parent (b : β) : Descends par b (par b) := ⟨1, rfl⟩

theorem trans (h : Descends par b a) (h' : Descends par c b) : Descends par c a := by
  obtain ⟨k, rfl⟩ := h
  obtain ⟨l, rfl⟩ := h'
  exact ⟨k + l, Function.iterate_add_apply par k l c⟩

theorem of_parent (h : Descends par (par b) a) : Descends par b a := h.trans (parent b)

theorem mem_of_closed {A : List β} (h : Descends par b a) (hb : b ∈ A) (hA : ∀ x ∈ A, par x ∈ A) :
    a ∈ A := by
  obtain ⟨k, rfl⟩ := h
  induction k with
  | zero => exact hb
  | succ k ih =>
    rw [Function.iterate_succ_apply']
    exact hA _ ih

theorem comparable (h : Descends par c a) (h' : Descends par c b) :
    Descends par a b ∨ Descends par b a := by
  obtain ⟨k, rfl⟩ := h
  obtain ⟨l, rfl⟩ := h'
  rcases le_total k l with hkl | hkl
  · refine .inl ⟨l - k, ?_⟩
    rw [← Function.iterate_add_apply, Nat.sub_add_cancel hkl]
  · refine .inr ⟨k - l, ?_⟩
    rw [← Function.iterate_add_apply, Nat.sub_add_cancel hkl]

end Descends

/-- The last `n` blocks of the chain that ends in `b`, oldest first. -/
def path (par : β → β) : ℕ → β → List β
  | 0, _ => []
  | n + 1, b => path par n (par b) ++ [b]

theorem path_add (par : β → β) (m n : ℕ) (b : β) :
    path par (m + n) b = path par m (par^[n] b) ++ path par n b := by
  induction n generalizing b with
  | zero => simp [path]
  | succ n ih => rw [← Nat.add_assoc, path, ih, path, Function.iterate_succ_apply, List.append_assoc]

theorem mem_path {par : β → β} {n : ℕ} {a b : β} (h : a ∈ path par n b) : ∃ k < n, par^[k] b = a := by
  induction n generalizing b with
  | zero => cases h
  | succ n ih =>
    rcases List.mem_append.1 h with h | h
    · obtain ⟨k, hk, rfl⟩ := ih h
      exact ⟨k + 1, Nat.succ_lt_succ hk, rfl⟩
    · rw [List.mem_singleton.1 h]
      exact ⟨0, Nat.succ_pos n, rfl⟩

/-- What honest voters do: `votes i r b q` is a vote for `b` in round `r` on a certificate of
round `q` for the parent, `gaveUp i r t` a timeout of round `r` that reports round `t`. -/
structure System (V β : Type) where
  par : β → β
  anchor : β
  quorum : Set V → Prop
  honest : V → Prop
  votes : V → ℕ → β → ℕ → Prop
  gaveUp : V → ℕ → ℕ → Prop

namespace System

variable (s : System V β)

def Certified (r : ℕ) (b : β) : Prop :=
  ∃ A, s.quorum A ∧ ∀ i ∈ A, s.honest i → ∃ q, s.votes i r b q

def GivenUp (r q : ℕ) : Prop :=
  ∃ A, s.quorum A ∧ ∀ i ∈ A, s.honest i → ∃ t ≤ q, s.gaveUp i r t

/-- The voting and locking rules of the two-chain protocol. -/
structure Rules : Prop where
  meet : ∀ {A B}, s.quorum A → s.quorum B → ∃ i ∈ A, i ∈ B ∧ s.honest i
  once : ∀ {i r b b' q q'}, s.honest i → s.votes i r b q → s.votes i r b' q' → b = b'
  below : ∀ {i r b q}, s.honest i → s.votes i r b q → q < r
  justified : ∀ {i r b q}, s.honest i → s.votes i r b q →
    q = 0 ∧ s.par b = s.anchor ∨ s.Certified q (s.par b)
  recent : ∀ {i r b q}, s.honest i → s.votes i r b q → q + 1 = r ∨ s.GivenUp (r - 1) q
  lock : ∀ {i r b q r' t}, s.honest i → s.votes i r b q → s.gaveUp i r' t → r ≤ r' → q ≤ t

variable {s}

theorem Rules.exists_vote (R : s.Rules) {r : ℕ} {b : β} (h : s.Certified r b) :
    ∃ i q, s.honest i ∧ s.votes i r b q := by
  obtain ⟨A, hA, hv⟩ := h
  obtain ⟨i, hi, -, hh⟩ := R.meet hA hA
  obtain ⟨q, hq⟩ := hv i hi hh
  exact ⟨i, q, hh, hq⟩

theorem Rules.certified_unique (R : s.Rules) {r : ℕ} {b b' : β} (h : s.Certified r b)
    (h' : s.Certified r b') : b = b' := by
  obtain ⟨A, hA, hv⟩ := h
  obtain ⟨B, hB, hv'⟩ := h'
  obtain ⟨i, hiA, hiB, hh⟩ := R.meet hA hB
  obtain ⟨q, hq⟩ := hv i hiA hh
  obtain ⟨q', hq'⟩ := hv' i hiB hh
  exact R.once hh hq hq'

theorem Rules.certified_pos (R : s.Rules) {r : ℕ} {b : β} (h : s.Certified r b) : 0 < r := by
  obtain ⟨i, q, hh, hq⟩ := R.exists_vote h
  exact Nat.zero_lt_of_lt (R.below hh hq)

theorem Rules.le_of_givenUp (R : s.Rules) {r r' q : ℕ} {c : β} (hc : s.Certified (r + 1) c)
    (hlock : ∀ i q, s.honest i → s.votes i (r + 1) c q → q = r) (hr : r + 1 ≤ r')
    (h : s.GivenUp r' q) : r ≤ q := by
  obtain ⟨A, hA, hv⟩ := hc
  obtain ⟨B, hB, ht⟩ := h
  obtain ⟨i, hiA, hiB, hh⟩ := R.meet hA hB
  obtain ⟨qc, hqc⟩ := hv i hiA hh
  obtain ⟨t, htq, hgt⟩ := ht i hiB hh
  have hle := R.lock hh hqc hgt hr
  have heq := hlock i qc hh hqc
  omega

inductive Reaches (s : System V β) (a : β) : β → Prop
  | refl : Reaches s a a
  | step {r b} (hb : s.Certified r b) (h : Reaches s a (s.par b)) : Reaches s a b

theorem Reaches.descends {a b : β} (h : s.Reaches a b) : Descends s.par b a := by
  induction h with
  | refl => exact .refl a
  | step _ _ ih => exact ih.of_parent

theorem Rules.reaches (R : s.Rules) {r : ℕ} {c : β} (hc : s.Certified (r + 1) c)
    (hp : s.Certified r (s.par c)) (hlock : ∀ i q, s.honest i → s.votes i (r + 1) c q → q = r)
    {r' : ℕ} {b : β} (hr : r + 1 ≤ r') (hb : s.Certified r' b) : s.Reaches (s.par c) b := by
  induction r' using Nat.strong_induction_on generalizing b with
  | _ r' ih =>
    rcases Nat.eq_or_lt_of_le hr with rfl | hlt
    · rw [R.certified_unique hb hc]
      exact .step hc .refl
    · obtain ⟨i, q, hh, hq⟩ := R.exists_vote hb
      have hpos := R.certified_pos hp
      have hqr := R.below hh hq
      have hle : r ≤ q := by
        rcases R.recent hh hq with h | h
        · omega
        · exact R.le_of_givenUp hc hlock (by omega) h
      rcases R.justified hh hq with ⟨h0, -⟩ | hpar
      · omega
      · rcases Nat.eq_or_lt_of_le hle with rfl | hlt'
        · refine .step hb ?_
          rw [R.certified_unique hpar hp]
          exact .refl
        · exact .step hb (ih q hqr hlt' hpar)

theorem Rules.reaches_or (R : s.Rules) {r r' : ℕ} {c c' : β}
    (hc : s.Certified (r + 1) c) (hp : s.Certified r (s.par c))
    (hlock : ∀ i q, s.honest i → s.votes i (r + 1) c q → q = r)
    (hc' : s.Certified (r' + 1) c') (hp' : s.Certified r' (s.par c'))
    (hlock' : ∀ i q, s.honest i → s.votes i (r' + 1) c' q → q = r') :
    s.Reaches (s.par c) (s.par c') ∨ s.Reaches (s.par c') (s.par c) := by
  rcases Nat.lt_trichotomy r r' with h | h | h
  · exact .inl (R.reaches hc hp hlock h hp')
  · subst h
    rw [R.certified_unique hp' hp]
    exact .inl .refl
  · exact .inr (R.reaches hc' hp' hlock' h hp)

theorem Rules.comparable (R : s.Rules) {r r' : ℕ} {c c' x x' : β}
    (hc : s.Certified (r + 1) c) (hp : s.Certified r (s.par c))
    (hlock : ∀ i q, s.honest i → s.votes i (r + 1) c q → q = r)
    (hc' : s.Certified (r' + 1) c') (hp' : s.Certified r' (s.par c'))
    (hlock' : ∀ i q, s.honest i → s.votes i (r' + 1) c' q → q = r')
    (hx : Descends s.par (s.par c) x) (hx' : Descends s.par (s.par c') x') :
    Descends s.par x x' ∨ Descends s.par x' x := by
  rcases R.reaches_or hc hp hlock hc' hp' hlock' with h | h
  · exact (hx.trans h.descends).comparable hx'
  · exact hx.comparable (hx'.trans h.descends)

section Rounds

variable (R : s.Rules) {height : β → ℕ}
  (hheight : ∀ {i r b q}, s.honest i → s.votes i r b q → height b = height (s.par b) + 1)

include R hheight

theorem Rules.height_lt {r : ℕ} {b : β} (h : s.Certified r b) : height s.anchor < height b := by
  induction r using Nat.strong_induction_on generalizing b with
  | _ r ih =>
    obtain ⟨i, q, hh, hq⟩ := R.exists_vote h
    have hb := hheight hh hq
    rcases R.justified hh hq with ⟨-, hpar⟩ | hpar
    · rw [hpar] at hb
      omega
    · have hlt := ih q (R.below hh hq) hpar
      omega

theorem Rules.height_reaches {a b : β} (h : s.Reaches a b) :
    ∃ k, height b = height a + k ∧ s.par^[k] b = a := by
  induction h with
  | refl => exact ⟨0, rfl, rfl⟩
  | step hb _ ih =>
    obtain ⟨k, hk, hka⟩ := ih
    obtain ⟨i, q, hh, hq⟩ := R.exists_vote hb
    exact ⟨k + 1, by rw [hheight hh hq, hk, Nat.add_assoc], hka⟩

theorem Rules.lock_of_round {round : β → ℕ} (hround : ∀ {r b}, s.Certified r b → round b = r)
    {r : ℕ} {c : β} (hp : s.Certified r (s.par c)) :
    ∀ i q, s.honest i → s.votes i (r + 1) c q → q = r := by
  intro i q hh hq
  rcases R.justified hh hq with ⟨-, hpar⟩ | hpar
  · have hlt := R.height_lt hheight hp
    rw [hpar] at hlt
    omega
  · rw [← hround hpar, ← hround hp]

end Rounds

end System

end Boltchain.Lib.TwoChain
