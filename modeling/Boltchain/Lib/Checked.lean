import Mathlib

namespace Boltchain.Lib.Checked

variable {w a b c : Nat} {p : Prop} [Decidable p]

def add (w a b : Nat) : Option Nat := if a + b < 2 ^ w then some (a + b) else none

def sub (a b : Nat) : Option Nat := if b ≤ a then some (a - b) else none

def mul (w a b : Nat) : Option Nat := if a * b < 2 ^ w then some (a * b) else none

def require (p : Prop) [Decidable p] : Option Unit := if p then some () else none

instance neZero_word64 : NeZero (2 ^ 64) := ⟨by decide⟩

instance neZero_word128 : NeZero (2 ^ 128) := ⟨by decide⟩

instance neZero_word160 : NeZero (2 ^ 160) := ⟨by decide⟩

instance neZero_word256 : NeZero (2 ^ 256) := ⟨by decide⟩

@[simp]
theorem add_eq_some : add w a b = some c ↔ a + b < 2 ^ w ∧ a + b = c := by
  simp [add]

@[simp]
theorem sub_eq_some : sub a b = some c ↔ b ≤ a ∧ a - b = c := by
  simp [sub]

@[simp]
theorem mul_eq_some : mul w a b = some c ↔ a * b < 2 ^ w ∧ a * b = c := by
  simp [mul]

@[simp]
theorem require_eq_some {u : Unit} : require p = some u ↔ p := by
  simp [require]

theorem add_of_lt (h : a + b < 2 ^ w) : add w a b = some (a + b) := if_pos h

theorem sub_of_le (h : b ≤ a) : sub a b = some (a - b) := if_pos h

/-- The conjunction of two tests that can fail; the second is made only if the first is passed. -/
def both (a b : Option Bool) : Option Bool := a.bind fun x => if x then b else some false

/-- A test that can fail gives `b` where `p` holds, and fails elsewhere. -/
structure Computes (o : Option Bool) (p : Prop) (b : Bool) : Prop where
  eq_some : p → o = some b
  eq_none : ¬ p → o = none

namespace Computes

variable {o o' : Option Bool} {p p' : Prop} {b b' : Bool}

theorem pure (b : Bool) : Computes (some b) True b := ⟨fun _ => rfl, fun h => absurd trivial h⟩

theorem eq_some_iff (h : Computes o p b) : o = some b ↔ p := by
  refine ⟨fun ho => ?_, h.eq_some⟩
  by_contra hp
  rw [h.eq_none hp] at ho
  cases ho

theorem congr (h : Computes o p b) (hp : p ↔ p') (hb : b = b') : Computes o p' b' :=
  ⟨fun h' => hb ▸ h.eq_some (hp.2 h'), fun h' => h.eq_none fun hp' => h' (hp.1 hp')⟩

theorem both (h : Computes o p b) (h' : Computes o' p' b') :
    Computes (Checked.both o o') (p ∧ (b = true → p')) (b && b') := by
  constructor
  · rintro ⟨hp, hp'⟩
    rw [Checked.both, h.eq_some hp, Option.bind_some]
    cases b with
    | true => exact h'.eq_some (hp' rfl)
    | false => rfl
  · intro hnot
    by_cases hp : p
    · rw [Checked.both, h.eq_some hp, Option.bind_some]
      cases b with
      | true => exact h'.eq_none fun hp' => hnot ⟨hp, fun _ => hp'⟩
      | false => exact absurd ⟨hp, by rintro ⟨⟩⟩ hnot
    · rw [Checked.both, h.eq_none hp]
      rfl

theorem sum (w a c : Nat) (f : Nat → Bool) : Computes ((add w a c).map f) (a + c < 2 ^ w) (f (a + c)) := by
  constructor
  · intro h
    rw [add_of_lt h, Option.map_some]
  · intro h
    rw [add, if_neg h, Option.map_none]

theorem less (w a c x y : Nat) :
    Computes ((mul w a c).bind fun m => (mul w x y).map fun n => decide (n < m)) (a * c < 2 ^ w ∧ x * y < 2 ^ w)
      (decide (x * y < a * c)) := by
  constructor
  · rintro ⟨ha, hx⟩
    rw [mul, if_pos ha, mul, if_pos hx]
    rfl
  · intro h
    by_cases ha : a * c < 2 ^ w
    · rw [mul, if_pos ha, mul, if_neg fun hx => h ⟨ha, hx⟩]
      rfl
    · rw [mul, if_neg ha]
      rfl

end Computes

theorem mem_of_mapM {α β : Type} {f : α → Option β} {as : List α} {bs : List β} {y : β}
    (h : as.mapM f = some bs) (hy : y ∈ bs) : ∃ x ∈ as, f x = some y := by
  induction as generalizing bs with
  | nil =>
    cases h
    cases hy
  | cons x as ih =>
    simp only [List.mapM_cons, Option.bind_eq_bind, Option.bind_eq_some_iff, Option.pure_def, Option.some_inj] at h
    obtain ⟨z, hz, zs, hzs, rfl⟩ := h
    obtain rfl | hy := List.mem_cons.1 hy
    · exact ⟨x, List.mem_cons_self, hz⟩
    · obtain ⟨x', hx', hf⟩ := ih hzs hy
      exact ⟨x', List.mem_cons_of_mem x hx', hf⟩

theorem foldlM_add_eq_some {α : Type} {p : α → Bool} {f : α → Nat} (hf : ∀ k, 0 < f k) (ks : List α) :
    ks.foldlM (fun a k => if p k then add w a (f k) else some a) a = some b ↔
      ((ks.map fun k => (p k).toNat * f k).sum = 0 ∨ a + (ks.map fun k => (p k).toNat * f k).sum < 2 ^ w) ∧
        b = a + (ks.map fun k => (p k).toNat * f k).sum := by
  induction ks generalizing a with
  | nil =>
    rw [List.foldlM_nil, List.map_nil, List.sum_nil, Nat.add_zero]
    constructor
    · intro h
      cases h
      exact ⟨.inl rfl, rfl⟩
    · rintro ⟨-, rfl⟩
      rfl
  | cons k ks ih =>
    rw [List.foldlM_cons, Option.bind_eq_bind, Option.bind_eq_some_iff, List.map_cons, List.sum_cons]
    have hpos := hf k
    cases hk : p k with
    | false =>
      simp only [Bool.false_eq_true, if_false, Option.some.injEq, exists_eq_left', ih, Bool.toNat_false, Nat.zero_mul,
        Nat.zero_add]
    | true =>
      simp only [if_true, Bool.toNat_true, Nat.one_mul]
      constructor
      · rintro ⟨x, hx, h⟩
        obtain ⟨hlt, rfl⟩ := add_eq_some.1 hx
        obtain ⟨hroom, rfl⟩ := ih.1 h
        omega
      · rintro ⟨hroom, rfl⟩
        exact ⟨_, add_of_lt (by omega), ih.2 ⟨by omega, by omega⟩⟩

end Boltchain.Lib.Checked
