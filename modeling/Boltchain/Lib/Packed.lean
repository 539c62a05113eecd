import Mathlib

namespace Boltchain.Lib.Packed

variable {b n k : Nat} {c d : Nat → Nat}

def pack (b n : Nat) (c : Nat → Nat) : Nat := ∑ k ∈ Finset.range n, c k * 2 ^ (b * k)

def field (b word k : Nat) : Nat := (word >>> (b * k)) &&& (2 ^ b - 1)

theorem field_eq (b word k : Nat) : field b word k = word / 2 ^ (b * k) % 2 ^ b := by
  rw [field, Nat.shiftRight_eq_div_pow, Nat.and_two_pow_sub_one_eq_mod]

theorem pack_succ (b n : Nat) (c : Nat → Nat) : pack b (n + 1) c = pack b n c + c n * 2 ^ (b * n) :=
  Finset.sum_range_succ ..

theorem pack_add (b n : Nat) (c d : Nat → Nat) : pack b n (fun k => c k + d k) = pack b n c + pack b n d := by
  simp only [pack, Nat.add_mul, Finset.sum_add_distrib]

theorem pack_congr (h : ∀ k < n, c k = d k) : pack b n c = pack b n d :=
  Finset.sum_congr rfl fun k hk => by rw [h k (Finset.mem_range.1 hk)]

theorem pack_eq_zero : pack b n c = 0 ↔ ∀ k < n, c k = 0 := by
  simp [pack]

theorem pack_lt (h : ∀ k < n, c k < 2 ^ b) : pack b n c < 2 ^ (b * n) := by
  induction n with
  | zero => simp [pack]
  | succ n ih =>
    have hlow := ih fun k hk => h k (by omega)
    have hhigh : (c n + 1) * 2 ^ (b * n) ≤ 2 ^ b * 2 ^ (b * n) := Nat.mul_le_mul_right _ (h n (by omega))
    rw [pack_succ, Nat.mul_succ, Nat.pow_add, Nat.mul_comm (2 ^ (b * n))]
    rw [Nat.add_mul, Nat.one_mul] at hhigh
    omega

theorem field_pack (h : ∀ k < n, c k < 2 ^ b) (hk : k < n) : field b (pack b n c) k = c k := by
  rw [field_eq]
  induction n with
  | zero => omega
  | succ n ih =>
    have hlow : pack b n c < 2 ^ (b * n) := pack_lt fun j hj => h j (by omega)
    rw [pack_succ]
    by_cases hkn : k = n
    · subst hkn
      rw [Nat.add_mul_div_right _ _ (Nat.two_pow_pos _), Nat.div_eq_of_lt hlow, Nat.zero_add,
        Nat.mod_eq_of_lt (h k (by omega))]
    · -- The counters above leave this one alone.
      have hsplit : c n * 2 ^ (b * n) = c n * 2 ^ (b * (n - k - 1)) * 2 ^ b * 2 ^ (b * k) := by
        have hexp : b * n = b * (n - k - 1) + b + b * k := by
          rw [← Nat.mul_succ, ← Nat.mul_add]
          congr 1
          omega
        rw [hexp, Nat.pow_add, Nat.pow_add]
        ring
      rw [hsplit, Nat.add_mul_div_right _ _ (Nat.two_pow_pos _), Nat.add_mul_mod_self_right]
      exact ih (fun j hj => h j (by omega)) (by omega)

end Boltchain.Lib.Packed
