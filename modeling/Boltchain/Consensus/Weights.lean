import Boltchain.Consensus.Types

namespace Boltchain.Consensus.ValidatorSet

def fullTotal (set : ValidatorSet) : Nat := (set.weights.map UInt64.toNat).sum

def mass (set : ValidatorSet) (A : Finset Nat) : Nat := ∑ i ∈ A, (set.weight i).toNat

theorem mass_range (set : ValidatorSet) : set.mass (Finset.range set.len) = set.fullTotal := by
  have h : ∀ l : List UInt64,
      ∑ i ∈ Finset.range l.length, (l[i]?.getD 0).toNat = (l.map UInt64.toNat).sum := by
    intro l
    induction l with
    | nil => rfl
    | cons a l ih =>
      rw [List.length_cons, Finset.sum_range_succ', List.map_cons, List.sum_cons, ← ih, add_comm]
      rfl
  exact h set.weights

theorem toNat_sum (l : List UInt64) : l.sum.toNat = (l.map UInt64.toNat).sum % 2 ^ 64 := by
  induction l with
  | nil => rfl
  | cons a l ih => simp [UInt64.toNat_add, ih]

theorem toNat_total_le (set : ValidatorSet) : set.total.toNat ≤ set.fullTotal := by
  rw [total, toNat_sum]
  exact Nat.mod_le _ _

theorem toNat_weightOf_le (set : ValidatorSet) {l : List Nat} (hl : l.Nodup) :
    (set.weightOf l).toNat ≤ set.mass l.toFinset := by
  have h : set.mass l.toFinset = ((l.map set.weight).map UInt64.toNat).sum := by
    rw [mass, List.sum_toFinset _ hl, List.map_map]
    rfl
  rw [weightOf, toNat_sum, h]
  exact Nat.mod_le _ _

variable {set : ValidatorSet} {w : UInt64}

theorem isQuorum_eq (ht : set.fullTotal < 2 ^ 63) :
    set.isQuorum w = decide (2 * set.fullTotal < w.toNat * 3 % 2 ^ 64) := by
  have htot : set.total.toNat = set.fullTotal := by
    rw [total, toNat_sum, ← fullTotal]
    omega
  have h2 : (2 : UInt64).toNat = 2 := rfl
  have h3 : (3 : UInt64).toNat = 3 := rfl
  rw [isQuorum, decide_eq_decide, gt_iff_lt, UInt64.lt_iff_toNat_lt, UInt64.toNat_mul,
    UInt64.toNat_mul, htot, h2, h3, Nat.mod_eq_of_lt (by omega : set.fullTotal * 2 < 2 ^ 64),
    Nat.mul_comm set.fullTotal]

theorem lt_of_isQuorum (ht : set.fullTotal < 2 ^ 63)
    (h : set.isQuorum w = true) : 2 * set.fullTotal < 3 * w.toNat := by
  rw [isQuorum_eq ht, decide_eq_true_eq] at h
  have hw := Nat.mod_le (w.toNat * 3) (2 ^ 64)
  omega

theorem mass_le_fullTotal (set : ValidatorSet) {A : Finset Nat} (h : ∀ i ∈ A, i < set.len) : set.mass A ≤ set.fullTotal := by
  rw [← mass_range]
  exact Finset.sum_le_sum_of_subset fun i hi => Finset.mem_range.2 (h i hi)

end Boltchain.Consensus.ValidatorSet
