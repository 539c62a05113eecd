import Boltchain.Lib.Checked

namespace Boltchain.Lib.Scale

variable {w : Nat}

/-- The product as long as it fits `w` bits, else the greatest word. -/
def saturatingMul (w a b : Nat) : Nat := min (a * b) (2 ^ w - 1)

def leadingZeros (w d : Nat) : Nat := w - d.size

def shl (w d n : Nat) : Option Nat := Checked.mul w d (2 ^ n)

/-- `d / 2 ^ k`, also for a negative `k`, of which what does not fit becomes the greatest word. -/
def scale (w : Nat) (k : Int) (d : Nat) : Option Nat :=
  if 0 ≤ k then
    some (if (w : Int) ≤ k then 0 else d / 2 ^ k.toNat)
  else if w ≤ (-k).toNat ∨ leadingZeros w d < (-k).toNat then
    some (2 ^ w - 1)
  else
    shl w d (-k).toNat

def up (w n d : Nat) : Nat := if w ≤ n ∨ 2 ^ w ≤ d * 2 ^ n then 2 ^ w - 1 else d * 2 ^ n

def scaled (w : Nat) (k : Int) (d : Nat) : Nat := if 0 ≤ k then d / 2 ^ k.toNat else up w (-k).toNat d

variable {d d' n n' : Nat} {k k' : Int}

theorem leadingZeros_lt_iff (hd : d < 2 ^ w) (hn : n < w) : leadingZeros w d < n ↔ 2 ^ w ≤ d * 2 ^ n := by
  have hsize : d.size ≤ w := Nat.size_le.2 hd
  have hpow : 2 ^ w = 2 ^ (w - n) * 2 ^ n := by rw [← Nat.pow_add, Nat.sub_add_cancel hn.le]
  rw [hpow, Nat.mul_le_mul_right_iff (Nat.two_pow_pos n), ← Nat.lt_size, leadingZeros]
  omega

theorem scale_eq (hd : d < 2 ^ w) : scale w k d = some (scaled w k d) := by
  unfold scale scaled up
  by_cases hk : 0 ≤ k
  · rw [if_pos hk, if_pos hk]
    by_cases hw : (w : Int) ≤ k
    · have hle : 2 ^ w ≤ 2 ^ k.toNat := Nat.pow_le_pow_right (by decide) (by omega)
      rw [if_pos hw, Nat.div_eq_of_lt (lt_of_lt_of_le hd hle)]
    · rw [if_neg hw]
  · rw [if_neg hk, if_neg hk]
    by_cases hn : w ≤ (-k).toNat
    · rw [if_pos (.inl hn), if_pos (.inl hn)]
    · have hiff := leadingZeros_lt_iff hd (Nat.not_le.1 hn)
      by_cases hz : leadingZeros w d < (-k).toNat
      · rw [if_pos (.inr hz), if_pos (.inr (hiff.1 hz))]
      · rw [if_neg (not_or.2 ⟨hn, hz⟩), if_neg (not_or.2 ⟨hn, mt hiff.2 hz⟩)]
        exact Checked.mul_eq_some.2 ⟨Nat.not_le.1 (mt hiff.2 hz), rfl⟩

theorem up_le_max (w n d : Nat) : up w n d ≤ 2 ^ w - 1 := by
  unfold up
  split <;> omega

theorem up_le_mul (hn : n < w) : up w n d ≤ d * 2 ^ n := by
  unfold up
  split <;> omega

theorem up_of_lt (hn : n < w) (h : d * 2 ^ n < 2 ^ w) : up w n d = d * 2 ^ n :=
  if_neg (by omega)

theorem up_zero (hw : 0 < w) (hd : d < 2 ^ w) : up w 0 d = d := by
  rw [up_of_lt hw (by omega), Nat.pow_zero, Nat.mul_one]

theorem up_le_up (hn : n' ≤ n) (h : d' * 2 ^ n' ≤ d * 2 ^ n) : up w n' d' ≤ up w n d := by
  by_cases hmax : w ≤ n ∨ 2 ^ w ≤ d * 2 ^ n
  · have hup : up w n d = 2 ^ w - 1 := if_pos hmax
    exact hup ▸ up_le_max w n' d'
  · rw [not_or, Nat.not_le, Nat.not_le] at hmax
    rw [up_of_lt hmax.1 hmax.2, up_of_lt (by omega) (by omega)]
    exact h

theorem scaled_of_nonneg (hk : 0 ≤ k) : scaled w k d = d / 2 ^ k.toNat := if_pos hk

theorem scaled_of_neg (hk : k < 0) : scaled w k d = up w (-k).toNat d := if_neg (Int.not_le.2 hk)

theorem scaled_of_nonpos (hk : k ≤ 0) (hw : 0 < w) (hd : d < 2 ^ w) : scaled w k d = up w (-k).toNat d := by
  by_cases hzero : k = 0
  · subst hzero
    rw [scaled_of_nonneg le_rfl, Int.neg_zero, Int.toNat_zero, up_zero hw hd, Nat.pow_zero, Nat.div_one]
  · exact scaled_of_neg (by omega)

theorem scaled_mono (h : d' ≤ d) : scaled w k d' ≤ scaled w k d := by
  by_cases hk : 0 ≤ k
  · rw [scaled_of_nonneg hk, scaled_of_nonneg hk]
    exact Nat.div_le_div_right h
  · rw [scaled_of_neg (by omega), scaled_of_neg (by omega)]
    exact up_le_up le_rfl (Nat.mul_le_mul_right _ h)

theorem scaled_le_of_nonneg (hk : 0 ≤ k) (hlt : k < k') (h : d' / 2 ≤ d) : scaled w k' d' ≤ scaled w k d := by
  rw [scaled_of_nonneg hk, scaled_of_nonneg (hk.trans hlt.le)]
  calc
    d' / 2 ^ k'.toNat ≤ d' / 2 ^ (k.toNat + 1) :=
      Nat.div_le_div_left (Nat.pow_le_pow_right (by decide) (by omega)) (Nat.two_pow_pos _)
    _ = d' / 2 / 2 ^ k.toNat := by rw [Nat.pow_succ, Nat.mul_comm, Nat.div_div_eq_div_mul]
    _ ≤ d / 2 ^ k.toNat := Nat.div_le_div_right h

theorem scaled_le_of_neg {m : Nat} (hk : k < 0) (hm : k + m ≤ k') (hd' : d' < 2 ^ w) (h : d' ≤ d * 2 ^ m) :
    scaled w k' d' ≤ scaled w k d := by
  obtain ⟨n, hn⟩ : ∃ n : Nat, k = -(n : Int) := ⟨(-k).toNat, by omega⟩
  have hkn : (-k).toNat = n := by omega
  rw [scaled_of_neg hk, hkn]
  by_cases hk' : 0 ≤ k'
  · have hle : d' ≤ 2 ^ k'.toNat * (d * 2 ^ n) := by
      refine h.trans ?_
      rw [Nat.mul_left_comm, ← Nat.pow_add]
      exact Nat.mul_le_mul_left d (Nat.pow_le_pow_right (by decide) (by omega))
    have hlt : d' / 2 ^ k'.toNat < 2 ^ w := lt_of_le_of_lt (Nat.div_le_self _ _) hd'
    rw [scaled_of_nonneg hk']
    by_cases hw : w = 0
    · subst hw
      omega
    · rw [← up_zero (Nat.pos_of_ne_zero hw) hlt]
      refine up_le_up (Nat.zero_le n) ?_
      rw [Nat.pow_zero, Nat.mul_one]
      exact Nat.div_le_of_le_mul hle
  · rw [scaled_of_neg (by omega)]
    refine up_le_up (by omega) ?_
    calc
      d' * 2 ^ (-k').toNat ≤ d * 2 ^ m * 2 ^ (-k').toNat := Nat.mul_le_mul_right _ h
      _ = d * 2 ^ (m + (-k').toNat) := by rw [Nat.mul_assoc, ← Nat.pow_add]
      _ ≤ d * 2 ^ n := Nat.mul_le_mul_left d (Nat.pow_le_pow_right (by decide) (by omega))

end Boltchain.Lib.Scale
