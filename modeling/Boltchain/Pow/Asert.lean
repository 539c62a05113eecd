import Boltchain.Lib.Scale

namespace Boltchain.Pow

open Lib
open Lib.Scale (saturatingMul scale scaled up)

structure AsertParams where
  /-- Target block spacing in seconds. -/
  spacing : Nat
  /-- Half-life in seconds. -/
  halfLife : Nat
  /-- Difficulty of blocks 1 and 2. -/
  initial : Nat
  /-- Lower bound. -/
  minimum : Nat
deriving DecidableEq, Repr

/-- `2 ^ (frac / 65536) · 65536`, by a polynomial, in 128-bit words. -/
def factor (frac : Nat) : Option Nat := do
  let linear ← Checked.mul 128 195766423245049 frac
  let square ← Checked.mul 128 971821376 frac
  let square ← Checked.mul 128 square frac
  let cube ← Checked.mul 128 5127 frac
  let cube ← Checked.mul 128 cube frac
  let cube ← Checked.mul 128 cube frac
  let sum ← Checked.add 128 linear square
  let sum ← Checked.add 128 sum cube
  let sum ← Checked.add 128 sum (2 ^ 47)
  Checked.add 128 65536 (sum / 2 ^ 48)

def signed (z : Int) : Option Int := if -2 ^ 127 ≤ z ∧ z < 2 ^ 127 then some z else none

/-- Difficulty of the child of a block with `parentDifficulty` mined `solveTime` seconds after its own parent; none
if a value does not fit its type on the way. -/
def nextDifficulty (params : AsertParams) (parentNumber parentDifficulty solveTime : Nat) : Option Nat :=
  if parentNumber ≤ 1 then
    some (max params.initial params.minimum)
  else do
    let late ← signed ((solveTime : Int) - params.spacing)
    let num ← signed (late * 65536)
    -- the divisors are positive, so this is `div_euclid` and `rem_euclid`
    let exponent := num / (max params.halfLife 1 : Nat)
    let shifts := exponent / 65536
    let frac := (exponent % 65536).toNat
    let factor ← factor frac
    let d := saturatingMul 256 parentDifficulty 65536 / factor
    let d ← scale 256 shifts d
    some (max d params.minimum)

section Factor

def factorOf (f : Nat) : Nat := 65536 + (195766423245049 * f + 971821376 * f * f + 5127 * f * f * f + 2 ^ 47) / 2 ^ 48

variable {f : Nat}

theorem factor_eq (h : f < 65536) : factor f = some (factorOf f) := by
  have h₂ : f * f ≤ 65535 * 65535 := Nat.mul_le_mul (by omega) (by omega)
  have h₃ : f * f * f ≤ 65535 * 65535 * 65535 := Nat.mul_le_mul h₂ (by omega)
  have e₂ : 971821376 * f * f = 971821376 * (f * f) := Nat.mul_assoc ..
  have e₃ : 5127 * f * f = 5127 * (f * f) := Nat.mul_assoc ..
  have e₄ : 5127 * f * f * f = 5127 * (f * f * f) := by ring
  simp only [factor, factorOf, bind, Option.bind_eq_some_iff, Checked.mul_eq_some, Checked.add_eq_some]
  refine ⟨_, ⟨?_, rfl⟩, _, ⟨?_, rfl⟩, _, ⟨?_, rfl⟩, _, ⟨?_, rfl⟩, _, ⟨?_, rfl⟩, _, ⟨?_, rfl⟩, _, ⟨?_, rfl⟩, _, ⟨?_, rfl⟩,
    _, ⟨?_, rfl⟩, ?_, rfl⟩ <;> omega

theorem factorOf_zero : factorOf 0 = 65536 := by decide

theorem factorOf_mono {f' : Nat} (h : f ≤ f') : factorOf f ≤ factorOf f' := by
  unfold factorOf
  gcongr

theorem factorOf_le (h : f < 65536) : factorOf f ≤ 131072 := by
  have hmax : factorOf 65535 ≤ 131072 := by decide
  exact (factorOf_mono (Nat.le_of_lt_succ h)).trans hmax

theorem lt_factorOf (h : 0 < f) : 65536 < factorOf f := by
  have hone : 65536 < factorOf 1 := by decide
  exact lt_of_lt_of_le hone (factorOf_mono h)

end Factor

section Quotient

def quotient (D f : Nat) : Nat := D * 65536 / factorOf f

variable {D f f' : Nat}

theorem quotient_zero (D : Nat) : quotient D 0 = D := by
  rw [quotient, factorOf_zero]
  exact Nat.mul_div_cancel D (by decide)

theorem quotient_anti (D : Nat) (h : f ≤ f') : quotient D f' ≤ quotient D f := by
  have hpos : 0 < factorOf f := by unfold factorOf; omega
  exact Nat.div_le_div_left (factorOf_mono h) hpos

theorem quotient_le (D f : Nat) : quotient D f ≤ D := (quotient_anti D (Nat.zero_le f)).trans_eq (quotient_zero D)

theorem half_le_quotient (D : Nat) (h : f < 65536) : D / 2 ≤ quotient D f := by
  have hpos : 0 < factorOf f := by unfold factorOf; omega
  rw [quotient, Nat.le_div_iff_mul_le hpos]
  calc
    D / 2 * factorOf f ≤ D / 2 * 131072 := Nat.mul_le_mul_left _ (factorOf_le h)
    _ ≤ D * 65536 := by omega

theorem quotient_lt (hD : 0 < D) (h : 0 < f) : quotient D f < D := by
  rw [quotient]
  refine Nat.div_lt_of_lt_mul ?_
  rw [Nat.mul_comm]
  exact Nat.mul_lt_mul_of_pos_right (lt_factorOf h) hD

end Quotient

def exponentOf (p : AsertParams) (t : Nat) : Int := ((t : Int) - p.spacing) * 65536 / (p.halfLife : Int)

def difficultyAt (D : Nat) (e : Int) : Nat := scaled 256 (e / 65536) (quotient D (e % 65536).toNat)

section Value

variable {p : AsertParams} {n D t t' : Nat}

theorem nextDifficulty_eq (hspacing : p.spacing ≤ 2 ^ 32) (hhalf : 1 ≤ p.halfLife) (hn : 2 ≤ n) (hD : D < 2 ^ 224)
    (ht : t < 2 ^ 64) : nextDifficulty p n D t = some (max (difficultyAt D (exponentOf p t)) p.minimum) := by
  have hmod : (exponentOf p t % 65536).toNat < 65536 := by omega
  have hsat : saturatingMul 256 D 65536 = D * 65536 := Nat.min_eq_left (by omega)
  have hquot : quotient D (exponentOf p t % 65536).toNat < 2 ^ 256 :=
    lt_of_le_of_lt (quotient_le D _) (hD.trans (by decide))
  have hlate : signed ((t : Int) - p.spacing) = some ((t : Int) - p.spacing) := if_pos (by omega)
  have hnum : signed (((t : Int) - p.spacing) * 65536) = some (((t : Int) - p.spacing) * 65536) := if_pos (by omega)
  have hmax : max p.halfLife 1 = p.halfLife := Nat.max_eq_left hhalf
  rw [nextDifficulty, if_neg (by omega), hlate, Option.bind_eq_bind, Option.bind_some, hnum, hmax]
  change (do
    let factor ← factor (exponentOf p t % 65536).toNat
    let d ← scale 256 (exponentOf p t / 65536) (saturatingMul 256 D 65536 / factor)
    some (max d p.minimum) : Option Nat) = _
  rw [factor_eq hmod, Option.bind_eq_bind, Option.bind_some, hsat]
  change (scale 256 (exponentOf p t / 65536) (quotient D _)).bind _ = _
  rw [Lib.Scale.scale_eq hquot]
  rfl

theorem exponentOf_mono (hhalf : 1 ≤ p.halfLife) (h : t ≤ t') : exponentOf p t ≤ exponentOf p t' := by
  unfold exponentOf
  exact Int.ediv_le_ediv (by omega) (by omega)

theorem exponentOf_spacing (p : AsertParams) : exponentOf p p.spacing = 0 := by
  rw [exponentOf, Int.sub_self, Int.zero_mul, Int.zero_ediv]

theorem difficultyAt_zero (D : Nat) : difficultyAt D 0 = D := by
  have hquot : quotient D ((0 : Int) % 65536).toNat = D := quotient_zero D
  rw [difficultyAt, hquot]
  exact Nat.div_one D

end Value

section Wrap

variable {D : Nat} {e e' : Int}

/-- The only way in which a smaller exponent gives a smaller difficulty: the larger one is a whole negative number of
half-lives, and the difficulty just below it is rounded down to less than half. -/
theorem difficultyAt_lt (hD : 1 ≤ D) (hD' : D < 2 ^ 224) (he : e ≤ e') (hlt : difficultyAt D e < difficultyAt D e') :
    ∃ s : Nat, e < -(65536 * s) ∧ 2 * quotient D (e % 65536).toNat < D ∧ s ≤ 254 ∧ (D - 1) * 2 ^ s < 2 ^ 256 ∧
      difficultyAt D e' ≤ min (D * 2 ^ s) (2 ^ 256 - 1) := by
  have hhalf := half_le_quotient D (f := (e % 65536).toNat) (by omega)
  have hle' := quotient_le D (e' % 65536).toNat
  have hw : D < 2 ^ 256 := hD'.trans (by decide)
  have hquot := lt_of_le_of_lt (quotient_le D (e % 65536).toNat) hw
  unfold difficultyAt at hlt ⊢
  have hk : e / 65536 < e' / 65536 := by
    by_contra hnot
    have heq : e' / 65536 = e / 65536 := by omega
    have hfrac : (e % 65536).toNat ≤ (e' % 65536).toNat := by omega
    have hanti := quotient_anti D hfrac
    rw [heq] at hlt
    exact absurd (Lib.Scale.scaled_mono hanti) (Nat.not_le.2 hlt)
  have hneg : e / 65536 < 0 := by
    by_contra hnot
    exact absurd (Lib.Scale.scaled_le_of_nonneg (Int.not_lt.1 hnot) hk ((Nat.div_le_div_right hle').trans hhalf))
      (Nat.not_le.2 hlt)
  have hdouble : 2 * quotient D (e % 65536).toNat < quotient D (e' % 65536).toNat := by
    by_contra hnot
    exact absurd (Lib.Scale.scaled_le_of_neg (m := 1) hneg (by omega) (lt_of_le_of_lt hle' hw) (by omega))
      (Nat.not_le.2 hlt)
  -- so nothing was rounded at the larger exponent
  have hfrac : (e' % 65536).toNat = 0 := by
    by_contra hne
    have := quotient_lt hD (Nat.pos_of_ne_zero hne)
    omega
  rw [hfrac, quotient_zero] at hdouble hlt
  rw [hfrac, quotient_zero]
  have hnonpos : e' / 65536 ≤ 0 := by
    by_contra hnot
    have hdown : scaled 256 (e' / 65536) D ≤ scaled 256 0 (quotient D (e % 65536).toNat) :=
      Lib.Scale.scaled_le_of_nonneg le_rfl (Int.not_le.1 hnot) hhalf
    have hup : scaled 256 0 (quotient D (e % 65536).toNat) ≤ scaled 256 (e / 65536) (quotient D (e % 65536).toNat) :=
      Lib.Scale.scaled_le_of_neg (m := 0) hneg (by omega) hquot (by omega)
    omega
  rw [Lib.Scale.scaled_of_nonpos hnonpos (by decide) hw, Lib.Scale.scaled_of_neg hneg] at hlt
  rw [Lib.Scale.scaled_of_nonpos hnonpos (by decide) hw]
  have hfits : ¬ (256 ≤ (-(e / 65536)).toNat ∨ 2 ^ 256 ≤ quotient D (e % 65536).toNat * 2 ^ (-(e / 65536)).toNat) := by
    intro hmax
    have hup : up 256 (-(e / 65536)).toNat (quotient D (e % 65536).toNat) = 2 ^ 256 - 1 := if_pos hmax
    have := Lib.Scale.up_le_max 256 (-(e' / 65536)).toNat D
    omega
  rw [not_or, Nat.not_le, Nat.not_le] at hfits
  refine ⟨(-(e' / 65536)).toNat, by omega, hdouble, by omega, lt_of_le_of_lt ?_ hfits.2, le_min ?_ ?_⟩
  · calc
      (D - 1) * 2 ^ (-(e' / 65536)).toNat ≤ quotient D (e % 65536).toNat * 2 * 2 ^ (-(e' / 65536)).toNat :=
        Nat.mul_le_mul_right _ (by omega)
      _ = quotient D (e % 65536).toNat * 2 ^ ((-(e' / 65536)).toNat + 1) := by rw [Nat.pow_succ, Nat.mul_assoc, Nat.mul_comm 2]
      _ ≤ quotient D (e % 65536).toNat * 2 ^ (-(e / 65536)).toNat :=
        Nat.mul_le_mul_left _ (Nat.pow_le_pow_right (by decide) (by omega))
  · exact Lib.Scale.up_le_mul (by omega)
  · exact Lib.Scale.up_le_max _ _ _

end Wrap

/-- The largest fraction that the exponent of a solve time can have: that of one second less than a whole number of
half-lives. -/
def AsertParams.lastFrac (p : AsertParams) : Nat := 65536 - (65535 + p.halfLife) / p.halfLife

section Fraction

variable {p : AsertParams} {t s : Nat}

theorem frac_le_lastFrac (hhalf : 1 ≤ p.halfLife) (hne : (exponentOf p t % 65536).toNat ≠ 0) :
    (exponentOf p t % 65536).toNat ≤ p.lastFrac := by
  have hpos : (0 : Int) < p.halfLife := by omega
  by_contra hnot
  obtain ⟨g, hg⟩ : ∃ g : Nat, (exponentOf p t % 65536).toNat + g = 65536 := ⟨65536 - (exponentOf p t % 65536).toNat, by omega⟩
  have hle : g + 1 ≤ (65535 + p.halfLife) / p.halfLife := by
    rw [AsertParams.lastFrac] at hnot
    omega
  have hmul : (g + 1) * p.halfLife ≤ 65535 + p.halfLife :=
    (Nat.mul_le_mul_right _ hle).trans (Nat.div_mul_le_self _ _)
  have hone : p.halfLife ≤ g * p.halfLife := Nat.le_mul_of_pos_left _ (by omega)
  -- `g` steps below a multiple of 65536 there is no exponent, since `g` steps are less than a second
  have hlow : exponentOf p t * p.halfLife ≤ ((t : Int) - p.spacing) * 65536 := Int.ediv_mul_le _ hpos.ne'
  have hhigh : ((t : Int) - p.spacing) * 65536 < (exponentOf p t + 1) * p.halfLife := Int.lt_ediv_add_one_mul_self _ hpos
  have hsplit : exponentOf p t * p.halfLife = 65536 * ((exponentOf p t / 65536 + 1) * p.halfLife) - g * p.halfLife := by
    have he : exponentOf p t = 65536 * (exponentOf p t / 65536 + 1) - g := by omega
    nth_rewrite 1 [he]
    ring
  rw [Nat.add_mul, Nat.one_mul] at hmul
  rw [Int.add_mul, Int.one_mul] at hhigh
  zify at hmul hone
  generalize (exponentOf p t / 65536 + 1) * (p.halfLife : Int) = a at hsplit
  omega

theorem lt_spacing_of_exponentOf_lt (hhalf : 1 ≤ p.halfLife) (h : exponentOf p t < -(65536 * s)) :
    s * p.halfLife < p.spacing := by
  rw [exponentOf, Int.ediv_lt_iff_lt_mul (by omega)] at h
  have hcomm : -(65536 * (s : Int)) * p.halfLife = -(65536 * (s * p.halfLife)) := by ring
  rw [hcomm] at h
  zify
  omega

theorem exponentOf_whole (hhalf : 1 ≤ p.halfLife) (h : s * p.halfLife ≤ p.spacing) :
    exponentOf p (p.spacing - s * p.halfLife) = -(65536 * s) := by
  have hpos : (p.halfLife : Int) ≠ 0 := by omega
  have hnum : (((p.spacing - s * p.halfLife : Nat) : Int) - p.spacing) * 65536 = -(65536 * s) * p.halfLife := by
    rw [Nat.cast_sub h, Nat.cast_mul]
    ring
  rw [exponentOf, hnum, Int.mul_ediv_cancel _ hpos]

theorem exponentOf_before (hhalf : 1 ≤ p.halfLife) (h : s * p.halfLife < p.spacing) :
    exponentOf p (p.spacing - s * p.halfLife - 1) = 65536 * (-(s : Int) - 1) + p.lastFrac := by
  have hpos : (0 : Int) < p.halfLife := by omega
  have hceil : (65535 + p.halfLife) / p.halfLife ≤ 65536 := by
    refine Nat.div_le_of_le_mul ?_
    nlinarith
  have hlast : (p.lastFrac : Int) = 65536 - ((65535 + p.halfLife) / p.halfLife : Nat) := by
    rw [AsertParams.lastFrac, Nat.cast_sub hceil]
    rfl
  have hnum : (((p.spacing - s * p.halfLife - 1 : Nat) : Int) - p.spacing) * 65536 =
      -65536 + p.halfLife * -(65536 * (s : Int)) := by
    rw [Nat.cast_sub (by omega), Nat.cast_sub h.le, Nat.cast_mul]
    push_cast
    ring
  have hdiv : (-65536 : Int) / p.halfLife = -((65535 + p.halfLife) / p.halfLife : Nat) := by
    have hlow := Nat.div_mul_le_self (65535 + p.halfLife) p.halfLife
    have hhigh := Nat.lt_div_mul_add (a := 65535 + p.halfLife) (b := p.halfLife) (by omega)
    generalize (65535 + p.halfLife) / p.halfLife = c at *
    refine le_antisymm ?_ ?_
    · refine Int.le_of_lt_add_one ((Int.ediv_lt_iff_lt_mul hpos).2 ?_)
      zify at hlow
      nlinarith
    · refine (Int.le_ediv_iff_mul_le hpos).2 ?_
      zify at hhigh
      nlinarith
  rw [exponentOf, hnum, Int.add_mul_ediv_left _ _ hpos.ne', hdiv, hlast]
  ring

theorem lastFrac_lt (hhalf : 1 ≤ p.halfLife) : p.lastFrac < 65536 := by
  have : 0 < (65535 + p.halfLife) / p.halfLife := Nat.div_pos (by omega) hhalf
  rw [AsertParams.lastFrac]
  omega

end Fraction

/-- The difficulty reacts in the right direction, and no value on the way overflows. -/
structure AsertParams.Reacts (p : AsertParams) (n D : Nat) : Prop where
  fits : ∀ t < 2 ^ 64, (nextDifficulty p n D t).isSome = true
  exact : saturatingMul 256 D 65536 = D * 65536
  antitone : ∀ t t' d d', t ≤ t' → t' < 2 ^ 64 → nextDifficulty p n D t = some d → nextDifficulty p n D t' = some d' → d' ≤ d
  fast : ∀ t d, t ≤ p.spacing → nextDifficulty p n D t = some d → D ≤ d
  slow : ∀ t d, p.spacing ≤ t → t < 2 ^ 64 → nextDifficulty p n D t = some d → d ≤ max D p.minimum
  bounded : ∀ t d, t < 2 ^ 64 → nextDifficulty p n D t = some d → p.minimum ≤ d

/-- Just below some whole number `s` of half-lives, the difficulty is rounded down to less than half before it is
doubled, and neither the lower bound nor the greatest word hides it. -/
def AsertParams.Dips (p : AsertParams) (D : Nat) : Prop :=
  2 * quotient D p.lastFrac < D ∧ ∃ s ≤ 254, s * p.halfLife < p.spacing ∧ (D - 1) * 2 ^ s < 2 ^ 256 ∧
    p.minimum < min (D * 2 ^ s) (2 ^ 256 - 1)

section Direction

variable {p : AsertParams} {n D t t' d d' : Nat}

theorem dips_of_lt (hhalf : 1 ≤ p.halfLife) (hD : 1 ≤ D) (hD' : D < 2 ^ 224) (ht : t ≤ t')
    (hlt : max (difficultyAt D (exponentOf p t)) p.minimum < max (difficultyAt D (exponentOf p t')) p.minimum) : p.Dips D := by
  have hmin : p.minimum < difficultyAt D (exponentOf p t') := by
    by_contra hnot
    rw [Nat.max_eq_right (Nat.not_lt.1 hnot)] at hlt
    exact absurd (Nat.le_max_right _ _) (Nat.not_le.2 hlt)
  have hlt' : difficultyAt D (exponentOf p t) < difficultyAt D (exponentOf p t') := by
    rw [Nat.max_eq_left hmin.le] at hlt
    exact lt_of_le_of_lt (Nat.le_max_left _ _) hlt
  obtain ⟨s, hs, hquot, hle, hfits, hbound⟩ := difficultyAt_lt hD hD' (exponentOf_mono hhalf ht) hlt'
  have hne : (exponentOf p t % 65536).toNat ≠ 0 := by
    intro hzero
    rw [hzero, quotient_zero] at hquot
    omega
  have hlast := quotient_anti D (frac_le_lastFrac hhalf hne)
  exact ⟨by omega, s, hle, lt_spacing_of_exponentOf_lt hhalf hs, hfits, lt_of_lt_of_le hmin hbound⟩

variable {s : Nat}

theorem difficultyAt_dip (hhalf : 1 ≤ p.halfLife) (hD' : D < 2 ^ 224) (hquot : 2 * quotient D p.lastFrac < D)
    (hs : s ≤ 254) (hlt : s * p.halfLife < p.spacing) (hfits : (D - 1) * 2 ^ s < 2 ^ 256) :
    difficultyAt D (exponentOf p (p.spacing - s * p.halfLife - 1)) ≤ (D - 1) * 2 ^ s ∧
      difficultyAt D (exponentOf p (p.spacing - s * p.halfLife)) = min (D * 2 ^ s) (2 ^ 256 - 1) := by
  have hlast := lastFrac_lt hhalf
  have hw : D < 2 ^ 256 := hD'.trans (by decide)
  constructor
  · have hdiv : (65536 * (-(s : Int) - 1) + p.lastFrac) / 65536 = -((s + 1 : Nat) : Int) := by omega
    have hmod : ((65536 * (-(s : Int) - 1) + p.lastFrac) % 65536).toNat = p.lastFrac := by omega
    have hle : quotient D p.lastFrac * 2 ^ (s + 1) ≤ (D - 1) * 2 ^ s := by
      rw [Nat.pow_succ, Nat.mul_comm (2 ^ s), ← Nat.mul_assoc]
      exact Nat.mul_le_mul_right _ (by omega)
    rw [exponentOf_before hhalf hlt, difficultyAt, hdiv, hmod, Lib.Scale.scaled_of_neg (by omega), Int.neg_neg,
      Int.toNat_natCast, Lib.Scale.up_of_lt (by omega) (lt_of_le_of_lt hle hfits)]
    exact hle
  · have hdiv : -(65536 * (s : Int)) / 65536 = -(s : Int) := by omega
    have hmod : (-(65536 * (s : Int)) % 65536).toNat = 0 := by omega
    rw [exponentOf_whole hhalf hlt.le, difficultyAt, hdiv, hmod, quotient_zero,
      Lib.Scale.scaled_of_nonpos (by omega) (by decide) hw, Int.neg_neg, Int.toNat_natCast, up]
    by_cases hmax : 2 ^ 256 ≤ D * 2 ^ s
    · rw [if_pos (.inr hmax), Nat.min_eq_right (by omega)]
    · rw [if_neg (by omega), Nat.min_eq_left (by omega)]

theorem lt_max_of_lt (hD' : D < 2 ^ 224) (hfits : (D - 1) * 2 ^ s < 2 ^ 256) : (D - 1) * 2 ^ s < 2 ^ 256 - 1 := by
  cases s with
  | zero =>
    rw [Nat.pow_zero, Nat.mul_one]
    omega
  | succ s =>
    have heven : (D - 1) * 2 ^ (s + 1) = 2 * ((D - 1) * 2 ^ s) := by ring
    omega

/-- For every spacing and half-life up to `2 ^ 32`, every block number from 2 on and every difficulty below `2 ^ 224`:
the next difficulty reacts in the right direction exactly if it does not dip. -/
theorem difficulty_reacts_iff (p : AsertParams) (n D : Nat) (hspacing : 1 ≤ p.spacing ∧ p.spacing ≤ 2 ^ 32)
    (hhalf : 1 ≤ p.halfLife ∧ p.halfLife ≤ 2 ^ 32) (hn : 2 ≤ n) (hD : 1 ≤ D ∧ D < 2 ^ 224) :
    p.Reacts n D ↔ ¬ p.Dips D := by
  have heq : ∀ t < 2 ^ 64, nextDifficulty p n D t = some (max (difficultyAt D (exponentOf p t)) p.minimum) :=
    fun t ht => nextDifficulty_eq hspacing.2 hhalf.1 hn hD.2 ht
  have hval : ∀ t d, t < 2 ^ 64 → nextDifficulty p n D t = some d → max (difficultyAt D (exponentOf p t)) p.minimum = d :=
    fun t d ht h => Option.some_inj.1 ((heq t ht).symm.trans h)
  constructor
  · rintro h ⟨hquot, s, hs, hlt, hfits, hmin⟩
    obtain ⟨hlow, hhigh⟩ := difficultyAt_dip hhalf.1 hD.2 hquot hs hlt hfits
    have hle := h.antitone _ _ _ _ (Nat.sub_le _ 1) (by omega) (heq (p.spacing - s * p.halfLife - 1) (by omega))
      (heq (p.spacing - s * p.halfLife) (by omega))
    have hstep : (D - 1) * 2 ^ s < D * 2 ^ s := Nat.mul_lt_mul_of_pos_right (by omega) (Nat.two_pow_pos s)
    have hstrict := lt_min hstep (lt_max_of_lt hD.2 hfits)
    rw [hhigh, Nat.max_eq_left hmin.le] at hle
    exact absurd hle (Nat.not_le.2 (max_lt (lt_of_le_of_lt hlow hstrict) hmin))
  · intro hdips
    have hanti : ∀ t t', t ≤ t' → max (difficultyAt D (exponentOf p t')) p.minimum ≤
        max (difficultyAt D (exponentOf p t)) p.minimum :=
      fun t t' ht => Nat.not_lt.1 fun hlt => hdips (dips_of_lt hhalf.1 hD.1 hD.2 ht hlt)
    have hspace : max (difficultyAt D (exponentOf p p.spacing)) p.minimum = max D p.minimum := by
      rw [exponentOf_spacing, difficultyAt_zero]
    refine ⟨fun t ht => by rw [heq t ht]; rfl, Nat.min_eq_left (by omega), fun t t' d d' ht ht' hd hd' => ?_,
      fun t d ht hd => ?_, fun t d ht ht' hd => ?_, fun t d ht hd => ?_⟩
    · rw [← hval t d (by omega) hd, ← hval t' d' ht' hd']
      exact hanti t t' ht
    · rw [← hval t d (by omega) hd]
      exact (Nat.le_max_left D p.minimum).trans (hspace ▸ hanti t p.spacing ht)
    · rw [← hval t d ht' hd, ← hspace]
      exact hanti p.spacing t ht
    · rw [← hval t d ht hd]
      exact Nat.le_max_right _ _

end Direction

section Mock

def hourly : AsertParams := ⟨60, 3600, 1, 1⟩

/-- A block mined a second too fast lowers a difficulty of 3 to 2. -/
theorem fast_block_lowers_difficulty : nextDifficulty hourly 2 3 59 = some 2 ∧ nextDifficulty hourly 2 3 60 = some 3 := by
  decide +kernel

/-- A difficulty of 4 does not dip. -/
theorem difficulty_reacts_iff_four : hourly.Reacts 2 4 := by
  refine (difficulty_reacts_iff hourly 2 4 (by decide) (by decide) (by decide) (by decide)).2 ?_
  rintro ⟨hquot, -⟩
  revert hquot
  decide

end Mock

end Boltchain.Pow
