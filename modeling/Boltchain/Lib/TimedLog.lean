import Mathlib

namespace Boltchain.Lib.TimedLog

/-- The amounts of the entries, each a time and an amount, whose time satisfies `p`. -/
def sumWhere (p : Nat → Prop) [DecidablePred p] (log : List (Nat × Nat)) : Nat :=
  (log.map fun e => if p e.1 then e.2 else 0).sum

section

variable {p q : Nat → Prop} [DecidablePred p] [DecidablePred q] {log : List (Nat × Nat)} {e : Nat × Nat}

@[simp] theorem sumWhere_nil : sumWhere p [] = 0 := rfl

@[simp] theorem sumWhere_cons : sumWhere p (e :: log) = (if p e.1 then e.2 else 0) + sumWhere p log :=
  List.sum_cons

theorem sumWhere_mono (h : ∀ e ∈ log, p e.1 → q e.1) : sumWhere p log ≤ sumWhere q log := by
  induction log with
  | nil => exact Nat.le_refl _
  | cons e log ih =>
    have hrest := ih fun d hd => h d (List.mem_cons_of_mem e hd)
    have hhead := h e List.mem_cons_self
    rw [sumWhere_cons, sumWhere_cons]
    split <;> split <;> first | omega | exact absurd (hhead ‹_›) ‹_›

theorem sumWhere_le_cons : sumWhere p log ≤ sumWhere p (e :: log) := by
  rw [sumWhere_cons]
  exact Nat.le_add_left _ _

end

/-- A ring of `n` cells, each with a tag and an amount, that stands for a log: a cell is tagged with the last time that
falls on it, and has what was logged at that time. A tag that does not fall on its cell was never written. -/
structure Refines {n : Nat} [NeZero n] (tag amount : Fin n → Nat) (log : List (Nat × Nat)) : Prop where
  amount : ∀ i, amount i = if Fin.ofNat n (tag i) = i then sumWhere (· = tag i) log else 0
  latest : ∀ e ∈ log, e.1 ≤ tag (Fin.ofNat n e.1)
  unwritten : ∀ i, Fin.ofNat n (tag i) ≠ i → tag i = 0

section Ring

variable {n : Nat} [NeZero n] {tag amount : Fin n → Nat} {log : List (Nat × Nat)}

theorem Refines.empty : Refines (fun _ : Fin n => 0) (fun _ => 0) [] where
  amount i := by simp
  latest e he := by cases he
  unwritten _ _ := rfl

/-- An entry at a time not before those of the log. -/
theorem Refines.record (h : Refines tag amount log) {now x : Nat} (hnow : ∀ i, tag i ≤ now) :
    Refines (Function.update tag (Fin.ofNat n now) now)
      (Function.update amount (Fin.ofNat n now)
        ((if tag (Fin.ofNat n now) = now then amount (Fin.ofNat n now) else 0) + x)) ((now, x) :: log) := by
  refine ⟨fun i => ?_, fun e he => ?_, fun i hi => ?_⟩
  · by_cases hplace : i = Fin.ofNat n now
    · subst hplace
      simp only [Function.update_self, if_pos, sumWhere_cons]
      -- nothing was logged at this time before, or the cell has it
      have hold : (if tag (Fin.ofNat n now) = now then amount (Fin.ofNat n now) else 0) = sumWhere (· = now) log := by
        split
        case isTrue heq => rw [h.amount, heq, if_pos rfl]
        case isFalse hne =>
          have hnone : sumWhere (· = now) log ≤ sumWhere (fun _ => False) log := by
            apply sumWhere_mono
            intro e he heq
            have hle := h.latest e he
            rw [heq] at hle
            exact hne (Nat.le_antisymm (hnow _) hle)
          have hzero : sumWhere (fun _ => False) log = 0 := by simp [sumWhere]
          omega
      rw [hold, Nat.add_comm]
    · rw [Function.update_of_ne hplace, Function.update_of_ne hplace, h.amount]
      split
      case isTrue hfalls =>
        have hne : now ≠ tag i := by
          intro heq
          rw [heq] at hplace
          exact hplace hfalls.symm
        rw [sumWhere_cons, if_neg hne, Nat.zero_add]
      case isFalse => rfl
  · cases he with
    | head => rw [Function.update_self]
    | tail _ he =>
      by_cases hplace : Fin.ofNat n e.1 = Fin.ofNat n now
      · rw [hplace, Function.update_self]
        exact (h.latest e he).trans (hnow _)
      · rw [Function.update_of_ne hplace]
        exact h.latest e he
  · by_cases hplace : i = Fin.ofNat n now
    · subst hplace
      rw [Function.update_self] at hi
      exact absurd rfl hi
    · rw [Function.update_of_ne hplace] at hi ⊢
      exact h.unwritten i hi

theorem sum_list_comm {ι α : Type} (s : Finset ι) (l : List α) (f : ι → α → Nat) :
    ∑ i ∈ s, (l.map (f i)).sum = (l.map fun a => ∑ i ∈ s, f i a).sum := by
  induction l with
  | nil => simp
  | cons a l ih => simp only [List.map_cons, List.sum_cons, Finset.sum_add_distrib, ih]

/-- The cells tagged with one of the last `k + 1` times have all that was logged in them, if the ring is longer. -/
theorem Refines.window (h : Refines tag amount log) {now k : Nat} (hk : k < n) (hnow : ∀ i, tag i ≤ now) :
    ∑ i, (if now ≤ tag i + k then amount i else 0) = sumWhere (now ≤ · + k) log := by
  have hcell : ∀ i, (if now ≤ tag i + k then amount i else 0) =
      (log.map fun e => if now ≤ tag i + k ∧ Fin.ofNat n (tag i) = i ∧ e.1 = tag i then e.2 else 0).sum := by
    intro i
    by_cases hin : now ≤ tag i + k
    · by_cases hfalls : Fin.ofNat n (tag i) = i
      · simp only [h.amount i, hin, hfalls, if_true, true_and]
        rfl
      · simp only [h.amount i, hin, hfalls, if_true, if_false, false_and, and_false, List.map_const', List.sum_replicate,
          smul_zero]
    · simp [hin]
  rw [Finset.sum_congr rfl fun i _ => hcell i, sum_list_comm, sumWhere]
  congr 1
  apply List.map_congr_left
  intro e he
  have hlatest := h.latest e he
  by_cases hin : now ≤ e.1 + k
  · -- the cell of an entry in the window has its time for a tag
    have htag : tag (Fin.ofNat n e.1) = e.1 := by
      have hle := hnow (Fin.ofNat n e.1)
      by_cases hfalls : Fin.ofNat n (tag (Fin.ofNat n e.1)) = Fin.ofNat n e.1
      · have hmod : tag (Fin.ofNat n e.1) % n = e.1 % n := by simpa [Fin.ext_iff] using hfalls
        have hdvd := (Nat.modEq_iff_dvd' hlatest).1 hmod.symm
        have hzero := Nat.eq_zero_of_dvd_of_lt hdvd (by omega)
        omega
      · have := h.unwritten _ hfalls
        omega
    rw [if_pos hin, Finset.sum_eq_single (Fin.ofNat n e.1)]
    · rw [htag, if_pos ⟨hin, rfl, rfl⟩]
    · intro i _ hne
      apply if_neg
      rintro ⟨-, hfalls, heq⟩
      rw [heq] at hne
      exact hne hfalls.symm
    · intro hnot
      exact absurd (Finset.mem_univ _) hnot
  · rw [if_neg hin]
    apply Finset.sum_eq_zero
    intro i _
    apply if_neg
    rintro ⟨hwindow, -, heq⟩
    omega

end Ring

end Boltchain.Lib.TimedLog
