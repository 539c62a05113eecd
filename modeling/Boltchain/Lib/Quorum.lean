import Mathlib

namespace Boltchain.Lib.Quorum

variable {ι : Type} [DecidableEq ι]

theorem exists_mem_inter {w : ι → ℕ} {U A B Z : Finset ι} (hA : A ⊆ U) (hB : B ⊆ U)
    (qA : 2 * ∑ i ∈ U, w i < 3 * ∑ i ∈ A, w i) (qB : 2 * ∑ i ∈ U, w i < 3 * ∑ i ∈ B, w i)
    (hZ : 3 * ∑ i ∈ Z, w i < ∑ i ∈ U, w i) : ∃ i ∈ A, i ∈ B ∧ i ∉ Z := by
  by_contra h
  have hsub : A ∩ B ⊆ Z := by
    intro i hi
    rw [Finset.mem_inter] at hi
    by_contra hz
    exact h ⟨i, hi.1, hi.2, hz⟩
  have hinter := Finset.sum_le_sum_of_subset (f := w) hsub
  have hunion := Finset.sum_le_sum_of_subset (f := w) (Finset.union_subset hA hB)
  have hsum : ∑ i ∈ A ∪ B, w i + ∑ i ∈ A ∩ B, w i = ∑ i ∈ A, w i + ∑ i ∈ B, w i :=
    Finset.sum_union_inter
  omega

end Boltchain.Lib.Quorum
