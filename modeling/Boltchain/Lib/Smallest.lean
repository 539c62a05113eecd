import Mathlib

namespace Boltchain.Lib.Smallest

variable {α : Type} [LinearOrder α] {l l' : List α} {n : Nat} {a x : α}

def smallest (n : Nat) (l : List α) : List α := (l.mergeSort (· ≤ ·)).take n

theorem sorted_mergeSort (l : List α) : (l.mergeSort (· ≤ ·)).Pairwise (· ≤ ·) := by
  have h : (l.mergeSort (· ≤ ·)).Pairwise fun a b => decide (a ≤ b) = true := List.pairwise_mergeSort
    (fun a b c hab hbc => by simpa using le_trans (by simpa using hab) (by simpa using hbc))
    (fun a b => by simpa using le_total a b) l
  exact h.imp fun hab => by simpa using hab

theorem mergeSort_eq_of_perm (h : l.Perm l') : l.mergeSort (· ≤ ·) = l'.mergeSort (· ≤ ·) :=
  ((List.mergeSort_perm l _).trans (h.trans (List.mergeSort_perm l' _).symm)).eq_of_pairwise
    (fun _ _ _ _ hab hba => le_antisymm hab hba) (sorted_mergeSort l) (sorted_mergeSort l')

theorem smallest_of_perm (h : l.Perm l') : smallest n l = smallest n l' := by
  rw [smallest, smallest, mergeSort_eq_of_perm h]

section

variable [BEq α] [LawfulBEq α]

theorem mergeSort_erase (l : List α) (x : α) : (l.erase x).mergeSort (· ≤ ·) = (l.mergeSort (· ≤ ·)).erase x := by
  have hperm : ((l.erase x).mergeSort (· ≤ ·)).Perm ((l.mergeSort (· ≤ ·)).erase x) :=
    (List.mergeSort_perm _ _).trans ((List.mergeSort_perm l _).symm.erase x)
  exact hperm.eq_of_pairwise (fun _ _ _ _ hab hba => le_antisymm hab hba) (sorted_mergeSort _)
    ((sorted_mergeSort l).sublist List.erase_sublist)

theorem smallest_erase_of_notMem (h : x ∉ smallest n l) : smallest n (l.erase x) = smallest n l := by
  rw [smallest] at h
  rw [smallest, smallest, mergeSort_erase]
  generalize l.mergeSort (· ≤ ·) = s at h
  by_cases hlen : n ≤ s.length
  · conv_lhs => rw [← List.take_append_drop n s]
    rw [List.erase_append_right _ h, List.take_append_of_le_length (by simp [hlen]), List.take_take, Nat.min_self]
  · have hall : s.take n = s := List.take_of_length_le (by omega)
    rw [hall] at h
    rw [List.erase_of_not_mem h]

theorem smallest_erase_of_mem (h : x ∈ smallest n l) :
    ∃ new, new.length ≤ 1 ∧ new ⊆ l.erase x ∧ smallest n (l.erase x) = (smallest n l).erase x ++ new := by
  have hsub : ∀ y ∈ (l.mergeSort (· ≤ ·)).erase x, y ∈ l.erase x := by
    intro y hy
    rw [← mergeSort_erase] at hy
    exact (List.mergeSort_perm _ _).mem_iff.1 hy
  rw [smallest] at h
  rw [smallest, smallest, mergeSort_erase]
  generalize l.mergeSort (· ≤ ·) = s at h hsub
  have hsplit : s.erase x = (s.take n).erase x ++ s.drop n := by
    conv_lhs => rw [← List.take_append_drop n s]
    rw [List.erase_append_left _ h]
  rw [hsplit] at hsub ⊢
  have hlen : ((s.take n).erase x).length = (s.take n).length - 1 := List.length_erase_of_mem h
  refine ⟨(s.drop n).take (n - ((s.take n).erase x).length), ?_, fun y hy => ?_, ?_⟩
  · have hn : (s.take n).length ≤ n := List.length_take_le n s
    by_cases hshort : s.length ≤ n
    · simp [List.drop_of_length_le hshort]
    · rw [List.length_take, hlen, List.length_take]
      omega
  · exact hsub y (List.mem_append_right _ (List.mem_of_mem_take hy))
  · have hn : (s.take n).length ≤ n := List.length_take_le n s
    rw [List.take_append, List.take_of_length_le (by omega)]

end

theorem smallest_cons (x : α) (l : List α) :
    ((smallest n l).filter (· ∉ smallest n (x :: l))).length ≤ 1 ∧
      ∀ y ∈ smallest n (x :: l), y = x ∨ y ∈ smallest n l := by
  have herase : (x :: l).erase x = l := List.erase_cons_head x l
  by_cases hx : x ∈ smallest n (x :: l)
  · obtain ⟨new, hlen, -, heq⟩ := smallest_erase_of_mem hx
    rw [herase] at heq
    refine ⟨?_, fun y hy => ?_⟩
    · rw [heq, List.filter_append, List.filter_eq_nil_iff.2, List.nil_append]
      · exact (List.length_filter_le _ new).trans hlen
      · intro y hy
        simpa using List.mem_of_mem_erase hy
    · by_cases hyx : y = x
      · exact .inl hyx
      · rw [heq]
        exact .inr (List.mem_append_left _ ((List.mem_erase_of_ne hyx).2 hy))
  · have heq := smallest_erase_of_notMem hx
    rw [herase] at heq
    rw [heq]
    refine ⟨?_, fun y hy => .inr hy⟩
    rw [List.filter_eq_nil_iff.2 (by simp)]
    exact Nat.zero_le 1

theorem nodup_smallest (h : l.Nodup) : (smallest n l).Nodup :=
  ((List.mergeSort_perm l _).nodup_iff.2 h).sublist (List.take_sublist _ _)

theorem smallest_append (hl : l.Nodup) (new : List α) :
    ((smallest n l).filter (· ∉ smallest n (new ++ l))).length ≤ new.length ∧
      ∀ y ∈ smallest n (new ++ l), y ∈ new ∨ y ∈ smallest n l := by
  induction new with
  | nil =>
    rw [List.nil_append, List.filter_eq_nil_iff.2 (by simp)]
    exact ⟨Nat.zero_le _, fun y hy => .inr hy⟩
  | cons x new ih =>
    obtain ⟨hlost, hgained⟩ := smallest_cons (n := n) x (new ++ l)
    refine ⟨?_, fun y hy => ?_⟩
    · -- what is lost in the end was lost before the last entry came or then
      have hsub : (smallest n l).filter (· ∉ smallest n (x :: (new ++ l))) ⊆
          (smallest n l).filter (· ∉ smallest n (new ++ l)) ++
            (smallest n (new ++ l)).filter (· ∉ smallest n (x :: (new ++ l))) := by
        intro y hy
        simp only [List.mem_append, List.mem_filter, decide_eq_true_eq] at hy ⊢
        by_cases hmid : y ∈ smallest n (new ++ l)
        · exact .inr ⟨hmid, hy.2⟩
        · exact .inl ⟨hy.1, hmid⟩
      have hle := (((nodup_smallest hl).filter _).subperm hsub).length_le
      rw [List.length_append] at hle
      rw [List.cons_append, List.length_cons]
      omega
    · rcases hgained y hy with rfl | hy
      · exact .inl List.mem_cons_self
      · exact (ih.2 y hy).imp_left (List.mem_cons_of_mem x)

end Boltchain.Lib.Smallest
