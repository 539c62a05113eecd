import Mathlib

namespace Boltchain.Lib.Ledger

section Total

variable {ι : Type} [Fintype ι]

def total (f : ι → Nat) : Nat := ∑ a, f a

variable [DecidableEq ι]

theorem total_update (f : ι → Nat) (a : ι) (v : Nat) : total (Function.update f a v) + f a = total f + v := by
  have hf : total f = f a + ∑ x ∈ Finset.univ \ {a}, f x :=
    Finset.sum_eq_add_sum_sdiff_singleton_of_mem (Finset.mem_univ a) f
  rw [total, Finset.sum_update_of_mem (Finset.mem_univ a), hf]
  omega

end Total

section Lists

variable {α : Type} {l : List α} {i : Nat} {x y : α}

def sumOf (f : α → Nat) (l : List α) : Nat := (l.map f).sum

@[simp]
theorem sumOf_nil (f : α → Nat) : sumOf f [] = 0 := rfl

@[simp]
theorem sumOf_append (f : α → Nat) (l l' : List α) : sumOf f (l ++ l') = sumOf f l + sumOf f l' := by
  simp [sumOf]

@[simp]
theorem sumOf_singleton (f : α → Nat) (x : α) : sumOf f [x] = f x := by
  simp [sumOf]

theorem sumOf_set (f : α → Nat) (h : l[i]? = some x) : sumOf f (l.set i y) + f x = sumOf f l + f y := by
  induction l generalizing i with
  | nil => simp at h
  | cons z l ih =>
    cases i with
    | zero =>
      obtain rfl : z = x := by simpa using h
      simp only [sumOf, List.set_cons_zero, List.map_cons, List.sum_cons]
      omega
    | succ i =>
      have hi := ih (by simpa using h)
      simp only [sumOf, List.set_cons_succ, List.map_cons, List.sum_cons] at hi ⊢
      omega

theorem getElem?_concat_eq_some : (l ++ [y])[i]? = some x ↔ l[i]? = some x ∨ i = l.length ∧ x = y := by
  by_cases hi : i < l.length
  · rw [List.getElem?_append_left hi]
    exact ⟨.inl, fun h => h.resolve_right fun h => by omega⟩
  · rw [List.getElem?_append_right (Nat.not_lt.1 hi), List.getElem?_eq_none (Nat.not_lt.1 hi)]
    simp only [List.getElem?_singleton, reduceCtorEq, false_or]
    by_cases h : i = l.length
    · simp [h, eq_comm]
    · have hpos : i - l.length ≠ 0 := by omega
      simp [h, hpos]

theorem countP_eq_sumOf (p : α → Bool) (l : List α) : l.countP p = sumOf (fun x => (p x).toNat) l := by
  induction l with
  | nil => rfl
  | cons z l ih =>
    rw [List.countP_cons, ih]
    cases hz : p z <;> simp [sumOf, hz, Nat.add_comm]

theorem sumOf_of_leave {l' : List α} (f : α → Nat) (hl : l.Nodup) (hl' : l'.Nodup) (h : x ∈ l)
    (hmem : ∀ y, y ∈ l' ↔ y ∈ l ∧ y ≠ x) : sumOf f l' + f x = sumOf f l := by
  classical
  have hx : x ∉ l' := fun hx => ((hmem x).1 hx).2 rfl
  have hperm : l.Perm (x :: l') := by
    rw [List.perm_ext_iff_of_nodup hl (List.nodup_cons.2 ⟨hx, hl'⟩)]
    intro y
    rw [List.mem_cons, hmem]
    by_cases hy : y = x
    · simp [hy, h]
    · simp [hy]
  rw [sumOf, sumOf, (hperm.map f).sum_eq, List.map_cons, List.sum_cons, Nat.add_comm]

section Update

variable {β : Type} [DecidableEq α] {g : β → Nat} {f : α → β} {v : β}

theorem sumOf_update_of_notMem (h : x ∉ l) :
    sumOf (fun y => g (Function.update f x v y)) l = sumOf (fun y => g (f y)) l := by
  refine congrArg List.sum (List.map_congr_left fun y hy => ?_)
  have hne : y ≠ x := fun hyx => h (hyx ▸ hy)
  rw [Function.update_of_ne hne]

theorem sumOf_update_of_mem (hl : l.Nodup) (h : x ∈ l) :
    sumOf (fun y => g (Function.update f x v y)) l + g (f x) = sumOf (fun y => g (f y)) l + g v := by
  have hmem : ∀ y, y ∈ l.erase x ↔ y ∈ l ∧ y ≠ x := fun y => hl.mem_erase_iff.trans and_comm
  have hx : x ∉ l.erase x := fun hx => ((hmem x).1 hx).2 rfl
  rw [← sumOf_of_leave _ hl (hl.erase x) h hmem, ← sumOf_of_leave (fun y => g (f y)) hl (hl.erase x) h hmem,
    sumOf_update_of_notMem hx, Function.update_self]
  omega

end Update

end Lists

end Boltchain.Lib.Ledger
