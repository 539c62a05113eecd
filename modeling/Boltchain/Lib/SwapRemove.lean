import Mathlib

namespace Boltchain.Lib.SwapRemove

variable {α : Type}

/-- `pos` gives the place of each element of `l`, counted from one. -/
def Indexed (l : List α) (pos : α → Nat) : Prop := ∀ k a, l[k]? = some a → pos a = k + 1

/-- Takes out the element at `k`, moving the last one, `z`, into its place. -/
def remove (l : List α) (k : Nat) (z : α) : List α := (l.set k z).dropLast

variable {l : List α} {pos : α → Nat} {a z : α}

theorem Indexed.nodup (h : Indexed l pos) : l.Nodup := by
  rw [List.nodup_iff_getElem?_ne_getElem?]
  intro i j hij hj heq
  have hsome : l[j]? = some l[j] := List.getElem?_eq_getElem hj
  have hi := h i l[j] (heq.trans hsome)
  have hj := h j l[j] hsome
  omega

theorem Indexed.getElem?_of_mem (h : Indexed l pos) (ha : a ∈ l) : 0 < pos a ∧ l[pos a - 1]? = some a := by
  obtain ⟨k, hk⟩ := List.mem_iff_getElem?.1 ha
  rw [h k a hk]
  exact ⟨Nat.succ_pos k, hk⟩

section Push

variable [DecidableEq α]

theorem Indexed.push (h : Indexed l pos) (ha : a ∉ l) : Indexed (l ++ [a]) (Function.update pos a (l.length + 1)) := by
  intro k b hb
  by_cases hk : k < l.length
  · rw [List.getElem?_append_left hk] at hb
    have hne : b ≠ a := fun hba => ha (hba ▸ List.mem_of_getElem? hb)
    rw [Function.update_of_ne hne]
    exact h k b hb
  · have hk : k = l.length := by
      have := (List.getElem?_eq_some_iff.1 hb).1
      rw [List.length_append, List.length_singleton] at this
      omega
    subst hk
    obtain rfl : a = b := by simpa using hb
    rw [Function.update_self]

end Push

theorem getElem?_remove (k i : Nat) : (remove l k z)[i]? =
    if i + 1 < l.length then (if k = i then some z else l[i]?) else none := by
  rw [remove, List.getElem?_dropLast, List.length_set, List.getElem?_set]
  by_cases hi : i + 1 < l.length
  · rw [if_pos hi, if_pos (by omega)]
    by_cases hk : k = i
    · rw [if_pos hk, if_pos hk, if_pos (by omega)]
    · rw [if_neg hk, if_neg hk]
  · rw [if_neg hi, if_neg (by omega)]

section Remove

variable (h : Indexed l pos) (ha : a ∈ l) (hz : l.getLast? = some z)

include h ha hz

theorem Indexed.pos_last : pos z = l.length := by
  have hne : l ≠ [] := List.ne_nil_of_mem ha
  have hpos : 0 < l.length := List.length_pos_iff.2 hne
  have hlast : l[l.length - 1]? = some z := by rw [← List.getLast?_eq_getElem?, hz]
  have := h _ z hlast
  omega

theorem Indexed.remove [DecidableEq α] :
    Indexed (remove l (pos a - 1) z) (Function.update (Function.update pos z (pos a)) a 0) := by
  obtain ⟨hpos, hat⟩ := h.getElem?_of_mem ha
  have hlast := h.pos_last ha hz
  intro i b hb
  rw [getElem?_remove] at hb
  split at hb
  · split at hb
    · -- the element that moved
      rename_i hi hk
      obtain rfl : z = b := by simpa using hb
      have hza : z ≠ a := by
        rintro rfl
        omega
      rw [Function.update_of_ne hza, Function.update_self]
      omega
    · rename_i hi hk
      have hbi := h i b hb
      have hba : b ≠ a := by
        rintro rfl
        omega
      have hbz : b ≠ z := by
        rintro rfl
        omega
      rw [Function.update_of_ne hba, Function.update_of_ne hbz, hbi]
  · cases hb

theorem Indexed.mem_remove (b : α) : b ∈ SwapRemove.remove l (pos a - 1) z ↔ b ∈ l ∧ b ≠ a := by
  obtain ⟨hpos, hat⟩ := h.getElem?_of_mem ha
  have hlast := h.pos_last ha hz
  have hzl : z ∈ l := List.mem_of_getLast? hz
  constructor
  · intro hb
    obtain ⟨i, hi⟩ := List.mem_iff_getElem?.1 hb
    rw [getElem?_remove] at hi
    split at hi
    · split at hi
      · obtain rfl : z = b := by simpa using hi
        refine ⟨hzl, ?_⟩
        rintro rfl
        omega
      · have hbi := h i b hi
        refine ⟨List.mem_of_getElem? hi, ?_⟩
        rintro rfl
        omega
    · cases hi
  · rintro ⟨hb, hba⟩
    obtain ⟨hpb, hbat⟩ := h.getElem?_of_mem hb
    have hblt := (List.getElem?_eq_some_iff.1 hbat).1
    have halt := (List.getElem?_eq_some_iff.1 hat).1
    have hne : pos a ≠ pos b := by
      intro heq
      rw [heq, hbat] at hat
      exact hba (Option.some_inj.1 hat)
    rw [List.mem_iff_getElem?]
    by_cases hmoved : pos b = l.length
    · -- `b` is the last element, which stands where `a` stood
      have hbz : b = z := by
        obtain ⟨-, hzat⟩ := h.getElem?_of_mem hzl
        rw [hlast, ← hmoved, hbat] at hzat
        exact Option.some_inj.1 hzat
      refine ⟨pos a - 1, ?_⟩
      rw [getElem?_remove, if_pos (by omega), if_pos rfl, hbz]
    · refine ⟨pos b - 1, ?_⟩
      rw [getElem?_remove, if_pos (by omega), if_neg (by omega), hbat]

end Remove

end Boltchain.Lib.SwapRemove
