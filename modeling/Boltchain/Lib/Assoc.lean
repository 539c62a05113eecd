import Mathlib

namespace Boltchain.Lib.Assoc

variable {K V : Type} [DecidableEq K]

/-- A finite map as an association list; the newest binding of a key replaces the older. -/
def put (m : List (K × V)) (k : K) (v : V) : List (K × V) := (k, v) :: m.filter (·.1 ≠ k)

def del (m : List (K × V)) (k : K) : List (K × V) := m.filter (·.1 ≠ k)

def keys (m : List (K × V)) : List K := m.map (·.1)

variable {k : K} {m : List (K × V)} {v : V} {x : K × V}

theorem mem_put (h : x ∈ put m k v) :
    x = (k, v) ∨ x ∈ m := by
  rcases List.mem_cons.1 h with h | h
  · exact .inl h
  · exact .inr (List.mem_filter.1 h).1

theorem mem_del (h : x ∈ del m k) : x ∈ m ∧ x.1 ≠ k := by
  have h := List.mem_filter.1 h
  exact ⟨h.1, of_decide_eq_true h.2⟩

omit [DecidableEq K] in
theorem mem_of_lookup [BEq K] [LawfulBEq K] (h : m.lookup k = some v) : (k, v) ∈ m := by
  induction m with
  | nil => cases h
  | cons a m ih =>
    rw [List.lookup_cons] at h
    by_cases hk : k = a.1
    · subst hk
      rw [beq_self_eq_true] at h
      cases h
      exact List.mem_cons_self
    · rw [beq_eq_false_iff_ne.2 hk] at h
      exact List.mem_cons_of_mem _ (ih h)

omit [DecidableEq K] in
theorem mem_keys : k ∈ keys m ↔ ∃ v, (k, v) ∈ m := by
  simp [keys]

theorem not_mem_keys_del : k ∉ keys (del m k) := by
  intro h
  obtain ⟨v, hv⟩ := mem_keys.1 h
  exact (mem_del hv).2 rfl

theorem keys_del_sublist (m : List (K × V)) (k : K) : (keys (del m k)).Sublist (keys m) :=
  (List.filter_sublist).map _

theorem keys_put (m : List (K × V)) (k : K) (v : V) : keys (put m k v) = k :: keys (del m k) := rfl

theorem nodup_keys_put (h : (keys m).Nodup) :
    (keys (put m k v)).Nodup := by
  rw [keys_put]
  exact List.nodup_cons.2 ⟨not_mem_keys_del, h.sublist (keys_del_sublist m k)⟩

omit [DecidableEq K] in
theorem not_mem_keys_of_lookup [BEq K] [LawfulBEq K] (h : m.lookup k = none) : k ∉ keys m := by
  intro hk
  obtain ⟨v, hv⟩ := mem_keys.1 hk
  rw [List.lookup_eq_none_iff] at h
  simpa using h _ hv

omit [DecidableEq K] in
theorem lookup_of_mem_keys [BEq K] [LawfulBEq K] (h : k ∈ keys m) :
    ∃ v, m.lookup k = some v := by
  by_contra hnone
  exact not_mem_keys_of_lookup (Option.eq_none_iff_forall_ne_some.2 fun v hv => hnone ⟨v, hv⟩) h

section

variable [BEq K] [LawfulBEq K] {m : List (K × V)} {k k' : K}

omit [DecidableEq K] in
theorem lookup_filter_keys {p : K → Bool} (hk : p k = true) : (m.filter fun x => p x.1).lookup k = m.lookup k := by
  induction m with
  | nil => rfl
  | cons a m ih =>
    by_cases ha : k = a.1
    · rw [List.filter_cons_of_pos (by rw [← ha, hk]), List.lookup_cons, List.lookup_cons, beq_iff_eq.2 ha]
    · rw [List.lookup_cons, beq_eq_false_iff_ne.2 ha, ← ih, List.filter_cons]
      split
      · rw [List.lookup_cons, beq_eq_false_iff_ne.2 ha]
      · rfl

theorem lookup_put_self (v : V) : (put m k v).lookup k = some v := List.lookup_cons_self

theorem lookup_put_of_ne (h : k' ≠ k) (v : V) : (put m k v).lookup k' = m.lookup k' := by
  rw [put, List.lookup_cons, beq_eq_false_iff_ne.2 h]
  exact lookup_filter_keys (p := fun x => decide (x ≠ k)) (decide_eq_true h)

end

end Boltchain.Lib.Assoc
