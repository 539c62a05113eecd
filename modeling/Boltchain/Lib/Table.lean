import Mathlib

namespace Boltchain.Lib

/-- A table of a key-value database: entries in the order of their keys, each key once. -/
structure Table (K V : Type) [LinearOrder K] where
  entries : List (K × V)
  sorted : entries.Pairwise fun a b => a.1 < b.1

namespace Table

variable {K V : Type} [LinearOrder K] {t t' : Table K V} {j k : K} {v w : V}

def empty : Table K V := ⟨[], .nil⟩

def get (t : Table K V) (k : K) : Option V := (t.entries.find? fun e => e.1 = k).map Prod.snd

def keep (t : Table K V) (p : K → Bool) : Table K V := ⟨t.entries.filter fun e => p e.1, t.sorted.filter _⟩

def del (t : Table K V) (k : K) : Table K V := t.keep fun j => j ≠ k

def put (t : Table K V) (k : K) (v : V) : Table K V where
  entries := t.entries.filter (fun e => e.1 < k) ++ (k, v) :: t.entries.filter fun e => k < e.1
  sorted := by
    rw [List.pairwise_append, List.pairwise_cons]
    refine ⟨t.sorted.filter _, ⟨fun e he => ?_, t.sorted.filter _⟩, fun a ha b hb => ?_⟩
    · exact of_decide_eq_true (List.mem_filter.1 he).2
    · have hak : a.1 < k := of_decide_eq_true (List.mem_filter.1 ha).2
      rcases List.mem_cons.1 hb with rfl | hb
      · exact hak
      · exact hak.trans (of_decide_eq_true (List.mem_filter.1 hb).2)

def seek (t : Table K V) (k : K) : Option (K × V) := t.entries.find? fun e => k ≤ e.1

theorem nodup_keys (t : Table K V) : (t.entries.map Prod.fst).Nodup :=
  List.pairwise_map.2 (t.sorted.imp fun hlt => hlt.ne)

theorem get_eq_some : t.get k = some v ↔ (k, v) ∈ t.entries := by
  rw [get, Option.map_eq_some_iff]
  constructor
  · rintro ⟨⟨j, w⟩, hfind, rfl⟩
    obtain rfl : j = k := by simpa using List.find?_some hfind
    exact List.mem_of_find?_eq_some hfind
  · intro hmem
    obtain ⟨e, he⟩ : ∃ e, t.entries.find? (fun e => e.1 = k) = some e := by
      rw [← Option.isSome_iff_exists, List.find?_isSome]
      exact ⟨_, hmem, by simp⟩
    refine ⟨e, he, ?_⟩
    have hek : e.1 = k := by simpa using List.find?_some he
    rw [List.inj_on_of_nodup_map t.nodup_keys (List.mem_of_find?_eq_some he) hmem hek]

@[ext] theorem ext (h : ∀ k, t.get k = t'.get k) : t = t' := by
  have hmem : ∀ e, e ∈ t.entries ↔ e ∈ t'.entries := by
    rintro ⟨k, v⟩
    rw [← get_eq_some, h, get_eq_some]
  have hnodup : ∀ u : Table K V, u.entries.Nodup := fun u => u.sorted.imp fun hlt heq => absurd (heq ▸ hlt) (lt_irrefl _)
  have hperm := (List.perm_ext_iff_of_nodup (hnodup t) (hnodup t')).2 hmem
  have heq : t.entries = t'.entries := hperm.eq_of_pairwise
    (fun a b _ _ hab hba => absurd (hab.trans hba) (lt_irrefl _)) t.sorted t'.sorted
  cases t
  cases t'
  cases heq
  rfl

@[simp] theorem get_empty (k : K) : (empty : Table K V).get k = none := rfl

theorem get_keep (p : K → Bool) : (t.keep p).get k = if p k then t.get k else none := by
  refine Option.ext fun v => ?_
  rw [get_eq_some, keep, List.mem_filter, ← get_eq_some]
  by_cases h : p k = true
  · simp [h]
  · simp [h]

theorem get_del : (t.del k).get j = if j = k then none else t.get j := by
  rw [del, get_keep]
  by_cases h : j = k
  · simp [h]
  · simp [h]

theorem get_put : (t.put k v).get j = if j = k then some v else t.get j := by
  refine Option.ext fun w => ?_
  rw [get_eq_some]
  simp only [put, List.mem_append, List.mem_cons, List.mem_filter, Prod.mk.injEq, decide_eq_true_eq, ← get_eq_some]
  rcases lt_trichotomy j k with h | h | h
  · simp [h, h.ne, h.not_gt]
  · simp [h, eq_comm]
  · simp [h, h.ne', h.not_gt]

theorem mem_entries_iff {e : K × V} : e ∈ t.entries ↔ t.get e.1 = some e.2 := get_eq_some.symm

theorem seek_eq_none : t.seek k = none ↔ ∀ j, k ≤ j → t.get j = none := by
  rw [seek, List.find?_eq_none]
  constructor
  · intro h j hj
    refine Option.eq_none_iff_forall_ne_some.2 fun v hv => ?_
    exact h _ (get_eq_some.1 hv) (by simpa using hj)
  · rintro h ⟨j, v⟩ hmem hj
    have hnone := h j (by simpa using hj)
    rw [get_eq_some.2 hmem] at hnone
    cases hnone

theorem seek_eq_some (h : t.seek k = some (j, v)) :
    t.get j = some v ∧ k ≤ j ∧ ∀ i, k ≤ i → i < j → t.get i = none := by
  obtain ⟨hkj, before, after, hsplit, hbefore⟩ := List.find?_eq_some_iff_append.1 h
  have hmem : (j, v) ∈ t.entries := List.mem_of_find?_eq_some h
  refine ⟨get_eq_some.2 hmem, by simpa using hkj, fun i hki hij => ?_⟩
  refine Option.eq_none_iff_forall_ne_some.2 fun w hw => ?_
  have hi := get_eq_some.1 hw
  rw [hsplit, List.mem_append, List.mem_cons] at hi
  have hsorted := t.sorted
  rw [hsplit, List.pairwise_append, List.pairwise_cons] at hsorted
  rcases hi with hi | hi | hi
  · have := hbefore _ hi
    simp [hki] at this
  · cases hi
    exact lt_irrefl _ hij
  · exact lt_asymm hij (hsorted.2.1.1 _ hi)

section Entries

theorem del_of_get_eq_none (h : t.get k = none) : t.del k = t := by
  apply ext
  intro j
  rw [get_del]
  split
  · rename_i hj
    rw [hj, h]
  · rfl

theorem del_put : (t.put k v).del k = t.del k := by
  apply ext
  intro j
  rw [get_del, get_del, get_put]
  split <;> rfl

theorem nodup_entries (t : Table K V) : t.entries.Nodup := t.nodup_keys.of_map

theorem entries_perm_of_get (h : t.get k = some v) : t.entries.Perm ((k, v) :: (t.del k).entries) := by
  have hleft : (k, v) ∉ (t.del k).entries := by
    rw [mem_entries_iff, get_del, if_pos rfl]
    nofun
  rw [List.perm_ext_iff_of_nodup t.nodup_entries (List.nodup_cons.2 ⟨hleft, (t.del k).nodup_entries⟩)]
  rintro ⟨j, w⟩
  rw [List.mem_cons, mem_entries_iff, mem_entries_iff, get_del, Prod.mk.injEq]
  by_cases hj : j = k
  · subst hj
    simp [h, eq_comm]
  · simp [hj]

theorem entries_put_perm (h : t.get k = none) : (t.put k v).entries.Perm ((k, v) :: t.entries) := by
  have hget : (t.put k v).get k = some v := by rw [get_put, if_pos rfl]
  have hperm := entries_perm_of_get hget
  rwa [del_put, del_of_get_eq_none h] at hperm

end Entries

section Versions

variable {t : Table (K ×ₗ Nat) V} {n head : Nat} {val : Nat → V}

/-- The value of a key at a time, from a table of the values that were replaced later on and the value now. -/
def asOf (t : Table (K ×ₗ Nat) V) (k : K) (n : Nat) (now : V) : V :=
  match t.seek (toLex (k, n + 1)) with
  | some (j, prior) => if (ofLex j).1 = k then prior else now
  | none => now

theorem val_of_no_version (hsame : ∀ m, n < m → m ≤ head → t.get (toLex (k, m)) = none → val m = val (m - 1))
    {m : Nat} (hn : n ≤ m) (hm : m ≤ head) (hnone : ∀ i, n < i → i ≤ m → t.get (toLex (k, i)) = none) :
    val m = val n := by
  induction m, hn using Nat.le_induction with
  | base => rfl
  | succ m hn ih =>
    rw [hsame (m + 1) (by omega) hm (hnone (m + 1) (by omega) le_rfl), Nat.add_sub_cancel]
    exact ih (by omega) fun i hi him => hnone i hi (by omega)

/-- If every version up to `head` is the value before it, and a value changes with a version only, reads at a time
are exact. -/
theorem asOf_eq (val : Nat → V) (hle : n ≤ head)
    (hprior : ∀ m v, n < m → m ≤ head → t.get (toLex (k, m)) = some v → v = val (m - 1))
    (hsame : ∀ m, n < m → m ≤ head → t.get (toLex (k, m)) = none → val m = val (m - 1))
    (habove : ∀ m, head < m → t.get (toLex (k, m)) = none) : t.asOf k n (val head) = val n := by
  have hnow : (∀ i, n < i → t.get (toLex (k, i)) = none) → val head = val n := fun hnone =>
    val_of_no_version hsame hle le_rfl fun i hi _ => hnone i hi
  unfold asOf
  cases hseek : t.seek (toLex (k, n + 1)) with
  | none =>
    refine hnow fun i hi => seek_eq_none.1 hseek _ ?_
    exact Prod.Lex.toLex_le_toLex.2 (.inr ⟨rfl, hi⟩)
  | some e =>
    obtain ⟨x, v⟩ := e
    obtain ⟨⟨j, m⟩, rfl⟩ := toLex.surjective x
    obtain ⟨hget, hjm, hbetween⟩ := seek_eq_some hseek
    rw [Prod.Lex.toLex_le_toLex] at hjm
    show (if j = k then v else val head) = val n
    by_cases hj : j = k
    · subst hj
      have hm : n < m := by
        rcases hjm with h | ⟨-, h⟩
        · exact absurd h (lt_irrefl _)
        · exact h
      have hmh : m ≤ head := by
        by_contra hlt
        rw [habove m (by omega)] at hget
        cases hget
      rw [if_pos rfl, hprior m v hm hmh hget]
      refine val_of_no_version hsame (by omega) (by omega) fun i hi him => hbetween _ ?_ ?_
      · exact Prod.Lex.toLex_le_toLex.2 (.inr ⟨rfl, hi⟩)
      · exact Prod.Lex.toLex_lt_toLex.2 (.inr ⟨rfl, by omega⟩)
    · rw [if_neg hj]
      have hlt : k < j := hjm.resolve_right fun h => hj h.1.symm
      refine hnow fun i hi => hbetween _ ?_ ?_
      · exact Prod.Lex.toLex_le_toLex.2 (.inr ⟨rfl, hi⟩)
      · exact Prod.Lex.toLex_lt_toLex.2 (.inl hlt)

end Versions

end Table

end Boltchain.Lib
