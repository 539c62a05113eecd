import Boltchain.Txpool.Best

namespace Boltchain.Txpool

open Lib

variable {c : PoolConfig} {st : AccountState} {pool pool' : Inner} {tx : Tx} {a : Address} {h : Hash} {p : PooledTx}

namespace Inner

def NoEmpty (pool : Inner) : Prop := ∀ a m, pool.bySender.get a = some m → m.entries ≠ []

theorem NoEmpty.remove (hne : pool.NoEmpty) (h : Hash) : (pool.remove h).NoEmpty := by
  cases hp : pool.byHash.get h with
  | none => rwa [remove_of_none hp]
  | some p =>
    intro b m hm
    by_cases hb : b = p.sender
    · subst hb
      simp only [Inner.remove, hp] at hm
      cases hs : pool.bySender.get p.sender with
      | none => simp [hs] at hm
      | some nonces =>
        simp only [hs] at hm
        split at hm
        · simp [Table.get_del] at hm
        · rename_i hempty
          rw [Table.get_put, if_pos rfl, Option.some_inj] at hm
          rwa [← hm, ne_eq, ← List.isEmpty_iff]
    · rw [bySender_remove hp hb] at hm
      exact hne b m hm

theorem NoEmpty.insert (hne : pool.NoEmpty) (a : Address) (tx : Tx) : (pool.insert a tx).NoEmpty := by
  intro b m hm
  rw [Inner.insert, Table.get_put] at hm
  split at hm
  · rw [Option.some_inj] at hm
    have hget : m.get tx.nonce = some tx.hash := by rw [← hm, Table.get_put, if_pos rfl]
    exact List.ne_nil_of_mem (Table.get_eq_some.1 hget)
  · exact hne b m hm

theorem NoEmpty.removeAll (hne : pool.NoEmpty) (hashes : List Hash) : (pool.removeAll hashes).NoEmpty := by
  induction hashes generalizing pool with
  | nil => exact hne
  | cons h hashes ih => exact ih (hne.remove h)

theorem onNewBlock_eq (h : pool.onNewBlock st = some pool') : ∃ hashes, pool' = pool.removeAll hashes := by
  rw [Inner.onNewBlock] at h
  generalize pool.bySender.entries.map Prod.fst = senders at h
  induction senders generalizing pool with
  | nil =>
    cases h
    exact ⟨[], rfl⟩
  | cons a senders ih =>
    rw [List.foldlM_cons, Option.bind_eq_bind, Option.bind_eq_some_iff] at h
    obtain ⟨pool₁, h₁, hrest⟩ := h
    obtain ⟨nonces, -, hstale⟩ := Option.bind_eq_some_iff.1 h₁
    obtain ⟨hashes, rfl⟩ := ih hrest
    cases hstale
    exact ⟨_, (List.foldl_append).symm⟩

theorem NoEmpty.step (hne : pool.NoEmpty) {call : Call} (h : pool.step c call = some pool') : pool'.NoEmpty := by
  cases call with
  | add st tx =>
    unfold Inner.step at h
    simp only at h
    split at h
    · rename_i hadd
      cases h
      obtain ⟨a, -, -, -, ⟨oldHash, old, -, -, -, -, rfl⟩ | ⟨-, -, -, rfl⟩⟩ := add_eq_ok.1 hadd
      · exact (hne.remove oldHash).insert a tx
      · exact hne.insert a tx
    · cases h
      exact hne
    · cases h
  | onNewBlock st =>
    obtain ⟨hashes, rfl⟩ := onNewBlock_eq h
    exact hne.removeAll hashes
  | remove hashes =>
    cases h
    exact hne.removeAll hashes

theorem Sound.size_le (hs : pool.Sound c) (hp : pool.byHash.get h = some p) : p.size ≤ pool.bytes := by
  rw [hs.counted]
  exact List.single_le_sum (by simp) _ (List.mem_map_of_mem (Table.get_eq_some.1 hp))

theorem Sound.best_isSome (hs : pool.Sound c) (st : AccountState) {order : List Address}
    (horder : ∀ a ∈ order, a ∈ pool.bySender.entries.map Prod.fst) (baseFee : Nat) :
    (pool.best st order baseFee).isSome := by
  have hruns : order.mapM (pool.runOf st baseFee) = some (order.map fun a => (pool.runOf st baseFee a).getD []) := by
    apply mapM_eq_map
    intro a ha
    obtain ⟨⟨b, m⟩, hmem, rfl⟩ := List.mem_map.1 (horder a ha)
    obtain ⟨ps, hps, -⟩ := hs.runOf_spec st baseFee (Table.get_eq_some.2 hmem)
    rw [hps, Option.getD_some]
  obtain ⟨merged, hmerge, -⟩ := Merge.merge_merges (fun p : PooledTx => (p.tx.effectiveTip baseFee).getD 0)
    ((order.map fun a => (pool.runOf st baseFee a).getD []).filter fun run => !run.isEmpty)
  rw [Inner.best, hruns, Option.bind_eq_bind, Option.bind_some, hmerge]
  rfl

end Inner

theorem Reached.noEmpty {meets : Call → Inner → Prop} (h : Reached c meets pool) : pool.NoEmpty := by
  induction h with
  | empty =>
    intro a m hm
    simp [Inner.empty] at hm
  | step call _ _ hstep ih => exact ih.step hstep

/-- The indexes of every pool agree with each other and with its size, so that no lookup or subtraction fails. -/
theorem indexes_consistent (c : PoolConfig) (pool : Inner) (h : Reached c (fun _ _ => True) pool) :
    (∀ a n h, pool.hashAt a n = some h ↔ ∃ p, pool.byHash.get h = some p ∧ p.sender = a ∧ p.tx.nonce = n) ∧
    (∀ a nonces, pool.bySender.get a = some nonces → nonces.entries ≠ []) ∧
    pool.bytes = (pool.byHash.entries.map (·.2.size)).sum ∧
    (∀ call, (pool.step c call).isSome) ∧
    (∀ st order baseFee, order.Perm (pool.bySender.entries.map Prod.fst) → (pool.best st order baseFee).isSome) ∧
    -- Whatever was removed before in the same call.
    ∀ hashes h p, (pool.removeAll hashes).byHash.get h = some p → p.size ≤ (pool.removeAll hashes).bytes := by
  have hs := h.sound
  refine ⟨hs.indexed, h.noEmpty, hs.counted, fun call => ?_, fun st order baseFee horder => ?_, fun hashes h p hp => ?_⟩
  · obtain ⟨pool', hpool', -⟩ := hs.step call
    rw [hpool']
    rfl
  · exact hs.best_isSome st (fun a ha => horder.mem_iff.1 ha) baseFee
  · exact (hs.removeAll hashes).size_le hp

theorem indexes_consistent_pair : ∃ pool : Inner, pool.byHash.entries.length = 2 ∧
    pool.bytes = (pool.byHash.entries.map (·.2.size)).sum := by
  have hpair : (mockPair.foldlM (Inner.step mockConfig) .empty).map (·.byHash.entries.length) = some 2 := by
    decide +kernel
  obtain ⟨pool, hpool, hlen⟩ := Option.map_eq_some_iff.1 hpair
  exact ⟨pool, hlen, (indexes_consistent mockConfig pool (reached_of_foldlM .empty hpool)).2.2.1⟩

end Boltchain.Txpool
