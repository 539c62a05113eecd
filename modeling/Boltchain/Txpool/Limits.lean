import Boltchain.Txpool.Admission

namespace Boltchain.Txpool

open Lib

namespace Inner

def countOf (pool : Inner) (a : Address) : Nat := pool.byHash.entries.countP fun e => e.2.sender = a

def totalSize (pool : Inner) : Nat := (pool.byHash.entries.map (·.2.size)).sum

structure Within (c : PoolConfig) (pool : Inner) : Prop where
  count : pool.len ≤ c.maxTxs
  size : pool.totalSize ≤ c.maxBytes
  perSender : ∀ a, pool.countOf a ≤ c.maxPerSender

/-- A replacement leaves the total size in its limit, and a transaction that replaces none finds its
sender below the limit. -/
def Fits (c : PoolConfig) (pool : Inner) (tx : Tx) : Prop :=
  ∀ a, tx.signer = some a → match (pool.hashAt a tx.nonce).bind pool.byHash.get with
    | some old => pool.bytes - old.size + tx.size ≤ c.maxBytes
    | none => pool.countOf a < c.maxPerSender

variable {c : PoolConfig} {st : AccountState} {pool pool' : Inner} {tx : Tx} {a b : Address} {n : Nat} {h : Hash}
  {p : PooledTx}

section Counts

theorem counts_remove (hp : pool.byHash.get h = some p) : (pool.remove h).len + 1 = pool.len ∧
    (pool.remove h).totalSize + p.size = pool.totalSize ∧
    ∀ b, (pool.remove h).countOf b + (if p.sender = b then 1 else 0) = pool.countOf b := by
  have hperm := Table.entries_perm_of_get hp
  rw [← (remove_of_get hp).1] at hperm
  refine ⟨?_, ?_, fun b => ?_⟩
  · rw [len, len, hperm.length_eq, List.length_cons]
  · rw [totalSize, totalSize, (hperm.map _).sum_eq, List.map_cons, List.sum_cons, Nat.add_comm]
  · rw [countOf, countOf, hperm.countP_eq, List.countP_cons]
    simp

theorem counts_insert (hfresh : pool.byHash.get tx.hash = none) : (pool.insert a tx).len = pool.len + 1 ∧
    (pool.insert a tx).totalSize = pool.totalSize + tx.size ∧
    ∀ b, (pool.insert a tx).countOf b = pool.countOf b + (if a = b then 1 else 0) := by
  have hperm : (pool.insert a tx).byHash.entries.Perm ((tx.hash, ⟨tx, a, tx.hash, tx.size⟩) :: pool.byHash.entries) :=
    Table.entries_put_perm hfresh
  refine ⟨?_, ?_, fun b => ?_⟩
  · rw [len, len, hperm.length_eq, List.length_cons]
  · rw [totalSize, totalSize, (hperm.map _).sum_eq, List.map_cons, List.sum_cons, Nat.add_comm]
  · rw [countOf, countOf, hperm.countP_eq, List.countP_cons]
    simp

end Counts

section Steps

theorem Within.remove (hw : pool.Within c) (h : Hash) : (pool.remove h).Within c := by
  cases hp : pool.byHash.get h with
  | none => rwa [remove_of_none hp]
  | some p =>
    obtain ⟨hlen, hsize, hcount⟩ := counts_remove hp
    have := hw.count
    have := hw.size
    refine ⟨by omega, by omega, fun b => ?_⟩
    have := hcount b
    have := hw.perSender b
    omega

theorem Within.removeAll (hw : pool.Within c) (hashes : List Hash) : (pool.removeAll hashes).Within c := by
  induction hashes generalizing pool with
  | nil => exact hw
  | cons h hashes ih => exact ih (hw.remove h)

theorem Within.foldlM_dropStale {senders : List Address} (hw : pool.Within c)
    (h : senders.foldlM (fun pool a => pool.dropStale st a) pool = some pool') : pool'.Within c := by
  induction senders generalizing pool with
  | nil =>
    cases h
    exact hw
  | cons a senders ih =>
    rw [List.foldlM_cons] at h
    obtain ⟨pool₁, h₁, h⟩ := Option.bind_eq_some_iff.1 h
    obtain ⟨nonces, -, h₁⟩ := Option.bind_eq_some_iff.1 h₁
    cases h₁
    exact ih (hw.removeAll _) h

/-- An admitted transaction leaves the pool within its limits if and only if it fits. -/
theorem Within.add_iff (hw : pool.Within c) (hs : pool.Sound c) (hadd : pool.add c st tx = .ok (h, pool')) :
    pool'.Within c ↔ pool.Fits c tx := by
  obtain ⟨a, hadm, hfresh, -, hcases⟩ := add_eq_ok.1 hadd
  have hcount := hw.count
  have hsize := hw.size
  have hcounted : pool.bytes = pool.totalSize := hs.counted
  have hfits : pool.Fits c tx ↔ match (pool.hashAt a tx.nonce).bind pool.byHash.get with
      | some old => pool.bytes - old.size + tx.size ≤ c.maxBytes
      | none => pool.countOf a < c.maxPerSender := by
    simp only [Fits, hadm.signer, Option.some.injEq, forall_eq']
  rw [hfits]
  obtain ⟨oldHash, old, hat, hold, -, -, rfl⟩ | ⟨hat, hlen, hbytes, rfl⟩ := hcases
  · obtain ⟨q, hq, hsender, -⟩ := (hs.indexed _ _ _).1 hat
    rw [hold] at hq
    cases hq
    obtain ⟨hlen₁, hsize₁, hcount₁⟩ := counts_remove hold
    obtain ⟨hlen₂, hsize₂, hcount₂⟩ := counts_insert (a := a) (Sound.byHash_remove_none (h := oldHash) hfresh)
    simp only [hat, Option.bind_some, hold]
    constructor
    · intro hw'
      have := hw'.size
      omega
    · intro hfit
      refine ⟨by omega, by omega, fun b => ?_⟩
      have := hw.perSender b
      have := hcount₁ b
      have := hcount₂ b
      rw [hsender] at *
      omega
  · obtain ⟨hlen₂, hsize₂, hcount₂⟩ := counts_insert (a := a) hfresh
    simp only [hat, Option.bind_none]
    constructor
    · intro hw'
      have := hw'.perSender a
      have := hcount₂ a
      rw [if_pos rfl] at this
      omega
    · intro hroom
      refine ⟨by omega, by omega, fun b => ?_⟩
      have := hw.perSender b
      have := hcount₂ b
      split at this
      · rename_i hab
        subst hab
        omega
      · omega

end Steps

theorem Sound.nodup_nonces (hs : pool.Sound c) (a : Address) :
    ((pool.byHash.entries.filter fun e => e.2.sender = a).map fun e => e.2.tx.nonce).Nodup := by
  rw [List.Nodup, List.pairwise_map]
  refine (pool.byHash.nodup_entries.filter _).imp_of_mem ?_
  rintro ⟨h, p⟩ ⟨h', p'⟩ hp hp' hne heq
  obtain ⟨hmem, hsender⟩ := List.mem_filter.1 hp
  obtain ⟨hmem', hsender'⟩ := List.mem_filter.1 hp'
  have hget := Table.get_eq_some.2 hmem
  have hget' := Table.get_eq_some.2 hmem'
  have hat := (hs.indexed a p.tx.nonce h).2 ⟨p, hget, of_decide_eq_true hsender, rfl⟩
  have hat' := (hs.indexed a p.tx.nonce h').2 ⟨p', hget', of_decide_eq_true hsender', heq.symm⟩
  rw [hat] at hat'
  cases hat'
  rw [hget] at hget'
  cases hget'
  exact hne rfl

theorem Sound.countOf_lt (hs : pool.Sound c) {start : Nat} (hn : start ≤ n ∧ n < start + c.maxPerSender)
    (hnew : pool.pooled a n = none)
    (hwindow : ∀ k old, pool.pooled a k = some old → start ≤ k ∧ k < start + c.maxPerSender) :
    pool.countOf a < c.maxPerSender := by
  let nonces := (pool.byHash.entries.filter fun e => e.2.sender = a).map fun e => e.2.tx.nonce
  have hpooled : ∀ k ∈ nonces, ∃ old, pool.pooled a k = some old := by
    intro k hk
    obtain ⟨⟨h, p⟩, hp, rfl⟩ := List.mem_map.1 hk
    obtain ⟨hmem, hsender⟩ := List.mem_filter.1 hp
    have hget := Table.get_eq_some.2 hmem
    exact ⟨p.tx, pooled_eq_some.2 ⟨h, p, (hs.indexed _ _ _).2 ⟨p, hget, of_decide_eq_true hsender, rfl⟩, hget, rfl⟩⟩
  have hsub : nonces.toFinset ⊆ (Finset.Ico start (start + c.maxPerSender)).erase n := by
    intro k hk
    obtain ⟨old, hold⟩ := hpooled k (List.mem_toFinset.1 hk)
    rw [Finset.mem_erase, Finset.mem_Ico]
    refine ⟨?_, hwindow k old hold⟩
    rintro rfl
    rw [hnew] at hold
    cases hold
  have hcard := Finset.card_le_card hsub
  have hlen : nonces.toFinset.card = nonces.length := List.toFinset_card_of_nodup (hs.nodup_nonces a)
  rw [hlen, Finset.card_erase_of_mem (Finset.mem_Ico.2 hn), Nat.card_Ico] at hcard
  have hcount : pool.countOf a = nonces.length := by
    simp only [nonces, countOf, List.countP_eq_length_filter, List.length_map]
  omega

end Inner

def Call.Fits (c : PoolConfig) : Call → Inner → Prop
  | .add st tx, pool => ∀ h pool', pool.add c st tx = .ok (h, pool') → pool.Fits c tx
  | _, _ => True

theorem Reached.within {c : PoolConfig} {pool : Inner} (h : Reached c (Call.Fits c) pool) : pool.Within c := by
  induction h with
  | empty => exact ⟨Nat.zero_le _, Nat.zero_le _, fun _ => Nat.zero_le _⟩
  | @step pool pool' call hreached hfits hstep ih =>
    cases call with
    | add st tx =>
      unfold Inner.step at hstep
      simp only at hstep
      split at hstep
      · rename_i h' pool₁ hadd
        cases hstep
        exact (ih.add_iff hreached.sound hadd).2 (hfits h' _ hadd)
      · cases hstep
        exact ih
      · cases hstep
    | onNewBlock st => exact ih.foldlM_dropStale hstep
    | remove hashes =>
      cases hstep
      exact ih.removeAll hashes

theorem pool_limits_hold (c : PoolConfig) (pool : Inner) (h : Reached c (Call.Fits c) pool) :
    pool.Within c ∧
      (∀ st tx hash pool', pool.add c st tx = .ok (hash, pool') → (pool'.Within c ↔ pool.Fits c tx)) ∧
      ∀ st tx hash pool' a, pool.add c st tx = .ok (hash, pool') → tx.signer = some a →
        pool.pooled a tx.nonce = none →
        (∀ n old, pool.pooled a n = some old → (st a).nonce ≤ n ∧ n < (st a).nonce + c.maxPerSender) →
        pool.Fits c tx := by
  refine ⟨h.within, fun st tx hash pool' hadd => h.within.add_iff h.sound hadd, ?_⟩
  intro st tx hash pool' a hadd ha hnew hwindow b hb
  have hadm := Inner.add_signer hadd ha
  rw [ha] at hb
  cases hb
  have hnone : (pool.hashAt a tx.nonce).bind pool.byHash.get = none := Option.map_eq_none_iff.1 hnew
  rw [hnone]
  exact h.sound.countOf_lt ⟨hadm.nonce_ge, hadm.nonce_lt_add⟩ hnew hwindow

section Mock

def mockSend (nonce fee size : Nat) (hash : Hash) (hfee : fee < 2 ^ 128) (hnonce : nonce < 2 ^ 64) : Tx :=
  { mockTx fee 0 hash hfee with nonce, size, nonce_lt := hnonce }

def mockRich (nonce : Nat) : AccountState := fun _ => ⟨nonce, 2 ^ 255, half_lt_word⟩

/-- Sixteen transactions of account 7, and a seventeenth after the account has used its first nonce and
before the pool hears of the block. -/
def mockCalls : List Call :=
  (List.range 16).map (fun i => Call.add (mockRich 0) (mockSend (i % 16) 1000 110 i (by decide)
    ((Nat.mod_lt i (by decide)).trans sixteen_lt_word))) ++
    [.add (mockRich 1) (mockSend 16 1000 110 16 (by decide) sixteen_lt_word)]

/-- A transaction of 110 bytes, and one of 300 bytes that replaces it. -/
def mockGrowing : List Call :=
  [.add (mockRich 0) (mockSend 0 1000 110 0 (by decide) zero_lt_word),
    .add (mockRich 0) (mockSend 0 1100 300 1 (by decide) zero_lt_word)]

/-- Seventeen transactions of one sender are pooled with a limit of sixteen, and 300 bytes with a limit
of 200. -/
theorem limits_are_exceeded :
    (∃ pool, Reached mockConfig (fun _ _ => True) pool ∧ mockConfig.maxPerSender < pool.countOf 7) ∧
      ∃ pool, Reached { mockConfig with maxBytes := 200 } (fun _ _ => True) pool ∧ 200 < pool.totalSize := by
  constructor
  · have hcount : (mockCalls.foldlM (Inner.step mockConfig) .empty).map (fun pool => pool.countOf 7) = some 17 := by
      decide +kernel
    obtain ⟨pool, hpool, hcount⟩ := Option.map_eq_some_iff.1 hcount
    refine ⟨pool, reached_of_foldlM .empty hpool, ?_⟩
    rw [hcount]
    decide
  · have hsize : (mockGrowing.foldlM (Inner.step { mockConfig with maxBytes := 200 }) .empty).map Inner.totalSize =
        some 300 := by decide +kernel
    obtain ⟨pool, hpool, hsize⟩ := Option.map_eq_some_iff.1 hsize
    refine ⟨pool, reached_of_foldlM .empty hpool, ?_⟩
    rw [hsize]
    decide

theorem pool_limits_hold_one : ∃ pool : Inner, pool.countOf 7 = 1 ∧ pool.Within mockConfig ∧
    ∀ st tx hash pool', pool.add mockConfig st tx = .ok (hash, pool') →
      (pool'.Within mockConfig ↔ pool.Fits mockConfig tx) := by
  let tx := mockSend 0 1000 110 0 (by decide) (by decide)
  have hcount : (Inner.empty.step mockConfig (.add (mockRich 0) tx)).map (fun pool => pool.countOf 7) = some 1 := by
    decide +kernel
  obtain ⟨pool, hpool, hcount⟩ := Option.map_eq_some_iff.1 hcount
  have hfits : Inner.empty.Fits mockConfig tx := by
    intro a ha
    cases ha
    exact show 0 < 16 by decide
  have hreached : Reached mockConfig (Call.Fits mockConfig) pool :=
    .step (.add (mockRich 0) tx) .empty (fun _ _ _ => hfits) hpool
  obtain ⟨hwithin, hnext, -⟩ := pool_limits_hold mockConfig pool hreached
  exact ⟨pool, hcount, hwithin, hnext⟩

end Mock

end Boltchain.Txpool
