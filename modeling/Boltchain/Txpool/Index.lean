import Boltchain.Txpool.Pool

namespace Boltchain.Txpool

open Lib

/-- A transaction of sender `a` that passes the checks of `add` against an account state. -/
structure Admissible (c : PoolConfig) (st : AccountState) (tx : Tx) (a : Address) : Prop where
  noBlob : tx.isEip4844 = false
  chain : tx.chainId = some c.chainId
  gas_ge : 21000 ≤ tx.gasLimit
  gas_le : tx.gasLimit ≤ min TX_GAS_LIMIT_CAP c.blockGasLimit
  intrinsic : tx.intrinsicGas ≤ tx.gasLimit
  fee : c.minBaseFee ≤ tx.maxFeePerGas
  tip : ∀ p, tx.maxPriorityFeePerGas = some p → p ≤ tx.maxFeePerGas
  signer : tx.signer = some a
  nonce_ge : (st a).nonce ≤ tx.nonce
  nonce_lt : tx.nonce < ((st a).nonce + c.maxPerSender) % 2 ^ 64
  funds : tx.cost % 2 ^ 256 ≤ (st a).balance

section Checks

variable {c : PoolConfig} {st : AccountState} {tx : Tx} {a : Address}

theorem check_eq_ok : check c st tx = .ok a ↔ Admissible c st tx a := by
  constructor
  · intro h
    unfold check at h
    split at h
    · cases h
    rename_i hblob
    split at h
    · cases h
    rename_i id hid
    split_ifs at h with hchain hgas hintrinsic hfee
    split at h
    · cases h
    rename_i sender hsender
    split_ifs at h with hlow hhigh hfunds
    cases h
    push Not at hchain hfee
    refine ⟨by simpa using hblob, by rw [hid, hchain], hgas.1, hgas.2, by omega, hfee.1, fun p hp => ?_, hsender,
      by omega, by omega, by omega⟩
    have := hfee.2
    rw [hp] at this
    simpa using this
  · rintro ⟨hblob, hchain, hge, hle, hintrinsic, hfee, htip, hsigner, hlow, hhigh, hfunds⟩
    have hany : ¬ (tx.maxFeePerGas < c.minBaseFee ∨ tx.maxPriorityFeePerGas.any (tx.maxFeePerGas < ·) = true) := by
      rintro (h | h)
      · omega
      · obtain ⟨p, hp, hlt⟩ := (Option.any_eq_true _ _).1 h
        have := htip p hp
        have := of_decide_eq_true hlt
        omega
    unfold check
    rw [if_neg (by simp [hblob]), hchain]
    simp only
    rw [if_neg (not_not.2 rfl), if_neg (not_not.2 ⟨hge, hle⟩), if_neg (by omega), if_neg hany, hsigner]
    simp only
    rw [if_neg (by omega), if_neg (by omega), if_neg (by omega)]

theorem Admissible.nonce_lt_add (h : Admissible c st tx a) : tx.nonce < (st a).nonce + c.maxPerSender :=
  h.nonce_lt.trans_le (Nat.mod_le _ _)

theorem Admissible.tip_le (h : Admissible c st tx a) : tx.tip ≤ tx.maxFeePerGas := by
  unfold Tx.tip
  cases hp : tx.maxPriorityFeePerGas with
  | none => exact le_rfl
  | some p => exact h.tip p hp

end Checks

namespace Inner

variable {c : PoolConfig} {st : AccountState} {pool pool' : Inner} {tx : Tx} {a b : Address} {n : Nat} {h : Hash}
  {p : PooledTx}

section Changes

theorem hashAt_insert :
    (pool.insert a tx).hashAt b n = if b = a ∧ n = tx.nonce then some tx.hash else pool.hashAt b n := by
  rw [hashAt, insert, Table.get_put]
  by_cases hb : b = a
  · subst hb
    rw [if_pos rfl, Option.bind_some, Table.get_put]
    by_cases hn : n = tx.nonce
    · simp [hn]
    · rw [if_neg hn, if_neg (by simp [hn]), hashAt]
      cases pool.bySender.get b <;> simp
  · rw [if_neg hb, if_neg (by simp [hb])]
    rfl

theorem remove_of_get (hp : pool.byHash.get h = some p) : (pool.remove h).byHash = pool.byHash.del h ∧
    (pool.remove h).bytes = pool.bytes - p.size := by
  rw [remove, hp]
  exact ⟨rfl, rfl⟩

theorem remove_of_none (hp : pool.byHash.get h = none) : pool.remove h = pool := by
  rw [remove, hp]

theorem bySender_remove (hp : pool.byHash.get h = some p) (hb : b ≠ p.sender) :
    (pool.remove h).bySender.get b = pool.bySender.get b := by
  rw [remove, hp]
  simp only
  split
  · rfl
  · split
    · rw [Table.get_del, if_neg hb]
    · rw [Table.get_put, if_neg hb]

theorem hashAt_remove (hp : pool.byHash.get h = some p) :
    (pool.remove h).hashAt b n = if b = p.sender ∧ n = p.tx.nonce then none else pool.hashAt b n := by
  by_cases hb : b = p.sender
  · subst hb
    simp only [true_and, hashAt, remove, hp]
    cases hm : pool.bySender.get p.sender with
    | none => simp [hm]
    | some m =>
      have hdel : (m.del p.tx.nonce).get n = if n = p.tx.nonce then none else m.get n := Table.get_del
      simp only [Option.bind_some]
      split
      · rename_i hempty
        -- The table that becomes empty had no other nonce.
        have hnone : (m.del p.tx.nonce).get n = none := by
          rw [Option.eq_none_iff_forall_ne_some]
          intro h' hget
          rw [Table.get_eq_some, List.isEmpty_iff.1 hempty] at hget
          cases hget
        rw [Table.get_del, if_pos rfl, Option.bind_none, ← hdel, hnone]
      · rw [Table.get_put, if_pos rfl, Option.bind_some, hdel]
  · rw [hashAt, bySender_remove hp hb, if_neg (by simp [hb])]
    rfl

end Changes

/-- What a successful `add` has checked, and the pool it leaves. -/
theorem add_eq_ok : pool.add c st tx = .ok (h, pool') ↔
    ∃ a, Admissible c st tx a ∧ pool.byHash.get tx.hash = none ∧ h = tx.hash ∧
      ((∃ oldHash old, pool.hashAt a tx.nonce = some oldHash ∧ pool.byHash.get oldHash = some old ∧
          bump c.priceBumpPct old.tx.tip ≤ tx.tip ∧ bump c.priceBumpPct old.tx.maxFeePerGas ≤ tx.maxFeePerGas ∧
          pool' = (pool.remove oldHash).insert a tx) ∨
        (pool.hashAt a tx.nonce = none ∧ pool.len < c.maxTxs ∧ pool.bytes + tx.size ≤ c.maxBytes ∧
          pool' = pool.insert a tx)) := by
  constructor
  · intro hadd
    unfold add at hadd
    split at hadd
    · cases hadd
    rename_i a hcheck
    split at hadd
    · cases hadd
    rename_i hfresh
    refine ⟨a, check_eq_ok.1 hcheck, by simpa using hfresh, ?_⟩
    split at hadd
    · rename_i oldHash hat
      split at hadd
      · cases hadd
      rename_i old hold
      split at hadd
      · cases hadd
      rename_i hprice
      push Not at hprice
      cases hadd
      exact ⟨rfl, .inl ⟨oldHash, old, hat, hold, hprice.1, hprice.2, rfl⟩⟩
    · rename_i hat
      split at hadd
      · cases hadd
      rename_i hroom
      push Not at hroom
      cases hadd
      exact ⟨rfl, .inr ⟨hat, hroom.1, hroom.2, rfl⟩⟩
  · rintro ⟨a, hadm, hfresh, rfl, ⟨oldHash, old, hat, hold, htip, hfee, rfl⟩ | ⟨hat, hlen, hbytes, rfl⟩⟩
    · simp only [add, check_eq_ok.2 hadm, hfresh, hat, hold]
      rw [if_neg (by simp), if_neg (by omega)]
    · simp only [add, check_eq_ok.2 hadm, hfresh, hat]
      rw [if_neg (by simp), if_neg (by omega)]

/-- The two indices agree, the bytes are those of the pooled transactions, and every one of them was
admitted against some account state. -/
structure Sound (c : PoolConfig) (pool : Inner) : Prop where
  indexed : ∀ a n h, pool.hashAt a n = some h ↔ ∃ p, pool.byHash.get h = some p ∧ p.sender = a ∧ p.tx.nonce = n
  counted : pool.bytes = (pool.byHash.entries.map (·.2.size)).sum
  admitted : ∀ h p, pool.byHash.get h = some p → ∃ st, Admissible c st p.tx p.sender

namespace Sound

theorem empty (c : PoolConfig) : Sound c .empty := by
  refine ⟨fun a n h => ?_, rfl, fun h p hp => ?_⟩
  · simp [hashAt, Inner.empty]
  · simp [Inner.empty] at hp

theorem remove (hs : pool.Sound c) (h : Hash) : (pool.remove h).Sound c := by
  cases hp : pool.byHash.get h with
  | none => rwa [remove_of_none hp]
  | some p =>
    obtain ⟨hby, hbytes⟩ := remove_of_get hp
    refine ⟨fun a n k => ?_, ?_, fun k q hq => ?_⟩
    · rw [hashAt_remove hp, hby]
      simp only [Table.get_del]
      have hat : pool.hashAt p.sender p.tx.nonce = some h := (hs.indexed _ _ _).2 ⟨p, hp, rfl, rfl⟩
      split
      · rename_i heq
        obtain ⟨rfl, rfl⟩ := heq
        refine ⟨nofun, fun ⟨q, hq, hsender, hnonce⟩ => ?_⟩
        split at hq
        · cases hq
        · rename_i hk
          have hk' := (hs.indexed _ _ _).2 ⟨q, hq, hsender, hnonce⟩
          rw [hat] at hk'
          cases hk'
          exact absurd rfl hk
      · rename_i hne
        rw [hs.indexed]
        refine exists_congr fun q => and_congr_left fun hq => ?_
        by_cases hk : k = h
        · subst hk
          rw [if_pos rfl, hp]
          refine ⟨fun heq => ?_, nofun⟩
          cases heq
          exact absurd ⟨hq.1.symm, hq.2.symm⟩ hne
        · rw [if_neg hk]
    · have hperm : (pool.byHash.entries.map (·.2.size)).sum =
          p.size + ((pool.byHash.del h).entries.map (·.2.size)).sum :=
        ((Table.entries_perm_of_get hp).map (·.2.size)).sum_eq.trans List.sum_cons
      rw [hbytes, hby, hs.counted, hperm, Nat.add_sub_cancel_left]
    · rw [hby, Table.get_del] at hq
      split at hq
      · cases hq
      · exact hs.admitted k q hq

theorem removeAll (hs : pool.Sound c) (hashes : List Hash) : (pool.removeAll hashes).Sound c := by
  induction hashes generalizing pool with
  | nil => exact hs
  | cons h hashes ih => exact ih (hs.remove h)

theorem insert (hs : pool.Sound c) (hadm : Admissible c st tx a) (hfresh : pool.byHash.get tx.hash = none)
    (hat : pool.hashAt a tx.nonce = none) : (pool.insert a tx).Sound c := by
  have hget : ∀ k, (pool.insert a tx).byHash.get k =
      if k = tx.hash then some ⟨tx, a, tx.hash, tx.size⟩ else pool.byHash.get k := fun k => Table.get_put
  refine ⟨fun b n k => ?_, ?_, fun k q hq => ?_⟩
  · rw [hashAt_insert, hget]
    by_cases hk : k = tx.hash
    · subst hk
      rw [if_pos rfl]
      split
      · rename_i heq
        simp [heq.1, heq.2]
      · rename_i hne
        constructor
        · intro hb
          obtain ⟨q, hq, -⟩ := (hs.indexed _ _ _).1 hb
          rw [hfresh] at hq
          cases hq
        · rintro ⟨q, hq, rfl, rfl⟩
          cases hq
          exact absurd ⟨rfl, rfl⟩ hne
    · rw [if_neg hk]
      split
      · rename_i heq
        obtain ⟨rfl, rfl⟩ := heq
        refine ⟨fun heq => absurd (Option.some_inj.1 heq).symm hk, fun hq => ?_⟩
        rw [← hs.indexed, hat] at hq
        cases hq
      · exact hs.indexed b n k
  · have hperm := ((Table.entries_put_perm (v := (⟨tx, a, tx.hash, tx.size⟩ : PooledTx)) hfresh).map (·.2.size)).sum_eq
    rw [List.map_cons, List.sum_cons, ← hs.counted] at hperm
    rw [Inner.insert, hperm]
    exact Nat.add_comm _ _
  · rw [hget] at hq
    split at hq
    · cases hq
      exact ⟨st, hadm⟩
    · exact hs.admitted k q hq

theorem fresh_remove (hs : pool.Sound c) {oldHash : Hash} (hat : pool.hashAt a n = some oldHash) :
    (pool.remove oldHash).hashAt a n = none := by
  obtain ⟨old, hold, rfl, rfl⟩ := (hs.indexed _ _ _).1 hat
  rw [hashAt_remove hold, if_pos ⟨rfl, rfl⟩]

theorem byHash_remove_none (hfresh : pool.byHash.get n = none) : (pool.remove h).byHash.get n = none := by
  cases hp : pool.byHash.get h with
  | none => rwa [remove_of_none hp]
  | some p =>
    rw [(remove_of_get hp).1, Table.get_del, hfresh, ite_self]

theorem add (hs : pool.Sound c) (hadd : pool.add c st tx = .ok (h, pool')) : pool'.Sound c := by
  obtain ⟨a, hadm, hfresh, -, ⟨oldHash, old, hat, hold, -, -, rfl⟩ | ⟨hat, -, -, rfl⟩⟩ := add_eq_ok.1 hadd
  · exact (hs.remove oldHash).insert hadm (byHash_remove_none hfresh) (hs.fresh_remove hat)
  · exact hs.insert hadm hfresh hat

theorem add_ne_panicked (hs : pool.Sound c) : pool.add c st tx ≠ .error .panicked := by
  intro hadd
  unfold Inner.add at hadd
  split at hadd
  · cases hadd
  split at hadd
  · cases hadd
  split at hadd
  · rename_i a _ _ _ oldHash hat
    obtain ⟨old, hold, -⟩ := (hs.indexed _ _ _).1 hat
    rw [hold] at hadd
    simp only at hadd
    split at hadd <;> cases hadd
  · split at hadd <;> cases hadd

end Sound

section NewBlock

theorem bySender_removeAll {hashes : List Hash} (hb : b ≠ a)
    (hmine : ∀ h ∈ hashes, ∀ p, pool.byHash.get h = some p → p.sender = a) :
    (pool.removeAll hashes).bySender.get b = pool.bySender.get b := by
  induction hashes generalizing pool with
  | nil => rfl
  | cons h hashes ih =>
    obtain ⟨hh, hrest⟩ := List.forall_mem_cons.1 hmine
    cases hp : pool.byHash.get h with
    | none =>
      have hsame : pool.removeAll (h :: hashes) = pool.removeAll hashes := by
        rw [removeAll, List.foldl_cons, remove_of_none hp]
        rfl
      rw [hsame, ih hrest]
    | some p =>
      have hsame := bySender_remove hp (b := b) (by rw [hh p hp]; exact hb)
      rw [← hsame]
      refine ih fun k hk q hq => hrest k hk q ?_
      rw [(remove_of_get hp).1, Table.get_del] at hq
      split at hq
      · cases hq
      · exact hq

theorem Sound.dropStale (hs : pool.Sound c) (ha : (pool.bySender.get a).isSome) (st : AccountState) :
    ∃ pool', pool.dropStale st a = some pool' ∧ pool'.Sound c ∧
      ∀ b, b ≠ a → pool'.bySender.get b = pool.bySender.get b := by
  obtain ⟨nonces, hnonces⟩ := Option.isSome_iff_exists.1 ha
  refine ⟨_, by rw [Inner.dropStale, hnonces]; rfl, hs.removeAll _, fun b hb => bySender_removeAll hb ?_⟩
  intro h hh p hp
  obtain ⟨⟨n, k⟩, hmem, rfl⟩ := List.mem_map.1 hh
  have hat : pool.hashAt a n = some k := by
    rw [hashAt, hnonces, Option.bind_some, Table.get_eq_some]
    exact (List.mem_filter.1 hmem).1
  obtain ⟨q, hq, hsender, -⟩ := (hs.indexed _ _ _).1 hat
  rw [hp] at hq
  cases hq
  exact hsender

theorem Sound.foldlM_dropStale (hs : pool.Sound c) {senders : List Address} (hnodup : senders.Nodup)
    (hall : ∀ a ∈ senders, (pool.bySender.get a).isSome) (st : AccountState) :
    ∃ pool', senders.foldlM (fun pool a => pool.dropStale st a) pool = some pool' ∧ pool'.Sound c := by
  induction senders generalizing pool with
  | nil => exact ⟨pool, rfl, hs⟩
  | cons a senders ih =>
    obtain ⟨hfresh, hnodup⟩ := List.nodup_cons.1 hnodup
    obtain ⟨ha, hrest⟩ := List.forall_mem_cons.1 hall
    obtain ⟨pool₁, h₁, hs₁, hsame⟩ := hs.dropStale ha st
    rw [List.foldlM_cons, h₁, Option.bind_eq_bind, Option.bind_some]
    refine ih hs₁ hnodup fun b hb => ?_
    rw [hsame b fun heq => hfresh (heq ▸ hb)]
    exact hrest b hb

theorem Sound.onNewBlock (hs : pool.Sound c) (st : AccountState) :
    ∃ pool', pool.onNewBlock st = some pool' ∧ pool'.Sound c := by
  refine hs.foldlM_dropStale pool.bySender.nodup_keys (fun a ha => ?_) st
  obtain ⟨⟨b, m⟩, hmem, rfl⟩ := List.mem_map.1 ha
  rw [Table.get_eq_some.2 hmem]
  rfl

end NewBlock

theorem Sound.step (hs : pool.Sound c) (call : Call) : ∃ pool', pool.step c call = some pool' ∧ pool'.Sound c := by
  cases call with
  | add st tx =>
    unfold Inner.step
    simp only
    cases hadd : pool.add c st tx with
    | ok r => exact ⟨r.2, rfl, hs.add hadd⟩
    | error f =>
      cases f with
      | refused e => exact ⟨pool, rfl, hs⟩
      | panicked => exact absurd hadd hs.add_ne_panicked
  | onNewBlock st => exact hs.onNewBlock st
  | remove hashes => exact ⟨_, rfl, hs.removeAll hashes⟩

end Inner

theorem Reached.sound {c : PoolConfig} {meets : Call → Inner → Prop} {pool : Inner} (h : Reached c meets pool) :
    pool.Sound c := by
  induction h with
  | empty => exact .empty c
  | step call _ _ hstep ih =>
    obtain ⟨pool', hpool', hs⟩ := ih.step call
    rw [hstep] at hpool'
    cases hpool'
    exact hs

end Boltchain.Txpool
