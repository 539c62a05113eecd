import Boltchain.Txpool.Index

namespace Boltchain.Txpool

open Lib

def Inner.pooled (pool : Inner) (a : Address) (n : Nat) : Option Tx :=
  ((pool.hashAt a n).bind pool.byHash.get).map PooledTx.tx

def raised (pct x : Nat) : Nat := x + x * pct / 100

def BumpFits (pct x : Nat) : Prop := x * pct < 2 ^ 128 ∧ raised pct x < 2 ^ 128

section Prices

variable {pct x y : Nat}

theorem raised_mono (h : x ≤ y) : raised pct x ≤ raised pct y := by
  unfold raised
  gcongr

theorem BumpFits.mono (h : BumpFits pct y) (hle : x ≤ y) : BumpFits pct x :=
  ⟨(Nat.mul_le_mul_right pct hle).trans_lt h.1, (raised_mono hle).trans_lt h.2⟩

theorem bump_eq_raised (h : BumpFits pct x) : bump pct x = raised pct x := by
  obtain ⟨hmul, hsum⟩ := h
  unfold raised at hsum
  rw [bump, raised, Nat.mod_eq_of_lt hmul, Nat.mod_eq_of_lt hsum]

theorem bump_lt (pct x : Nat) : bump pct x < 2 ^ 128 := Nat.mod_lt _ (by positivity)

theorem bump_lt_raised (h : ¬ BumpFits pct x) : bump pct x < raised pct x := by
  by_cases hmul : x * pct < 2 ^ 128
  · have hsum : 2 ^ 128 ≤ raised pct x := by
      by_contra hlt
      exact h ⟨hmul, by omega⟩
    have := bump_lt pct x
    omega
  · have hsum : bump pct x ≤ x + x * pct % 2 ^ 128 / 100 := Nat.mod_le _ _
    unfold raised
    omega

theorem lt_raised (h : ¬ BumpFits pct x) (hx : x < 2 ^ 128) : x < raised pct x := by
  by_cases hmul : x * pct < 2 ^ 128
  · have hsum : 2 ^ 128 ≤ raised pct x := by
      by_contra hlt
      exact h ⟨hmul, by omega⟩
    omega
  · unfold raised
    omega

end Prices

section Replacing

variable {c : PoolConfig} {st : AccountState} {pool pool' : Inner} {tx old : Tx} {a : Address} {h : Hash} {n : Nat}

theorem Inner.pooled_eq_some : pool.pooled a n = some tx ↔
    ∃ k p, pool.hashAt a n = some k ∧ pool.byHash.get k = some p ∧ p.tx = tx := by
  simp only [pooled, Option.map_eq_some_iff, Option.bind_eq_some_iff]
  constructor
  · rintro ⟨p, ⟨k, hk, hp⟩, rfl⟩
    exact ⟨k, p, hk, hp, rfl⟩
  · rintro ⟨k, p, hk, hp, rfl⟩
    exact ⟨p, ⟨k, hk, hp⟩, rfl⟩

theorem Inner.Sound.admitted_pooled (hs : pool.Sound c) (hold : pool.pooled a n = some old) :
    ∃ st, Admissible c st old a ∧ old.nonce = n := by
  obtain ⟨k, p, hk, hp, rfl⟩ := Inner.pooled_eq_some.1 hold
  obtain ⟨q, hq, rfl, rfl⟩ := (hs.indexed _ _ _).1 hk
  rw [hp] at hq
  cases hq
  obtain ⟨st, hadm⟩ := hs.admitted k p hp
  exact ⟨st, hadm, rfl⟩

theorem cost_le_iff (hadm : Admissible c st tx a) : tx.cost ≤ (st a).balance ↔ tx.cost < 2 ^ 256 := by
  constructor
  · exact fun hle => hle.trans_lt (st a).balance_lt
  · intro hlt
    have := hadm.funds
    rwa [Nat.mod_eq_of_lt hlt] at this

theorem Inner.add_signer (hadd : pool.add c st tx = .ok (h, pool')) (ha : tx.signer = some a) :
    Admissible c st tx a := by
  obtain ⟨b, hadm, -⟩ := Inner.add_eq_ok.1 hadd
  have hb := hadm.signer
  rw [ha] at hb
  cases hb
  exact hadm

theorem Inner.add_replaces (hadd : pool.add c st tx = .ok (h, pool')) (ha : tx.signer = some a)
    (hold : pool.pooled a tx.nonce = some old) :
    bump c.priceBumpPct old.maxFeePerGas ≤ tx.maxFeePerGas ∧ bump c.priceBumpPct old.tip ≤ tx.tip := by
  obtain ⟨b, hadm, -, -, hcases⟩ := Inner.add_eq_ok.1 hadd
  have hb := hadm.signer
  rw [ha] at hb
  cases hb
  obtain ⟨k, p, hk, hp, rfl⟩ := Inner.pooled_eq_some.1 hold
  obtain ⟨oldHash, q, hat, hq, htip, hfee, -⟩ | ⟨hat, -⟩ := hcases
  · rw [hk] at hat
    cases hat
    rw [hp] at hq
    cases hq
    exact ⟨hfee, htip⟩
  · rw [hk] at hat
    cases hat

def Tx.repriced (old : Tx) (fee tip : Nat) (hash : Hash) (hfee : fee < 2 ^ 128) : Tx :=
  { old with maxFeePerGas := fee, maxPriorityFeePerGas := some tip, hash, maxFeePerGas_lt := hfee }

def rich (st : AccountState) : AccountState := fun a => ⟨(st a).nonce, 2 ^ 256 - 1, by decide⟩

theorem Admissible.repriced (hadm : Admissible c st old a) {fee tip : Nat} (hash : Hash) (hfee : fee < 2 ^ 128)
    (hmin : c.minBaseFee ≤ fee) (htip : tip ≤ fee) : Admissible c (rich st) (old.repriced fee tip hash hfee) a where
  noBlob := hadm.noBlob
  chain := hadm.chain
  gas_ge := hadm.gas_ge
  gas_le := hadm.gas_le
  intrinsic := hadm.intrinsic
  fee := hmin
  tip := by
    rintro p hp
    cases hp
    exact htip
  signer := hadm.signer
  nonce_ge := hadm.nonce_ge
  nonce_lt := hadm.nonce_lt
  funds := by
    have := Nat.mod_lt (old.repriced fee tip hash hfee).cost (y := 2 ^ 256) (by positivity)
    simp only [rich]
    omega

theorem Inner.exists_fresh (pool : Inner) : ∃ h, pool.byHash.get h = none := by
  obtain ⟨h, hh⟩ := Infinite.exists_notMem_finset (pool.byHash.entries.map Prod.fst).toFinset
  refine ⟨h, Option.eq_none_iff_forall_ne_some.2 fun p hp => hh ?_⟩
  rw [List.mem_toFinset]
  exact List.mem_map.2 ⟨_, Table.get_eq_some.1 hp, rfl⟩

/-- A fee that wraps when it is raised is replaced by one that is too low. -/
theorem Inner.Sound.exists_cheap (hs : pool.Sound c) (hold : pool.pooled a n = some old)
    (hwrap : ¬ BumpFits c.priceBumpPct old.maxFeePerGas) :
    ∃ st tx h pool', pool.add c st tx = .ok (h, pool') ∧ tx.signer = some a ∧ tx.nonce = n ∧
      tx.maxFeePerGas < raised c.priceBumpPct old.maxFeePerGas := by
  obtain ⟨st, hadm, rfl⟩ := hs.admitted_pooled hold
  obtain ⟨k, p, hk, hp, rfl⟩ := Inner.pooled_eq_some.1 hold
  obtain ⟨hash, hfresh⟩ := pool.exists_fresh
  -- The least fee that passes as a fee, next to the least tip, and above the floor.
  let tip := bump c.priceBumpPct p.tx.tip
  let fee := max (bump c.priceBumpPct p.tx.maxFeePerGas) (max tip c.minBaseFee)
  have hfee : fee < 2 ^ 128 := by
    have := bump_lt c.priceBumpPct p.tx.maxFeePerGas
    have : tip < 2 ^ 128 := bump_lt c.priceBumpPct p.tx.tip
    have := c.minBaseFee_lt
    omega
  have hlow : fee < raised c.priceBumpPct p.tx.maxFeePerGas := by
    have hbump := bump_lt_raised hwrap
    have hfloor : c.minBaseFee < raised c.priceBumpPct p.tx.maxFeePerGas :=
      hadm.fee.trans_lt (lt_raised hwrap p.tx.maxFeePerGas_lt)
    have htip : tip < raised c.priceBumpPct p.tx.maxFeePerGas := by
      by_cases heq : p.tx.tip = p.tx.maxFeePerGas
      · simp only [tip, heq]
        exact hbump
      · by_cases hfits : BumpFits c.priceBumpPct p.tx.tip
        · have hlt : p.tx.tip < p.tx.maxFeePerGas := lt_of_le_of_ne hadm.tip_le heq
          have hmul := Nat.div_le_div_right (c := 100) (Nat.mul_le_mul_right c.priceBumpPct hadm.tip_le)
          simp only [tip, bump_eq_raised hfits, raised]
          omega
        · exact (bump_lt_raised hfits).trans_le (raised_mono hadm.tip_le)
    omega
  have hmax : bump c.priceBumpPct p.tx.maxFeePerGas ≤ fee ∧ tip ≤ fee ∧ c.minBaseFee ≤ fee := by omega
  refine ⟨rich st, p.tx.repriced fee tip hash hfee, hash, _, Inner.add_eq_ok.2 ⟨a,
    hadm.repriced hash hfee hmax.2.2 hmax.2.1, hfresh, rfl, .inl ⟨k, p, hk, hp, ?_, hmax.1, rfl⟩⟩, hadm.signer, rfl, hlow⟩
  simp [Tx.tip, Tx.repriced, tip]

end Replacing

/-- In every pool that calls lead to: an admitted transaction's cost is covered by its sender's balance
if and only if it is less than `2 ^ 256`; and every admitted transaction that replaces one has raised both
prices by the percentage if and only if the fee cap it replaces is raised within `u128`. -/
theorem admission_sound_iff (c : PoolConfig) (pool : Inner) (h : Reached c (fun _ _ => True) pool) :
    (∀ st tx hash pool' a, pool.add c st tx = .ok (hash, pool') → tx.signer = some a →
      (tx.cost ≤ (st a).balance ↔ tx.cost < 2 ^ 256)) ∧
    ∀ a n old, pool.pooled a n = some old →
      ((∀ st tx hash pool', pool.add c st tx = .ok (hash, pool') → tx.signer = some a → tx.nonce = n →
          raised c.priceBumpPct old.maxFeePerGas ≤ tx.maxFeePerGas ∧ raised c.priceBumpPct old.tip ≤ tx.tip) ↔
        BumpFits c.priceBumpPct old.maxFeePerGas) := by
  refine ⟨fun st tx hash pool' a hadd ha => cost_le_iff (Inner.add_signer hadd ha), fun a n old hold => ⟨?_, ?_⟩⟩
  · intro hall
    by_contra hwrap
    obtain ⟨st, tx, hash, pool', hadd, ha, hn, hlow⟩ := h.sound.exists_cheap hold hwrap
    have := (hall st tx hash pool' hadd ha hn).1
    omega
  · rintro hfits st tx hash pool' hadd ha rfl
    obtain ⟨st', hadm, -⟩ := h.sound.admitted_pooled hold
    obtain ⟨hfee, htip⟩ := Inner.add_replaces hadd ha hold
    rw [bump_eq_raised hfits] at hfee
    rw [bump_eq_raised (hfits.mono hadm.tip_le)] at htip
    exact ⟨hfee, htip⟩

section Mock

def mockConfig : PoolConfig := .new 1 30000000 1000 (by decide)

theorem zero_lt_word : 0 < 2 ^ 64 := by decide

theorem half_lt_word : 2 ^ 255 < 2 ^ 256 := by decide

def mockTx (fee value : Nat) (hash : Hash) (hfee : fee < 2 ^ 128) : Tx where
  isEip4844 := false
  chainId := some 1
  gasLimit := 21000
  maxFeePerGas := fee
  maxPriorityFeePerGas := none
  nonce := 0
  value
  intrinsicGas := 21000
  signer := some 7
  hash
  size := 110
  maxFeePerGas_lt := hfee
  nonce_lt := zero_lt_word

def mockState (balance : Nat) (h : balance < 2 ^ 256) : AccountState := fun _ => ⟨0, balance, h⟩

theorem mockTx_admissible (fee value balance : Nat) (hash : Hash) (hfee : fee < 2 ^ 128) (hbalance : balance < 2 ^ 256)
    (hmin : 1000 ≤ fee) (hcost : (21000 * fee + value) % 2 ^ 256 ≤ balance) :
    Admissible mockConfig (mockState balance hbalance) (mockTx fee value hash hfee) 7 where
  noBlob := rfl
  chain := rfl
  gas_ge := le_rfl
  gas_le := show 21000 ≤ min TX_GAS_LIMIT_CAP 30000000 by decide
  intrinsic := le_rfl
  fee := hmin
  tip := nofun
  signer := rfl
  nonce_ge := le_rfl
  nonce_lt := by simp [mockTx, mockState, mockConfig, PoolConfig.new]
  funds := hcost

theorem reached_of_foldlM {c : PoolConfig} {calls : List Call} {pool pool' : Inner}
    (hpool : Reached c (fun _ _ => True) pool) (h : calls.foldlM (Inner.step c) pool = some pool') :
    Reached c (fun _ _ => True) pool' := by
  induction calls generalizing pool with
  | nil =>
    cases h
    exact hpool
  | cons call calls ih =>
    rw [List.foldlM_cons] at h
    obtain ⟨pool₁, h₁, h⟩ := Option.bind_eq_some_iff.1 h
    exact ih (.step call hpool trivial h₁) h

/-- A value so large that it wraps around with the fees is admitted of an empty account, and a fee cap
of `2 ^ 128 - 1` is replaced by half of it. -/
theorem wrapped_prices_are_admitted :
    (∃ st tx pool', Inner.empty.add mockConfig st tx = .ok (tx.hash, pool') ∧ tx.signer = some 7 ∧
      (st 7).balance < tx.cost) ∧
    ∃ st tx pool tx' pool', Inner.empty.add mockConfig st tx = .ok (tx.hash, pool) ∧
      pool.add mockConfig st tx' = .ok (tx'.hash, pool') ∧ tx.signer = some 7 ∧ tx'.signer = some 7 ∧
      tx'.nonce = tx.nonce ∧ tx'.maxFeePerGas < raised mockConfig.priceBumpPct tx.maxFeePerGas := by
  constructor
  · have hadm := mockTx_admissible 1000 (2 ^ 256 - 21000 * 1000) 0 1 (by decide)
      (by decide) (by decide) (by decide +kernel)
    refine ⟨_, _, _, Inner.add_eq_ok.2 ⟨7, hadm, rfl, rfl, .inr ⟨rfl, by decide, by decide, rfl⟩⟩, rfl, ?_⟩
    decide +kernel
  · have hadm := mockTx_admissible (2 ^ 128 - 1) 0 (2 ^ 255) 1 (by decide)
      (by decide) (by decide) (by decide +kernel)
    have hadm' := mockTx_admissible (2 ^ 127) 0 (2 ^ 255) 2 (by decide)
      (by decide) (by decide) (by decide +kernel)
    refine ⟨_, _, _, _, _, Inner.add_eq_ok.2 ⟨7, hadm, rfl, rfl, .inr ⟨rfl, by decide, by decide, rfl⟩⟩,
      Inner.add_eq_ok.2 ⟨7, hadm', rfl, rfl, .inl ⟨1, _, rfl, rfl, ?_, ?_, rfl⟩⟩, rfl, rfl, rfl, ?_⟩ <;> decide +kernel

theorem admission_sound_iff_transfer : ∃ pool : Inner, pool.pooled 7 0 = some (mockTx 1000 5 1 (by decide)) ∧
    ∀ st tx hash pool', pool.add mockConfig st tx = .ok (hash, pool') → tx.signer = some 7 → tx.nonce = 0 →
      1100 ≤ tx.maxFeePerGas ∧ 1100 ≤ tx.tip := by
  have hadm := mockTx_admissible 1000 5 (2 ^ 255) 1 (by decide) (by decide) (by decide) (by decide +kernel)
  have hadd : Inner.empty.add mockConfig _ _ = .ok (1, _) :=
    Inner.add_eq_ok.2 ⟨7, hadm, rfl, rfl, .inr ⟨rfl, by decide, by decide, rfl⟩⟩
  have hreached : Reached mockConfig (fun _ _ => True) (Inner.empty.insert 7 (mockTx 1000 5 1 (by decide))) :=
    .step (.add _ _) .empty trivial (by rw [Inner.step, hadd])
  refine ⟨Inner.empty.insert 7 (mockTx 1000 5 1 (by decide)), rfl, ?_⟩
  exact ((admission_sound_iff mockConfig _ hreached).2 7 0 _ rfl).2 ⟨by decide, by decide⟩

end Mock

end Boltchain.Txpool
