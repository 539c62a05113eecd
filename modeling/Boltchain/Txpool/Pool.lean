import Boltchain.Lib.Checked
import Boltchain.Lib.Merge
import Boltchain.Lib.Table

namespace Boltchain.Txpool

open Lib

abbrev Address := Fin (2 ^ 160)

abbrev Hash := Nat

def TX_GAS_LIMIT_CAP : Nat := 2 ^ 24

def MAX_TX_BYTES : Nat := 128 * 1024

structure PoolConfig where
  chainId : Nat
  blockGasLimit : Nat
  minBaseFee : Nat
  maxTxs : Nat
  maxBytes : Nat
  maxPerSender : Nat
  priceBumpPct : Nat
  minBaseFee_lt : minBaseFee < 2 ^ 64
  maxPerSender_lt : maxPerSender < 2 ^ 64

theorem sixteen_lt_word : 16 < 2 ^ 64 := by decide

def PoolConfig.new (chainId blockGasLimit minBaseFee : Nat) (h : minBaseFee < 2 ^ 64) : PoolConfig where
  chainId
  blockGasLimit
  minBaseFee
  maxTxs := 4096
  maxBytes := 16 <<< 20
  maxPerSender := 16
  priceBumpPct := 10
  minBaseFee_lt := h
  maxPerSender_lt := sixteen_lt_word

inductive AddError where
  | decode
  | tooLarge
  | signature
  | blob
  | unprotected
  | chainId (id : Nat)
  | gasLimit (gas : Nat)
  | intrinsicGas (needed : Nat)
  | feeTooLow
  | nonceTooLow (next : Nat)
  | nonceTooHigh
  | insufficientFunds
  | underpriced
  | alreadyKnown
  | poolFull
deriving DecidableEq, Repr

/-- A signed transaction as the pool reads it: `TxEnvelope` with what is computed from it. -/
structure Tx where
  isEip4844 : Bool
  chainId : Option Nat
  gasLimit : Nat
  maxFeePerGas : Nat
  maxPriorityFeePerGas : Option Nat
  nonce : Nat
  value : Nat
  /-- `intrinsic_gas`. -/
  intrinsicGas : Nat
  /-- `recover_signer`. -/
  signer : Option Address
  hash : Hash
  /-- `encode_2718_len`. -/
  size : Nat
  maxFeePerGas_lt : maxFeePerGas < 2 ^ 128
  nonce_lt : nonce < 2 ^ 64
deriving DecidableEq

namespace Tx

variable (tx : Tx)

def effectiveTip (baseFee : Nat) : Option Nat :=
  if tx.maxFeePerGas < baseFee then none
  else match tx.maxPriorityFeePerGas with
    | some tip => some (min (tx.maxFeePerGas - baseFee) tip)
    | none => some (tx.maxFeePerGas - baseFee)

def tip : Nat := tx.maxPriorityFeePerGas.getD tx.maxFeePerGas

def cost : Nat := tx.gasLimit * tx.maxFeePerGas + tx.value

end Tx

structure PooledTx where
  tx : Tx
  sender : Address
  hash : Hash
  size : Nat
deriving DecidableEq

structure Account where
  nonce : Nat
  balance : Nat
  balance_lt : balance < 2 ^ 256

abbrev AccountState := Address → Account

structure Inner where
  byHash : Table Hash PooledTx
  bySender : Table Address (Table Nat Hash)
  bytes : Nat

/-- What becomes of a transaction that is not admitted; a missing index aborts the node. -/
inductive Fault where
  | refused (e : AddError)
  | panicked
deriving DecidableEq, Repr

namespace Inner

def empty : Inner := ⟨.empty, .empty, 0⟩

variable (c : PoolConfig) (st : AccountState) (pool : Inner)

def len : Nat := pool.byHash.entries.length

def hashAt (a : Address) (n : Nat) : Option Hash := (pool.bySender.get a).bind (·.get n)

def remove (hash : Hash) : Inner :=
  match pool.byHash.get hash with
  | none => pool
  | some p =>
    { byHash := pool.byHash.del hash
      bytes := pool.bytes - p.size
      bySender := match pool.bySender.get p.sender with
        | none => pool.bySender
        | some nonces =>
          if (nonces.del p.tx.nonce).entries.isEmpty then pool.bySender.del p.sender
          else pool.bySender.put p.sender (nonces.del p.tx.nonce) }

def insert (sender : Address) (tx : Tx) : Inner where
  byHash := pool.byHash.put tx.hash ⟨tx, sender, tx.hash, tx.size⟩
  bySender := pool.bySender.put sender (((pool.bySender.get sender).getD .empty).put tx.nonce tx.hash)
  bytes := pool.bytes + tx.size

end Inner

/-- What `add` checks of a transaction before it locks the pool; the sender. -/
def check (c : PoolConfig) (st : AccountState) (tx : Tx) : Except AddError Address :=
  if tx.isEip4844 then .error .blob
  else match tx.chainId with
    | none => .error .unprotected
    | some id =>
      if id ≠ c.chainId then .error (.chainId id)
      else if ¬ (21000 ≤ tx.gasLimit ∧ tx.gasLimit ≤ min TX_GAS_LIMIT_CAP c.blockGasLimit) then
        .error (.gasLimit tx.gasLimit)
      else if tx.gasLimit < tx.intrinsicGas then .error (.intrinsicGas tx.intrinsicGas)
      else if tx.maxFeePerGas < c.minBaseFee ∨ tx.maxPriorityFeePerGas.any (tx.maxFeePerGas < ·) then .error .feeTooLow
      else match tx.signer with
        | none => .error .signature
        | some sender =>
          if tx.nonce < (st sender).nonce then .error (.nonceTooLow (st sender).nonce)
          -- The sum is one of `u64`.
          else if ((st sender).nonce + c.maxPerSender) % 2 ^ 64 ≤ tx.nonce then .error .nonceTooHigh
          -- The cost is one of `U256`, whose operators wrap.
          else if (st sender).balance < tx.cost % 2 ^ 256 then .error .insufficientFunds
          else .ok sender

def bump (pct x : Nat) : Nat := (x + x * pct % 2 ^ 128 / 100) % 2 ^ 128

namespace Inner

variable (c : PoolConfig) (st : AccountState) (pool : Inner)

def add (tx : Tx) : Except Fault (Hash × Inner) :=
  match check c st tx with
  | .error e => .error (.refused e)
  | .ok sender =>
    if (pool.byHash.get tx.hash).isSome then .error (.refused .alreadyKnown)
    else match pool.hashAt sender tx.nonce with
      | some oldHash =>
        match pool.byHash.get oldHash with
        | none => .error .panicked
        | some old =>
          if tx.tip < bump c.priceBumpPct old.tx.tip ∨ tx.maxFeePerGas < bump c.priceBumpPct old.tx.maxFeePerGas then
            .error (.refused .underpriced)
          else .ok (tx.hash, (pool.remove oldHash).insert sender tx)
      | none =>
        if c.maxTxs ≤ pool.len ∨ c.maxBytes < pool.bytes + tx.size then .error (.refused .poolFull)
        else .ok (tx.hash, pool.insert sender tx)

/-- `add_raw_inner`, for a decoder of EIP-2718 transactions that gives what it leaves of its input. -/
def addRaw (decode : List UInt8 → Option (Tx × List UInt8)) (raw : List UInt8) : Except Fault (Hash × Inner) :=
  if MAX_TX_BYTES < raw.length then .error (.refused .tooLarge)
  else match decode raw with
    | none => .error (.refused .decode)
    | some (tx, rest) => if rest ≠ [] then .error (.refused .decode) else pool.add c st tx

def removeAll (hashes : List Hash) : Inner := hashes.foldl Inner.remove pool

def dropStale (a : Address) : Option Inner := do
  let nonces ← pool.bySender.get a
  some (pool.removeAll ((nonces.entries.filter fun e => e.1 < (st a).nonce).map Prod.snd))

def onNewBlock : Option Inner :=
  (pool.bySender.entries.map Prod.fst).foldlM (fun pool a => pool.dropStale st a) pool

/-- The transactions of consecutive nonces from `expected` on whose fee cap covers the base fee. -/
def run (baseFee : Nat) : Nat → List (Nat × Hash) → Option (List PooledTx)
  | _, [] => some []
  | expected, (n, h) :: nonces =>
    if n ≠ expected then some []
    else do
      let p ← pool.byHash.get h
      match p.tx.effectiveTip baseFee with
      | none => some []
      | some _ => do
        let later ← run baseFee ((expected + 1) % 2 ^ 64) nonces
        some (p :: later)

def runOf (baseFee : Nat) (a : Address) : Option (List PooledTx) := do
  let nonces ← pool.bySender.get a
  let start := (st a).nonce
  pool.run baseFee start (nonces.entries.filter fun e => start ≤ e.1)

/-- Executable transactions ordered for block building. `order` is the order in which the map gives its
senders. -/
def best (order : List Address) (baseFee : Nat) : Option (List (Tx × Address)) := do
  let runs ← order.mapM (pool.runOf st baseFee)
  let out ← Merge.merge (fun p => (p.tx.effectiveTip baseFee).getD 0) (runs.filter fun run => !run.isEmpty)
  some (out.map fun p => (p.tx, p.sender))

end Inner

/-- The calls that change the pool, with the account state that each of them sees. -/
inductive Call where
  | add (st : AccountState) (tx : Tx)
  | onNewBlock (st : AccountState)
  | remove (hashes : List Hash)

/-- A call on the pool; `none` if it panics. A transaction that is refused leaves the pool alone. -/
def Inner.step (c : PoolConfig) (pool : Inner) : Call → Option Inner
  | .add st tx =>
    match pool.add c st tx with
    | .ok (_, pool') => some pool'
    | .error (.refused _) => some pool
    | .error .panicked => none
  | .onNewBlock st => pool.onNewBlock st
  | .remove hashes => some (pool.removeAll hashes)

/-- The pools that calls lead to, each made while it `meets` a condition. -/
inductive Reached (c : PoolConfig) (meets : Call → Inner → Prop) : Inner → Prop
  | empty : Reached c meets .empty
  | step {pool pool' : Inner} (call : Call) :
      Reached c meets pool → meets call pool → pool.step c call = some pool' → Reached c meets pool'

end Boltchain.Txpool
