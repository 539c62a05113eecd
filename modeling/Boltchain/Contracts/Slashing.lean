import Boltchain.Lib.Reentry
import Boltchain.Contracts.Phases

namespace Boltchain.Contracts

open Boltchain.Consensus (Bytes toBeBytes conflict)
open Lib
open Lib.Reentry (Call)

/-- How the rest of the state takes part in the calls of `StakingManager`: value a sender attaches to
a call, value the contract sends, and `burnSupply`. -/
structure Ledger (X : Type) where
  receive : Address → Nat → X → Option X
  pay : Address → Nat → X → Option X
  burnSupply : Nat → X → X

/-- `ConsensusRegistry` and `StakingManager`, the next epoch to start, and the rest of the state. -/
structure StakeWorld (X : Type) where
  registry : Registry
  staking : Staking
  next : Nat
  rest : X

namespace StakeWorld

structure DevValidator where
  pubkey : Bytes
  owner : Address
  feeRecipient : Address
  stake : Nat

variable {X : Type} (keccak256 : Bytes → Nat)

def genesisStaking (validators : List DevValidator) : Option Staking :=
  validators.foldlM (fun σ v => σ.registerGenesis keccak256 0 v.pubkey v.owner v.feeRecipient v.stake) .genesis

/-- The state at genesis: nothing is scheduled, or, on a dev chain, the listed validators form the
committee of epoch 0. -/
def genesis (validators : List DevValidator) (rest : X) : Option (StakeWorld X) := do
  let staking ← genesisStaking keccak256 validators
  let ids := (List.range validators.length).map (· + 1)
  let registry := if validators.isEmpty then .genesis else Registry.genesis.initializeWith (Committee.equal ids).stored
  some ⟨registry, staking, 0, rest⟩

end StakeWorld

/-- The calls that change validators: by users, and `penalize` by `SwarmStorage`. -/
inductive StakeOp where
  | register (sender : Address) (value : Nat) (pubkey pubkeyPoint pop : Bytes) (feeRecipient : Address)
  | deposit (sender : Address) (id value : Nat)
  | requestExit (sender : Address) (id : Nat)
  | withdraw (sender : Address) (id : Nat)
  | setFeeRecipient (sender : Address) (id : Nat) (feeRecipient : Address)
  | submitEvidence (sender : Address) (id : Nat) (pubkeyPoint msgA sigA msgB sigB : Bytes)
  | penalize (id bps : Nat) (reporter : Address)

section Calls

variable {X : Type} (L : Ledger X) (keccak256 : Bytes → Nat) (bls : BlsLib) (chainid : Nat)

abbrev StakeCall (X α : Type) := Call Address (StakeWorld X) α

def receive (sender : Address) (value : Nat) : StakeCall X Unit :=
  Call.update fun w => (L.receive sender value w.rest).map fun rest => { w with rest }

def trySend (dest : Address) (amount : Nat) : StakeCall X Bool :=
  Call.send dest fun w => (L.pay dest amount w.rest).map fun rest => { w with rest }

def transfer (dest : Address) (amount : Nat) : StakeCall X Unit := do
  let ok ← trySend L dest amount
  Call.require (ok = true)

def payReward (reporter : Address) (reward : Nat) : StakeCall X Unit :=
  if 0 < reward then transfer L reporter reward else pure ()

def payOrLock (reporter : Address) (reward : Nat) : StakeCall X Unit :=
  if 0 < reward then do
    let ok ← trySend L reporter reward
    if ok then
      pure ()
    else
      Call.update fun w => (w.staking.lock reward).map fun staking => { w with staking }
  else pure ()

def onStaking (f : Staking → Nat → Option Staking) : StakeCall X Unit :=
  Call.update fun w => (f w.staking w.registry.currentEpoch).map fun staking => { w with staking }

def withdraw (sender : Address) (id : Nat) : StakeCall X Unit := do
  let w ← Call.get
  let (staking, amount) ← Call.lift (w.staking.withdraw w.registry.currentEpoch sender id)
  Call.set { w with staking }
  transfer L (w.staking.validators id).owner amount

def evidenceKey (id epoch round len : Nat) : Nat :=
  keccak256 (toBeBytes 32 id ++ (toBeBytes 32 epoch ++ (toBeBytes 32 round ++ toBeBytes 32 len)))

/-- Two conflicting messages signed by a validator: the key of this evidence, if it is new and recent. -/
def checkEvidence (r : Registry) (pubkey : Bytes) (id : Nat) (pubkeyPoint msgA sigA msgB sigB : Bytes) : Option Nat := do
  Checked.require (pubkey.length = 48 ∧ keccak256 (bls.compressG1 pubkeyPoint) = keccak256 pubkey)
  let (epoch, round) ← conflict keccak256 chainid msgA msgB
  Checked.require (r.acceptsEvidence epoch = true)
  let key := evidenceKey keccak256 id epoch round msgA.length
  Checked.require (r.evidenceUsed key = false)
  Checked.require (bls.verify pubkeyPoint msgA sigA = true ∧ bls.verify pubkeyPoint msgB sigB = true)
  some key

def submitEvidence (sender : Address) (id : Nat) (pubkeyPoint msgA sigA msgB sigB : Bytes) : StakeCall X Unit := do
  let w ← Call.get
  let key ← Call.lift (checkEvidence keccak256 bls chainid w.registry (w.staking.validators id).pubkey id
    pubkeyPoint msgA sigA msgB sigB)
  let bps ← Call.lift (w.registry.slashBps w.staking.totalActiveStake)
  let (staking, p) ← Call.lift (w.staking.slash w.registry.currentEpoch id bps)
  Call.set { w with
    registry := { w.registry with evidenceUsed := Function.update w.registry.evidenceUsed key true }
    staking
    rest := L.burnSupply (p.amount - p.reward) w.rest }
  payReward L sender p.reward
  Call.update fun w => (w.registry.recordSlash p.amount).map fun registry => { w with registry }

def penalize (id bps : Nat) (reporter : Address) : StakeCall X Unit := do
  let w ← Call.get
  let (staking, p) ← Call.lift (w.staking.penalize id bps)
  Call.set { w with staking, rest := L.burnSupply (p.amount - p.reward) w.rest }
  payOrLock L reporter p.reward

def stakeEntry : StakeOp → StakeCall X Unit
  | .register sender value pubkey pubkeyPoint pop feeRecipient => do
    receive L sender value
    onStaking fun σ epoch => σ.register keccak256 bls epoch sender value pubkey pubkeyPoint pop feeRecipient
  | .deposit sender id value => do
    receive L sender value
    onStaking fun σ epoch => σ.deposit epoch id value
  | .requestExit sender id => onStaking fun σ epoch => σ.requestExit epoch sender id
  | .withdraw sender id => withdraw L sender id
  | .setFeeRecipient sender id feeRecipient => onStaking fun σ _ => σ.setFeeRecipient sender id feeRecipient
  | .submitEvidence sender id pubkeyPoint msgA sigA msgB sigB =>
    submitEvidence L keccak256 bls chainid sender id pubkeyPoint msgA sigA msgB sigB
  | .penalize id bps reporter => penalize L id bps reporter

/-- The first block of the next epoch, with any thresholds and any mix hash of its parent. -/
def StakeWorld.Starts (rules : EpochRules) (w w' : StakeWorld X) : Prop :=
  ∃ i r, i.staking = w.staking ∧ epochStart keccak256 rules i w.next w.registry = some r ∧
    w' = { w with registry := r, next := w.next + 1 }

end Calls

end Boltchain.Contracts
