import Boltchain.Lib.Checked
import Boltchain.Lib.SwapRemove
import Boltchain.Consensus.Types

namespace Boltchain.Contracts

open Boltchain.Consensus (Bytes)
open Lib

abbrev Address := Fin (2 ^ 160)

namespace Sys

def MIN_STAKE : Nat := 64 * 10 ^ 18

def UNBONDING_EPOCHS : Nat := 14

end Sys

/-- What the contracts compute with BLS keys and signatures. -/
structure BlsLib where
  compressG1 : Bytes → Bytes
  /-- Key point, message, signature point; for a signed message and for a proof of possession. -/
  verify : Bytes → Bytes → Bytes → Bool
  verifyPop : Bytes → Bytes → Bytes → Bool

inductive Status where
  | none
  | active
  | exiting
  | slashed
  | withdrawn
deriving DecidableEq, Repr

structure Validator where
  owner : Address
  feeRecipient : Address
  stake : Nat
  /-- Part of the stake deposited in or after `recentEpoch`. -/
  recent : Nat
  status : Status
  exitEpoch : Nat
  recentEpoch : Nat
  pubkey : Bytes
deriving DecidableEq, Repr

def Validator.empty : Validator := ⟨0, 0, 0, 0, .none, 0, 0, List.replicate 48 0⟩

structure Staking where
  count : Nat
  validators : Nat → Validator
  /-- The id registered with a key, by the key's hash. -/
  idOfPubkey : Nat → Nat
  active : List Nat
  /-- Index in `active` plus one. -/
  activePos : Nat → Nat
  totalActiveStake : Nat
  deadStake : Nat

namespace Staking

def genesis : Staking where
  count := 0
  validators := fun _ => .empty
  idOfPubkey := fun _ => 0
  active := []
  activePos := fun _ => 0
  totalActiveStake := 0
  deadStake := 0

def set (σ : Staking) (id : Nat) (v : Validator) : Staking :=
  { σ with validators := Function.update σ.validators id v }

section Calls

variable (keccak256 : Bytes → Nat) (bls : BlsLib) (σ : Staking) (epoch : Nat)

def create (pubkey : Bytes) (owner feeRecipient : Address) (stake : Nat) : Option (Staking × Nat) := do
  Checked.require (pubkey.length = 48)
  Checked.require (σ.idOfPubkey (keccak256 pubkey) = 0)
  let id ← Checked.add 32 σ.count 1
  let active := σ.active ++ [id]
  let v : Validator :=
    { owner, feeRecipient, stake := stake % 2 ^ 128, recent := stake % 2 ^ 128, status := .active,
      exitEpoch := (σ.validators id).exitEpoch, recentEpoch := epoch, pubkey }
  some ({ σ with
    count := id
    validators := Function.update σ.validators id v
    idOfPubkey := Function.update σ.idOfPubkey (keccak256 pubkey) id
    active
    activePos := Function.update σ.activePos id (active.length % 2 ^ 32) }, id)

def raiseActive (σ : Staking) (amount : Nat) : Option Staking := do
  let total ← Checked.add 256 σ.totalActiveStake amount
  some { σ with totalActiveStake := total }

def registerGenesis (pubkey : Bytes) (owner feeRecipient : Address) (stake : Nat) : Option Staking := do
  let (σ, id) ← σ.create keccak256 epoch pubkey owner feeRecipient stake
  (σ.set id { σ.validators id with recent := 0 }).raiseActive stake

def register (sender : Address) (value : Nat) (pubkey pubkeyPoint pop : Bytes) (feeRecipient : Address) :
    Option Staking := do
  Checked.require (Sys.MIN_STAKE ≤ value)
  Checked.require (pubkey.length = 48 ∧ keccak256 (bls.compressG1 pubkeyPoint) = keccak256 pubkey)
  Checked.require (bls.verifyPop pubkeyPoint pubkey pop = true)
  let (σ, _) ← σ.create keccak256 epoch pubkey sender feeRecipient value
  σ.raiseActive value

def addRecent (v : Validator) (amount : Nat) : Option Validator := do
  let matures ← Checked.add 64 v.recentEpoch Sys.UNBONDING_EPOCHS
  let recent ← Checked.add 128 (if matures ≤ epoch then 0 else v.recent) (amount % 2 ^ 128)
  some { v with recent, recentEpoch := epoch }

def deposit (id value : Nat) : Option Staking := do
  Checked.require ((σ.validators id).status = .active)
  let v ← addRecent epoch (σ.validators id) value
  let stake ← Checked.add 128 v.stake (value % 2 ^ 128)
  (σ.set id { v with stake }).raiseActive value

/-- Takes `id` off the list of active validators, moving the last one into its place. -/
def deactivate (id stake : Nat) : Option Staking := do
  let last ← σ.active.getLast?
  let pos ← Checked.sub (σ.activePos id) 1
  Checked.require (pos < σ.active.length)
  let total ← Checked.sub σ.totalActiveStake stake
  some { σ with
    active := SwapRemove.remove σ.active pos last
    activePos := Function.update (Function.update σ.activePos last (σ.activePos id)) id 0
    totalActiveStake := total }

def requestExit (sender : Address) (id : Nat) : Option Staking := do
  let v := σ.validators id
  Checked.require (sender = v.owner)
  Checked.require (v.status = .active)
  (σ.set id { v with status := .exiting, exitEpoch := epoch }).deactivate id v.stake

/-- The storage after `withdraw` and the amount it sends to the owner. -/
def withdraw (sender : Address) (id : Nat) : Option (Staking × Nat) := do
  let v := σ.validators id
  Checked.require (sender = v.owner)
  Checked.require (v.status = .exiting ∨ v.status = .slashed)
  let next ← Checked.add 64 v.exitEpoch 1
  let free ← Checked.add 64 next Sys.UNBONDING_EPOCHS
  Checked.require (free ≤ epoch)
  some (σ.set id { v with stake := 0, recent := 0, status := .withdrawn }, v.stake)

def setFeeRecipient (sender : Address) (id : Nat) (feeRecipient : Address) : Option Staking := do
  let v := σ.validators id
  Checked.require (sender = v.owner)
  some (σ.set id { v with feeRecipient })

/-- A penalty: the whole amount taken and the part of it paid to the reporter. -/
structure Penalty where
  amount : Nat
  reward : Nat
deriving DecidableEq, Repr

/-- The penalty of `bps` basis points of a stake, one percent of it for the reporter. -/
def penaltyOf (stake bps : Nat) : Option Penalty := do
  let scaled ← Checked.mul 256 stake bps
  some ⟨scaled / 10000, scaled / 10000 / 100⟩

/-- Lowers a validator's stake; the unmatured part is at most what is left. -/
def cut (v : Validator) (amount : Nat) : Option Validator := do
  let stake ← Checked.sub v.stake (amount % 2 ^ 128)
  some { v with stake, recent := min v.recent stake }

def lock (σ : Staking) (amount : Nat) : Option Staking := do
  let deadStake ← Checked.add 256 σ.deadStake amount
  some { σ with deadStake }

/-- The storage after `slash`; the burnt part leaves the supply and the reward is sent to the reporter. -/
def slash (id bps : Nat) : Option (Staking × Penalty) := do
  let v := σ.validators id
  Checked.require (v.status = .active ∨ v.status = .exiting)
  let p ← penaltyOf v.stake bps
  let σ ← (if v.status = .active then σ.deactivate id v.stake else some σ)
  let v ← cut v p.amount
  let σ ← (σ.set id { v with status := .slashed, exitEpoch := epoch }).lock (p.amount - p.reward)
  some (σ, p)

/-- The storage after `penalize`, as with `slash` but without an exit. -/
def penalize (id bps : Nat) : Option (Staking × Penalty) := do
  let v := σ.validators id
  Checked.require (v.status = .active ∨ v.status = .exiting)
  let p ← penaltyOf v.stake bps
  let v' ← cut v p.amount
  let total ← (if v.status = .active then Checked.sub σ.totalActiveStake p.amount else some σ.totalActiveStake)
  let σ ← ({ σ with totalActiveStake := total }.set id v').lock (p.amount - p.reward)
  some (σ, p)

end Calls

section Views

variable (σ : Staking) (epoch : Nat)

def matured (v : Validator) (minAge : Nat) : Option Nat := do
  if minAge = 0 then
    some v.stake
  else
    let first ← Checked.add 64 v.recentEpoch minAge
    if first ≤ epoch then some v.stake else Checked.sub v.stake v.recent

def weightOf (minAge id : Nat) : Option (Nat × Nat) := do
  let w ← matured epoch (σ.validators id) minAge
  some (id, w)

/-- The committee lottery: the active validators whose weight is at least the minimum stake. -/
def snapshot (minAge : Nat) : Option (List (Nat × Nat)) := do
  let weights ← σ.active.mapM (σ.weightOf epoch minAge)
  some (weights.filter (Sys.MIN_STAKE ≤ ·.2))

/-- The number of active validators with the minimum stake, and their stake together. -/
def stakerStats : Nat × Nat :=
  let stakes := (σ.active.map fun id => (σ.validators id).stake).filter (Sys.MIN_STAKE ≤ ·)
  (stakes.length, stakes.sum)

end Views

theorem of_mem_snapshot {σ : Staking} {epoch minAge : Nat} {l : List (Nat × Nat)} {e : Nat × Nat}
    (h : σ.snapshot epoch minAge = some l) (he : e ∈ l) : e.1 ∈ σ.active ∧ Sys.MIN_STAKE ≤ e.2 := by
  obtain ⟨weights, hw, hl⟩ := Option.bind_eq_some_iff.1 h
  cases hl
  obtain ⟨he, hmin⟩ := List.mem_filter.1 he
  obtain ⟨id, hid, hwid⟩ := Checked.mem_of_mapM hw he
  obtain ⟨w, -, hpair⟩ := Option.bind_eq_some_iff.1 hwid
  cases hpair
  exact ⟨hid, of_decide_eq_true hmin⟩

end Staking

end Boltchain.Contracts
