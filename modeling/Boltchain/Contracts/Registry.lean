import Boltchain.Contracts.Staking

namespace Boltchain.Contracts

open Boltchain.Consensus (Bytes)
open Lib

structure StoredCommittee where
  /-- Validator ids. -/
  members : List Nat
  /-- Seats per member. -/
  weights : List Nat
  /-- The member at each seat, two bytes each. -/
  seats : Bytes
deriving DecidableEq, Repr

def StoredCommittee.empty : StoredCommittee := ⟨[], [], []⟩

structure Registry where
  currentEpoch : Nat
  checkpointScheduled : Bool
  checkpointEpoch : Nat
  posScheduled : Bool
  posEpoch : Nat
  checkpointStreak : Nat
  thresholdStreak : Nat
  committees : Nat → StoredCommittee
  /-- Reported equivocations, by the hash of validator, epoch, round and message length. -/
  evidenceUsed : Nat → Bool
  slashedRing : Fin 16 → Nat
  slashedRingEpoch : Fin 16 → Nat

namespace Registry

def KEEP_EPOCHS : Nat := 32

def genesis : Registry where
  currentEpoch := 0
  checkpointScheduled := false
  checkpointEpoch := 0
  posScheduled := false
  posEpoch := 0
  checkpointStreak := 0
  thresholdStreak := 0
  committees := fun _ => .empty
  evidenceUsed := fun _ => false
  slashedRing := fun _ => 0
  slashedRingEpoch := fun _ => 0

variable (r : Registry)

def extend (streak : Nat) (met : Bool) : Option Nat := if met then Checked.add 64 streak 1 else some 0

def countCheckpoint (epoch : Nat) (met : Bool) (streakRequired : Nat) : Option Registry := do
  if r.checkpointScheduled then
    some r
  else
    let streak ← extend r.checkpointStreak met
    if streakRequired ≤ streak then
      let first ← Checked.add 64 epoch 2
      some { r with checkpointStreak := streak, checkpointScheduled := true, checkpointEpoch := first }
    else
      some { r with checkpointStreak := streak }

/-- The part of `beginEpoch` that decides on the switch to PoS, which implies checkpoints. -/
def countPos (epoch : Nat) (met : Bool) (streakRequired : Nat) : Option Registry := do
  if r.posScheduled then
    some r
  else
    let streak ← extend r.thresholdStreak met
    if streakRequired ≤ streak then
      let first ← Checked.add 64 epoch 2
      let r := { r with thresholdStreak := streak, posScheduled := true, posEpoch := first }
      some (if r.checkpointScheduled then r else { r with checkpointScheduled := true, checkpointEpoch := first })
    else
      some { r with thresholdStreak := streak }

def forget (epoch : Nat) : Option Registry := do
  let next ← Checked.add 64 epoch 1
  if KEEP_EPOCHS ≤ next then
    some { r with committees := Function.update r.committees (next - KEEP_EPOCHS) .empty }
  else
    some r

def beginEpoch (epoch : Nat) (checkpointMet posMet : Bool) (streakRequired : Nat) : Option Registry := do
  let r ← { r with currentEpoch := epoch }.countCheckpoint epoch checkpointMet streakRequired
  let r ← r.countPos epoch posMet streakRequired
  r.forget epoch

/-- The registry of a dev chain with validators at genesis: PoS from the start. -/
def initializeWith (c : StoredCommittee) : Registry :=
  { r with
    checkpointScheduled := true
    posScheduled := true
    committees := Function.update r.committees 0 c }

def setCommittee (epoch : Nat) (c : StoredCommittee) : Registry :=
  { r with committees := Function.update r.committees epoch c }

@[simp]
theorem setCommittee_committees (epoch : Nat) (c : StoredCommittee) :
    (r.setCommittee epoch c).committees = Function.update r.committees epoch c := rfl

def acceptsEvidence (epoch : Nat) : Bool :=
  match Checked.add 64 epoch Sys.UNBONDING_EPOCHS with
  | some last => r.currentEpoch ≤ last
  | none => false

def BASE_SLASH_BPS : Nat := 500

/-- The amounts slashed in the last epochs, over the places `places` of the ring. -/
def recentlySlashed (places : List (Fin 16)) : Option Nat :=
  places.foldlM (fun recent i => do
    let last ← Checked.add 64 (r.slashedRingEpoch i) Sys.UNBONDING_EPOCHS
    if r.currentEpoch ≤ last then Checked.add 256 recent (r.slashedRing i) else some recent) 0

/-- Basis points of the next slashing, given the stake of all active validators. -/
def slashBps (total : Nat) : Option Nat := do
  if total = 0 then
    some 10000
  else
    let recent ← r.recentlySlashed (List.finRange 16)
    let tripled ← Checked.mul 256 3 recent
    let scaled ← Checked.mul 256 tripled 10000
    let bps ← Checked.add 256 BASE_SLASH_BPS (scaled / total)
    some (min bps 10000)

def recordSlash (amount : Nat) : Option Registry := do
  let i := Fin.ofNat 16 r.currentEpoch
  let sum ← Checked.add 256 (if r.slashedRingEpoch i = r.currentEpoch then r.slashedRing i else 0) amount
  some { r with
    slashedRingEpoch := Function.update r.slashedRingEpoch i r.currentEpoch
    slashedRing := Function.update r.slashedRing i sum }

end Registry

/-- The rules of a chain that the hooks read, with what `Genesis::validate` demands of them. -/
structure EpochRules where
  epochSlots : Nat
  committeeSize : Nat
  checkpointMinStakers : Nat
  checkpointMinStake : Nat
  posMinStakers : Nat
  posMinStake : Nat
  /-- Epochs the thresholds must hold, and the age of the stake in the first committee of a phase. -/
  posStreak : Nat
  epochSlots_ge : 2 ≤ epochSlots
  committeeSize_pos : 0 < committeeSize

namespace EpochRules

variable (rules : EpochRules)

def epochOf (height : Nat) : Nat := if height = 0 then 0 else (height - 1) / rules.epochSlots

def isEpochStart (height : Nat) : Bool := decide (1 ≤ height) && (height - 1) % rules.epochSlots == 0

end EpochRules

/-- The consensus phase as a node reads it from the state. -/
structure Phase where
  checkpointEpoch : Option Nat
  posEpoch : Option Nat
deriving DecidableEq, Repr

namespace Phase

variable (p : Phase) (rules : EpochRules)

def isPos (height : Nat) : Bool := p.posEpoch.any fun e => decide (e ≤ rules.epochOf height)

def isCheckpointing (height : Nat) : Bool :=
  (p.checkpointEpoch.any fun e => decide (e ≤ rules.epochOf height)) && !p.isPos rules height

end Phase

def Registry.phase (r : Registry) : Phase where
  checkpointEpoch := if r.checkpointScheduled then some r.checkpointEpoch else none
  posEpoch := if r.posScheduled then some r.posEpoch else none

end Boltchain.Contracts
