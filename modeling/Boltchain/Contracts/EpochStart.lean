import Boltchain.Contracts.Committee

namespace Boltchain.Contracts

open Boltchain.Consensus (Bytes)
open Lib

def runFrom {α β : Type} (step : α → Nat → β → Option β) : List α → Nat → β → Option β
  | [], _, b => some b
  | a :: as, n, b => do
    let b ← step a n b
    runFrom step as (n + 1) b

variable {α β : Type}

theorem runFrom_append (step : α → Nat → β → Option β) (as as' : List α) (n : Nat) (b : β) :
    runFrom step (as ++ as') n b = (runFrom step as n b).bind (runFrom step as' (n + as.length)) := by
  induction as generalizing n b with
  | nil => rfl
  | cons a as ih =>
    have hlen : n + (a :: as).length = n + 1 + as.length := by
      rw [List.length_cons]
      omega
    rw [List.cons_append, runFrom, runFrom, hlen]
    cases step a n b with
    | none => rfl
    | some b => exact ih (n + 1) b

variable {n : Nat}

theorem runFrom_concat {step : α → Nat → β → Option β} {as : List α} {a : α} {b c : β} :
    runFrom step (as ++ [a]) n b = some c ↔
      ∃ b', runFrom step as n b = some b' ∧ step a (n + as.length) b' = some c := by
  rw [runFrom_append, Option.bind_eq_some_iff]
  simp [runFrom]

/-- What the first block of an epoch reads: whether the thresholds are met, the validators at the
time of the draw, and the mix hash of the parent block. -/
structure EpochInput where
  checkpointMet : Bool
  posMet : Bool
  staking : Staking
  seed : Nat

section Hooks

variable (keccak256 : Bytes → Nat) (rules : EpochRules)

/-- The hook `sample`: a committee of epoch `next` drawn in epoch `epoch`. -/
def sampleCommittee (σ : Staking) (seed epoch next minAge : Nat) : Option Committee := do
  let snap ← σ.snapshot epoch minAge
  let pairs := snap.insertionSort fun a b => a.1 ≤ b.1
  Committee.sample keccak256 seed next (pairs.map Prod.fst) (pairs.map Prod.snd) rules.committeeSize

def Registry.minAge (r : Registry) (next : Nat) : Nat :=
  if next = r.checkpointEpoch ∨ r.posScheduled = true ∧ next = r.posEpoch then rules.posStreak else 0

/-- The committee of the next epoch: drawn, with younger stake if nobody has old enough one, or the
current one if nobody is eligible. -/
def Registry.nextCommittee (r : Registry) (σ : Staking) (seed epoch : Nat) : Option Committee := do
  let minAge := r.minAge rules (epoch + 1)
  let c ← sampleCommittee keccak256 rules σ seed epoch (epoch + 1) minAge
  let c ← (if c.isEmpty ∧ 0 < minAge then sampleCommittee keccak256 rules σ seed epoch (epoch + 1) 0 else some c)
  some (if c.isEmpty then .fromParts (r.committees epoch) else c)

def epochStart (i : EpochInput) (epoch : Nat) (r : Registry) : Option Registry := do
  let r ← r.beginEpoch epoch i.checkpointMet i.posMet rules.posStreak
  if r.checkpointScheduled = true ∧ r.checkpointEpoch ≤ epoch + 1 then
    let c ← r.nextCommittee keccak256 rules i.staking i.seed epoch
    some (r.setCommittee (epoch + 1) c.stored)
  else
    some r

def startEpochs : List EpochInput → Nat → Registry → Option Registry := runFrom (epochStart keccak256 rules)

/-- What a block's hooks read: the validators at its start and when the committee is drawn, and the
parent's mix hash. -/
structure HookInput where
  staking : Staking
  audited : Staking
  seed : Nat

def HookInput.epochInput (b : HookInput) : EpochInput where
  checkpointMet := decide (rules.checkpointMinStakers ≤ b.staking.stakerStats.1) &&
    decide (rules.checkpointMinStake ≤ b.staking.stakerStats.2)
  posMet := decide (rules.posMinStakers ≤ b.staking.stakerStats.1) &&
    decide (rules.posMinStake ≤ b.staking.stakerStats.2)
  staking := b.audited
  seed := b.seed

def preBlock (b : HookInput) (number : Nat) (r : Registry) : Option Registry :=
  if rules.isEpochStart number then
    epochStart keccak256 rules (b.epochInput rules) (rules.epochOf number) r
  else
    some r

def executeBlocks : List HookInput → Nat → Registry → Option Registry := runFrom (preBlock keccak256 rules)

end Hooks

variable {keccak256 : Bytes → Nat} {rules : EpochRules}

def EpochRules.started (rules : EpochRules) (n : Nat) : Nat := (n + rules.epochSlots - 1) / rules.epochSlots

theorem EpochRules.epochOf_succ (n : Nat) : rules.epochOf (1 + n) = n / rules.epochSlots := by
  simp [epochOf]

theorem EpochRules.isEpochStart_succ (n : Nat) : rules.isEpochStart (1 + n) = true ↔ n % rules.epochSlots = 0 := by
  simp [isEpochStart]

theorem EpochRules.started_of_isEpochStart (h : rules.isEpochStart (1 + n) = true) :
    rules.started n = rules.epochOf (1 + n) := by
  have hs := rules.epochSlots_ge
  obtain ⟨k, rfl⟩ := Nat.dvd_of_mod_eq_zero ((rules.isEpochStart_succ n).1 h)
  rw [epochOf_succ, started, Nat.mul_div_cancel_left k (by omega), Nat.add_sub_assoc (by omega),
    Nat.mul_add_div (by omega), Nat.div_eq_of_lt (by omega), Nat.add_zero]

theorem EpochRules.started_succ (n : Nat) :
    rules.started (n + 1) = if rules.isEpochStart (1 + n) then rules.epochOf (1 + n) + 1 else rules.started n := by
  have hs := rules.epochSlots_ge
  have hsum : n + 1 + rules.epochSlots - 1 = n + rules.epochSlots := by omega
  rw [started, hsum, Nat.add_div_right n (by omega)]
  split
  · rw [epochOf_succ]
  · rename_i h
    have hmod : n % rules.epochSlots ≠ 0 := fun h0 => h ((rules.isEpochStart_succ n).2 h0)
    have hlt : n % rules.epochSlots < rules.epochSlots := Nat.mod_lt n (by omega)
    have hn := Nat.div_add_mod n rules.epochSlots
    -- the last epoch started holds block `n` too
    have hfill : n + rules.epochSlots - 1 =
        rules.epochSlots * (n / rules.epochSlots + 1) + (n % rules.epochSlots - 1) := by
      rw [Nat.mul_add]
      omega
    rw [started, hfill, Nat.mul_add_div (by omega), Nat.div_eq_of_lt (by omega : n % rules.epochSlots - 1 < _),
      Nat.add_zero]

end Boltchain.Contracts
