import Boltchain.Consensus.Types
import Boltchain.Lib.Checked
import Boltchain.Lib.Packed

namespace Boltchain.Contracts.Rewards

open Boltchain.Consensus (Bytes)
open Lib Lib.Packed

structure Distributor where
  supply : Nat
  /-- Votes per committee member per epoch, as 16 packed 16-bit counters per word. -/
  votes : Nat → Nat → Nat
  /-- Claimable rewards per validator id. -/
  rewards : Nat → Nat
  lastRecordedRound : Nat → Nat
  /-- Epochs below this one are settled. -/
  settledUpTo : Nat

def Distributor.genesis (genesisSupply : Nat) : Distributor :=
  ⟨genesisSupply, fun _ _ => 0, fun _ => 0, fun _ => 0, 0⟩

def bitsOf (bitmap : Bytes) (w : Nat) : Nat :=
  (bitmap[2 * w]?.getD 0).toNat ||| ((bitmap[2 * w + 1]?.getD 0).toNat <<< 8)

/-- The inner loop of `onBlock`: adds one to the counters in a word whose bits are set. -/
def addBits (bits word : Nat) : Option Nat :=
  if bits = 0 then some word
  else (List.range 16).foldlM (fun word k =>
    if bits.testBit k then Checked.add 256 word (1 <<< (16 * k)) else some word) word

def recordVotes (v : Nat → Nat) (bitmap : Bytes) : Option (Nat → Nat) :=
  (List.range ((bitmap.length + 1) / 2)).foldlM (fun v w =>
    (addBits (bitsOf bitmap w) (v w)).map (Function.update v w)) v

def pay (rewards : Nat → Nat) (p : Nat × Nat) : Option (Nat → Nat) :=
  if p.2 ≠ 0 then (Checked.add 256 (rewards p.1) p.2).map (Function.update rewards p.1) else some rewards

namespace Distributor

variable (s : Distributor)

def counts (certEpoch certRound : Nat) (bitmap : Bytes) : Bool :=
  !(bitmap.length = 0 || certEpoch < s.settledUpTo || certRound ≤ s.lastRecordedRound certEpoch)

def issued (burned minted : Nat) : Option Nat :=
  if s.supply < burned then some minted else Checked.add 256 (s.supply - burned) minted

def onBlock (burned minted certEpoch certRound : Nat) (bitmap : Bytes) : Option Distributor := do
  let supply ← s.issued burned minted
  Checked.require (bitmap.length ≤ 64)
  if s.counts certEpoch certRound bitmap then
    let v ← recordVotes (s.votes certEpoch) bitmap
    some { s with
      supply
      lastRecordedRound := Function.update s.lastRecordedRound certEpoch certRound
      votes := Function.update s.votes certEpoch v }
  else some { s with supply }

/-- Votes recorded for member `index` of epoch `epoch`'s committee. -/
def votesOf (epoch index : Nat) : Nat := field 16 (s.votes epoch (index / 16)) (index % 16)

def weighted (members : List (Nat × Nat)) (epoch : Nat) : List Nat :=
  members.zipIdx.map fun p => if p.2 < 512 then s.votesOf epoch p.2 * p.1.2 else 0

/-- `_shares` of a committee, given as pairs of validator and seats: what each member gets, and the sum. -/
def shares (members : List (Nat × Nat)) (epoch emission : Nat) : Option (List Nat × Nat) :=
  let total := (s.weighted members epoch).sum
  if total = 0 then some (s.weighted members epoch, 0)
  else do
    let shares ← (s.weighted members epoch).mapM fun r =>
      if r = 0 then some 0 else (Checked.mul 256 emission r).map (· / total)
    some (shares, shares.sum)

def settle (members : List (Nat × Nat)) (epoch emission : Nat) : Option (Nat × Distributor) := do
  let (shares, paid) ← s.shares members epoch emission
  let rewards ← ((members.map Prod.fst).zip shares).foldlM pay s.rewards
  let next ← Checked.add 64 epoch 1
  let supply ← Checked.add 256 s.supply paid
  some (paid, { s with
    supply, rewards
    votes := Function.update s.votes epoch fun _ => 0
    lastRecordedRound := Function.update s.lastRecordedRound epoch 0
    settledUpTo := max s.settledUpTo next })

def preview (members : List (Nat × Nat)) (epoch emission : Nat) : Option Nat :=
  (s.shares members epoch emission).map Prod.snd

def settleStorage (passed : List Nat) (emission : Nat) : Option (Nat × Distributor) :=
  if passed.length = 0 then some (0, s)
  else do
    let share := emission / passed.length
    let rewards ← passed.foldlM (fun rewards id => (Checked.add 256 (rewards id) share).map (Function.update rewards id))
      s.rewards
    let paid := share * passed.length
    let supply ← Checked.add 256 s.supply paid
    some (paid, { s with supply, rewards })

def previewStorage (passed : List Nat) (emission : Nat) : Nat :=
  if passed.length = 0 then 0 else emission / passed.length * passed.length

def claim (id : Nat) : Distributor := { s with rewards := Function.update s.rewards id 0 }

def burnSupply (amount : Nat) : Distributor := { s with supply := s.supply - amount }

end Distributor

section Counters

variable {v v' : Nat → Nat} {bitmap : Bytes} {bits word word' : Nat}

def lists (bitmap : Bytes) (i : Nat) : Bool := (bitmap[i / 8]?.getD 0).toNat.testBit (i % 8)

def spread (bits : Nat) : Nat := pack 16 16 fun k => (bits.testBit k).toNat

theorem testBit_bitsOf (bitmap : Bytes) (w : Nat) {k : Nat} (hk : k < 16) :
    (bitsOf bitmap w).testBit k = lists bitmap (16 * w + k) := by
  rw [bitsOf, Nat.testBit_or, Nat.testBit_shiftLeft, lists]
  have hbyte : ∀ x : UInt8, ∀ j, 8 ≤ j → x.toNat.testBit j = false := fun x j hj =>
    Nat.testBit_lt_two_pow (x.toNat_lt.trans_le (Nat.pow_le_pow_right (by decide) hj))
  by_cases h : k < 8
  · have hdiv : (16 * w + k) / 8 = 2 * w := by omega
    have hmod : (16 * w + k) % 8 = k := by omega
    rw [hdiv, hmod, decide_eq_false (by omega), Bool.false_and, Bool.or_false]
  · have hdiv : (16 * w + k) / 8 = 2 * w + 1 := by omega
    have hmod : (16 * w + k) % 8 = k - 8 := by omega
    rw [hdiv, hmod, hbyte _ k (by omega), Bool.false_or, decide_eq_true (by omega), Bool.true_and]

theorem bitsOf_eq_zero {w : Nat} (hw : (bitmap.length + 1) / 2 ≤ w) : bitsOf bitmap w = 0 := by
  have h₀ : bitmap[2 * w]? = none := List.getElem?_eq_none (by omega)
  have h₁ : bitmap[2 * w + 1]? = none := List.getElem?_eq_none (by omega)
  rw [bitsOf, h₀, h₁]
  rfl

theorem spread_bitsOf (bitmap : Bytes) (w : Nat) :
    spread (bitsOf bitmap w) = pack 16 16 fun k => (lists bitmap (16 * w + k)).toNat :=
  pack_congr fun k hk => by rw [testBit_bitsOf bitmap w hk]

def Room (word bits : Nat) : Prop := spread bits = 0 ∨ word + spread bits < 2 ^ 256

theorem addBits_eq_some : addBits bits word = some word' ↔ Room word bits ∧ word' = word + spread bits := by
  have hsum : ((List.range 16).map fun k => (bits.testBit k).toNat * 1 <<< (16 * k)).sum = spread bits := by
    simp only [Nat.one_shiftLeft]
    rfl
  unfold addBits
  split
  · rename_i hbits
    have hzero : spread bits = 0 := by
      rw [spread, pack_eq_zero]
      intro k _
      simp [hbits]
    rw [Room, hzero, Nat.add_zero, Option.some_inj]
    exact ⟨fun h => ⟨.inl rfl, h.symm⟩, fun h => h.2.symm⟩
  · have hpos : ∀ k, 0 < 1 <<< (16 * k) := by
      intro k
      rw [Nat.one_shiftLeft]
      positivity
    rw [Checked.foldlM_add_eq_some hpos, hsum]
    rfl

theorem foldlM_addBits {ws : List Nat} (hnodup : ws.Nodup) :
    ws.foldlM (fun v w => (addBits (bitsOf bitmap w) (v w)).map (Function.update v w)) v = some v' ↔
      (∀ w ∈ ws, Room (v w) (bitsOf bitmap w)) ∧
        v' = fun w => if w ∈ ws then v w + spread (bitsOf bitmap w) else v w := by
  induction ws generalizing v with
  | nil =>
    rw [List.foldlM_nil]
    refine ⟨fun h => ⟨nofun, ?_⟩, fun h => ?_⟩
    · cases h
      funext w
      rw [if_neg List.not_mem_nil]
    · rw [h.2]
      simp
  | cons w ws ih =>
    obtain ⟨hw, hnodup⟩ := List.nodup_cons.1 hnodup
    rw [List.foldlM_cons, Option.bind_eq_bind, Option.bind_eq_some_iff, List.forall_mem_cons]
    have hother : ∀ x ∈ ws, ∀ y, Function.update v w y x = v x := fun x hx y =>
      Function.update_of_ne (fun heq : x = w => hw (heq ▸ hx)) ..
    have hfun : ∀ y, y = v w + spread (bitsOf bitmap w) →
        (fun x => if x ∈ ws then Function.update v w y x + spread (bitsOf bitmap x) else Function.update v w y x) =
        fun x => if x ∈ w :: ws then v x + spread (bitsOf bitmap x) else v x := by
      intro y hy
      funext x
      by_cases hx : x = w
      · rw [hx, if_neg hw, if_pos List.mem_cons_self, Function.update_self, hy]
      · simp only [Function.update_of_ne hx, List.mem_cons, hx, false_or]
    constructor
    · rintro ⟨v₁, h₁, h⟩
      obtain ⟨word, hword, rfl⟩ := Option.map_eq_some_iff.1 h₁
      obtain ⟨hfits, heq⟩ := addBits_eq_some.1 hword
      obtain ⟨hrest, rfl⟩ := (ih hnodup).1 h
      refine ⟨⟨hfits, fun x hx => ?_⟩, hfun word heq⟩
      rw [← hother x hx word]
      exact hrest x hx
    · rintro ⟨⟨hfits, hrest⟩, rfl⟩
      refine ⟨_, Option.map_eq_some_iff.2 ⟨_, addBits_eq_some.2 ⟨hfits, rfl⟩, rfl⟩, ?_⟩
      refine (ih hnodup).2 ⟨fun x hx => ?_, (hfun _ rfl).symm⟩
      rw [hother x hx]
      exact hrest x hx

theorem recordVotes_eq_some : recordVotes v bitmap = some v' ↔
    (∀ w, Room (v w) (bitsOf bitmap w)) ∧ v' = fun w => v w + spread (bitsOf bitmap w) := by
  have hzero : spread 0 = 0 := by decide
  have hbeyond : ∀ w, w ∉ List.range ((bitmap.length + 1) / 2) → spread (bitsOf bitmap w) = 0 := by
    intro w hw
    rw [bitsOf_eq_zero (by simpa using hw), hzero]
  have hfun : (fun w => if w ∈ List.range ((bitmap.length + 1) / 2) then v w + spread (bitsOf bitmap w) else v w) =
      fun w => v w + spread (bitsOf bitmap w) := by
    funext w
    split
    · rfl
    · rename_i hw
      rw [hbeyond w hw, Nat.add_zero]
  rw [recordVotes, foldlM_addBits List.nodup_range, hfun]
  refine and_congr_left fun _ => ⟨fun h w => ?_, fun h w _ => h w⟩
  by_cases hw : w ∈ List.range ((bitmap.length + 1) / 2)
  · exact h w hw
  · exact .inl (hbeyond w hw)

end Counters

end Boltchain.Contracts.Rewards
