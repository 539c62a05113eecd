import Mathlib

namespace Boltchain.Consensus

abbrev Bytes := List UInt8

abbrev Hash := Nat

/-- The messages a committee member signs. The tags and fixed-width fields of
the byte layout keep the three kinds apart, so they are constructors here. -/
inductive SignMsg where
  | vote (chainId epoch : Nat) (round : Nat) (block : Hash)
  | timeout (chainId epoch : Nat) (round highQcRound : Nat)
  | proposal (chainId epoch : Nat) (round : Nat) (block payloadHash : Hash)
  deriving DecidableEq, Repr

structure Scheme where
  Sig : Type
  Agg : Type
  [decSig : DecidableEq Sig]
  sign : Nat → SignMsg → Sig
  verify : Nat → SignMsg → Sig → Bool
  aggregate : List Sig → Option Agg
  verifyAggregate : List Nat → SignMsg → Agg → Bool

instance (S : Scheme) : DecidableEq S.Sig := S.decSig

/-- The fields of a decoded block header that a finality proof looks at. -/
structure Header where
  parentHash : Hash
  number : Nat
  deriving DecidableEq, Repr

/-- The functions on bytes the engine calls: `keccak256`, RLP decoding of a header, and the
hash of a nil block from its epoch, parent and round. -/
structure Hasher where
  keccak256 : Bytes → Hash
  decodeHeader : Bytes → Option Header
  nilHash : Nat → Hash → Nat → Hash

structure ValidatorSet where
  weights : List UInt64
  seats : List Nat
  deriving DecidableEq, Repr

namespace ValidatorSet

/-- Weight of each validator = its number of seats; leaders rotate over the seats. -/
def fromSeats (n : Nat) (seats : List Nat) : ValidatorSet :=
  ⟨(List.range n).map (fun i => UInt64.ofNat (seats.count i)), seats⟩

def len (set : ValidatorSet) : Nat := set.weights.length

def total (set : ValidatorSet) : UInt64 := set.weights.sum

def weight (set : ValidatorSet) (i : Nat) : UInt64 := set.weights[i]?.getD 0

def weightOf (set : ValidatorSet) (signers : List Nat) : UInt64 :=
  (signers.map set.weight).sum

def isQuorum (set : ValidatorSet) (weight : UInt64) : Bool := weight * 3 > set.total * 2

def isOneThird (set : ValidatorSet) (weight : UInt64) : Bool := weight * 3 > set.total

def leader (set : ValidatorSet) (round : Nat) : Nat :=
  if set.seats.isEmpty then (round % set.len) % 2 ^ 16
  else set.seats[round % set.seats.length]?.getD 0

end ValidatorSet

namespace Bitmap

def setBit (n : Nat) (b : Bytes) (i : Nat) : Bytes :=
  if i < n then b.modify (i / 8) (· ||| (1 <<< UInt8.ofNat (i % 8))) else b

def encode (signers : List Nat) (n : Nat) : Bytes :=
  signers.foldl (setBit n) (List.replicate ((n + 7) / 8) 0)

def positions (b : Bytes) : List Nat :=
  b.zipIdx.flatMap fun p => ((List.range 8).filter p.1.toNat.testBit).map (p.2 * 8 + ·)

/-- Signers in ascending order of position; the index is cut to 16 bits. -/
def decode (b : Bytes) : List Nat := (positions b).map (· % 2 ^ 16)

end Bitmap

variable {S : Scheme}

/-- Quorum certificate. `height` is not covered by the signatures. -/
structure Qc (S : Scheme) where
  epoch : Nat
  round : Nat
  block : Hash
  height : Nat
  signers : Bytes
  sig : Option S.Agg

namespace Qc

def anchor (epoch : Nat) (block : Hash) (height : Nat) : Qc S :=
  ⟨epoch, 0, block, height, [], none⟩

def isAnchor (qc : Qc S) : Bool := qc.round == 0 && qc.sig.isNone

def isGenesis (qc : Qc S) : Bool := qc.isAnchor && qc.epoch == 0 && qc.height == 0

/-- Checks signatures and weight for `epoch`. An anchor certificate is valid only for `anchor`. -/
def verify (qc : Qc S) (set : ValidatorSet) (chainId epoch : Nat) (anchor : Hash) : Bool :=
  if qc.epoch ≠ epoch then false
  else if qc.isAnchor then qc.block == anchor
  else
    let signers := Bitmap.decode qc.signers
    match qc.sig with
    | none => false
    | some sig =>
      decide (0 < qc.round)
        && set.isQuorum (set.weightOf signers)
        && signers.all (· < set.len)
        && S.verifyAggregate signers (.vote chainId qc.epoch qc.round qc.block) sig

end Qc

/-- Timeout certificate: entries are (signer, round of its high QC, signature). -/
structure Tc (S : Scheme) where
  epoch : Nat
  round : Nat
  highQc : Qc S
  entries : List (Nat × Nat × S.Sig)

namespace Tc

def maxQcRound (tc : Tc S) : Nat := (tc.entries.map (·.2.1)).foldr max 0

/-- Checks every entry, the total weight, and that `highQc` is the maximum reported. -/
def verify (tc : Tc S) (set : ValidatorSet) (chainId epoch : Nat) (anchor : Hash) : Bool :=
  let signers := (tc.entries.map (·.1)).dedup
  tc.epoch == epoch
    && signers.length == tc.entries.length
    && set.isQuorum (set.weightOf signers)
    && signers.all (· < set.len)
    && tc.entries.all (fun e => decide (e.2.1 < tc.round)
        && S.verify e.1 (.timeout chainId epoch tc.round e.2.1) e.2.2)
    && tc.highQc.round == tc.maxQcRound
    && tc.highQc.verify set chainId epoch anchor

end Tc

structure BlockInfo where
  hash : Hash
  parent : Hash
  round : Nat
  height : Nat
  deriving DecidableEq, Repr

structure Proposal (S : Scheme) where
  epoch : Nat
  block : BlockInfo
  qc : Qc S
  tc : Option (Tc S)
  proposer : Nat
  payload : Bytes
  sig : S.Sig

structure Vote (S : Scheme) where
  epoch : Nat
  round : Nat
  block : Hash
  height : Nat
  signer : Nat
  sig : S.Sig

structure Timeout (S : Scheme) where
  epoch : Nat
  round : Nat
  highQc : Qc S
  signer : Nat
  sig : S.Sig
  lastTc : Option (Tc S)

inductive Message (S : Scheme) where
  | proposal (p : Proposal S)
  | vote (v : Vote S)
  | timeout (t : Timeout S)

def Message.epoch : Message S → Nat
  | .proposal p => p.epoch
  | .vote v => v.epoch
  | .timeout t => t.epoch

/-- Proof that a block is final: `qc` certifies Q in round r and `childQc` Q's child C in round
r + 1. Without `nilRounds`, Q is the proven block and `childHeader` the header of C; otherwise
Q and C end the chain of nil blocks of these rounds above the proven block. -/
structure CommitProof (S : Scheme) where
  qc : Qc S
  childQc : Qc S
  childHeader : Bytes
  nilRounds : List Nat
  committed : Hash
  committedHeight : Nat

/-- The last two blocks of the nil chain of the given rounds above `cur`. -/
def nilChain (H : Hasher) (epoch : Nat) : List Nat → Hash × Hash → Hash × Hash
  | [], c => c
  | r :: rs, (_, cur) => nilChain H epoch rs (cur, H.nilHash epoch cur r)

def CommitProof.verify (H : Hasher) (pf : CommitProof S) (set : ValidatorSet) (chainId : Nat)
    (anchor : Hash) : Option Hash :=
  let epoch := pf.qc.epoch
  let certsOk := pf.childQc.round == pf.qc.round + 1
    && pf.childQc.height == pf.qc.height + 1
    && pf.childQc.epoch == epoch
    && !pf.qc.isAnchor
    && pf.qc.verify set chainId epoch anchor
    && pf.childQc.verify set chainId epoch anchor
  if !certsOk then none
  else
    match pf.nilRounds with
    | [] =>
      match H.decodeHeader pf.childHeader with
      | none => none
      | some child =>
        if H.keccak256 pf.childHeader == pf.childQc.block && child.parentHash == pf.qc.block
            && child.number == pf.qc.height + 1 && pf.committed == pf.qc.block
            && pf.committedHeight == pf.qc.height then some pf.committed
        else none
    | r :: rs =>
      let (prev, cur) := nilChain H epoch (r :: rs) (pf.committed, pf.committed)
      if cur == pf.childQc.block && prev == pf.qc.block
          && pf.childQc.round == (r :: rs).getLastD 0
          && pf.childQc.height == pf.committedHeight + (r :: rs).length then some pf.committed
      else none

end Boltchain.Consensus
