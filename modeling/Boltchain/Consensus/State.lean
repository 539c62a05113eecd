import Boltchain.Consensus.Types
import Boltchain.Lib.Assoc

namespace Boltchain.Consensus

open Lib.Assoc

variable {S : Scheme}

structure Config where
  chainId : Nat
  epoch : Nat
  validators : ValidatorSet
  me : List Nat
  anchor : BlockInfo
  endHeight : Nat
  baseTimeoutMs : Nat
  deriving DecidableEq, Repr

/-- State a validator persists so a restart can neither vote twice in a round nor forget what
it locked on. -/
structure Persisted (S : Scheme) where
  epoch : Nat
  committed : BlockInfo
  committedQc : Qc S
  highQc : Qc S
  lastVoted : Nat
  blocks : List BlockInfo

inductive Action (S : Scheme) where
  | broadcast (m : Message S)
  | sendTo (i : Nat) (m : Message S)
  | validate (p : Proposal S)
  | propose (round : Nat) (qc : Qc S) (tc : Option (Tc S))
  | commit (blocks : List BlockInfo) (proof : CommitProof S)
  | fetchBlock (h : Hash)
  | epochEnd (block : BlockInfo) (proof : CommitProof S)
  | scheduleTimeout (round afterMs : Nat)

structure VoteSet (S : Scheme) where
  height : Nat
  sigs : List (Nat × S.Sig)
  pending : List (Nat × S.Sig)
  done : Bool

structure TimeoutSet (S : Scheme) where
  entries : List (Nat × Nat × S.Sig)
  highQc : Qc S
  done : Bool

/-- The consensus engine. Maps and sets are association lists and lists. -/
structure Engine (S : Scheme) where
  cfg : Config
  round : Nat
  lastVoted : Nat
  highQc : Qc S
  entryTc : Option (Tc S)
  blocks : List (Hash × BlockInfo)
  qcs : List (Hash × Qc S)
  committed : BlockInfo
  votes : List ((Nat × Hash) × VoteSet S)
  timeouts : List (Nat × TimeoutSet S)
  pending : List (Hash × Proposal S)
  timedOut : List Nat
  proposed : List Nat
  consecutiveTimeouts : Nat
  blockedCommit : Option (Qc S)
  requested : List Hash
  finished : Bool

/-- Where an engine stands when it signs: its round, the last round it had voted or timed out in
before, the round of its high certificate, and that of the certificate it votes on top of. -/
structure Stamp where
  round : Nat
  lastVoted : Nat
  highQc : Nat
  qc : Nat
  deriving DecidableEq, Repr

/-- What a call does besides changing the engine: the actions it returns and, between them, the
calls it makes of `Scheme::sign`. -/
inductive Effect (S : Scheme) where
  | act (a : Action S)
  | sign (i : Nat) (m : SignMsg) (t : Stamp)

namespace Engine

def anchorQc (cfg : Config) : Qc S := Qc.anchor cfg.epoch cfg.anchor.hash cfg.anchor.height

def new (cfg : Config) : Engine S where
  cfg := cfg
  round := 0
  lastVoted := 0
  highQc := anchorQc cfg
  entryTc := none
  blocks := [(cfg.anchor.hash, cfg.anchor)]
  qcs := [(cfg.anchor.hash, anchorQc cfg)]
  committed := cfg.anchor
  votes := []
  timeouts := []
  pending := []
  timedOut := []
  proposed := []
  consecutiveTimeouts := 0
  blockedCommit := none
  requested := []
  finished := false

/-- The committed block of the persisted state, if it is above the anchor. -/
def resumeCommitted (e : Engine S) (p : Persisted S) : Engine S :=
  if e.cfg.anchor.height < p.committed.height then
    { e with
      blocks := [(p.committed.hash, p.committed)]
      qcs := [(p.committed.hash, p.committedQc)]
      committed := p.committed }
  else e

def resumeBlocks (e : Engine S) (bs : List BlockInfo) : Engine S :=
  bs.foldl (fun e b =>
    if e.committed.height < b.height then { e with blocks := put e.blocks b.hash b } else e) e

def resume (cfg : Config) (p : Persisted S) : Engine S :=
  let e : Engine S := new cfg
  if p.epoch ≠ cfg.epoch then e
  else
    let e := (e.resumeCommitted p).resumeBlocks p.blocks
    { e with
      qcs := put e.qcs p.highQc.block p.highQc
      highQc := p.highQc
      lastVoted := p.lastVoted
      round := max p.highQc.round p.lastVoted }

/-- A fresh engine that never votes or times out in a round up to `lastVoted`. -/
def reanchored (cfg : Config) (lastVoted : Nat) : Engine S :=
  { (new cfg : Engine S) with lastVoted := lastVoted, round := lastVoted }

def persisted (e : Engine S) : Persisted S where
  epoch := e.cfg.epoch
  committed := e.committed
  committedQc := (e.qcs.lookup e.committed.hash).getD (anchorQc e.cfg)
  highQc := e.highQc
  lastVoted := e.lastVoted
  blocks := ((e.blocks.map (·.2)).filter (e.committed.height < ·.height)).insertionSort
    fun a b => a.height < b.height ∨ a.height = b.height ∧ a.round ≤ b.round

def stamp (e : Engine S) : Stamp := ⟨e.round, e.lastVoted, e.highQc.round, e.highQc.round⟩

def leader (e : Engine S) (round : Nat) : Nat := e.cfg.validators.leader round

def isMe (e : Engine S) (v : Nat) : Bool := e.cfg.me.contains v

def isNilHeight (e : Engine S) (height : Nat) : Bool := e.cfg.endHeight < height

def timeoutMs (e : Engine S) : Nat := e.cfg.baseTimeoutMs <<< min e.consecutiveTimeouts 3

def verifyQc (e : Engine S) (qc : Qc S) : Bool :=
  qc.verify e.cfg.validators e.cfg.chainId e.cfg.epoch e.cfg.anchor.hash

def verifyTc (e : Engine S) (tc : Tc S) : Bool :=
  tc.verify e.cfg.validators e.cfg.chainId e.cfg.epoch e.cfg.anchor.hash

def voteMsg (e : Engine S) (round : Nat) (block : Hash) : SignMsg :=
  .vote e.cfg.chainId e.cfg.epoch round block

def timeoutMsg (e : Engine S) (round highQcRound : Nat) : SignMsg :=
  .timeout e.cfg.chainId e.cfg.epoch round highQcRound

def proposalMsg (H : Hasher) (e : Engine S) (round : Nat) (block : Hash) (payload : Bytes) : SignMsg :=
  .proposal e.cfg.chainId e.cfg.epoch round block (H.keccak256 payload)

end Engine

end Boltchain.Consensus
