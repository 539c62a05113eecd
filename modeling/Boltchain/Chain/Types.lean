import Boltchain.Consensus.Panel
import Boltchain.Lib.Journal

namespace Boltchain.Chain

open Consensus (Bytes Hash Bls AuditCert VerdictCert AttestCert)

abbrev Address := Nat

abbrev Cid := Nat

/-- The header fields that are the same in every block the chain executes. -/
structure HeaderRest where
  ommersHash : Hash
  withdrawalsRoot : Option Hash
  blobGasUsed : Option Nat
  excessBlobGas : Option Nat
  requestsHash : Option Hash
  blockAccessListHash : Option Hash
  slotNumber : Option Nat
  deriving DecidableEq, Repr

def HeaderRest.executed : HeaderRest where
  ommersHash := 0x1dcc4de8dec75d7aab85b567b6ccd41ad312451b948a7413f0a142fd40d49347
  withdrawalsRoot := some 0x56e81f171bcc55a6ff8345e692c0f86e5b48e01b996cadc001622fb5e363b421
  blobGasUsed := some 0
  excessBlobGas := some 0
  requestsHash := some 0xe3b0c44298fc1c149afbf4c8996fb92427ae41e4649b934ca495991b7852b855
  blockAccessListHash := none
  slotNumber := none

structure Header where
  parentHash : Hash
  beneficiary : Address
  stateRoot : Hash
  transactionsRoot : Hash
  receiptsRoot : Hash
  logsBloom : Nat
  difficulty : Nat
  number : Nat
  gasLimit : Nat
  gasUsed : Nat
  timestamp : Nat
  extraData : Bytes
  mixHash : Hash
  nonce : Nat
  baseFeePerGas : Option Nat
  parentBeaconBlockRoot : Option Hash
  rest : HeaderRest
  deriving DecidableEq, Repr

/-- The certificates a block's envelope carries: the parent's certificate, or a checkpoint QC in a
mined block, and panel certificates. -/
structure Certs where
  qc : Bytes
  audits : List Bytes
  deriving DecidableEq, Repr

/-- The IPFS root of a block. The header stands for its CID, the transactions for their chunks. -/
structure Envelope (Tx : Type) where
  height : Nat
  header : Header
  parent : Option Cid
  body : List Tx
  qc : Bytes
  audits : List Bytes

structure Phase where
  checkpointEpoch : Option Nat
  posEpoch : Option Nat
  deriving DecidableEq, Repr

structure BlockInput where
  chainId : Nat
  number : Nat
  timestamp : Nat
  beneficiary : Address
  gasLimit : Nat
  baseFee : Nat
  prevrandao : Hash
  deriving DecidableEq, Repr

structure BlockParams where
  input : BlockInput
  parentHash : Hash
  parentBeaconRoot : Hash
  extraData : Bytes
  difficulty : Nat
  nonce : Nat
  deriving DecidableEq, Repr

structure CertVotes where
  epoch : Nat
  round : Nat
  bitmap : Bytes
  deriving DecidableEq, Repr

structure AuditResult where
  epoch : Nat
  task : Nat
  passed : Bool
  deriving DecidableEq, Repr

/-- History data the node computes for a block's system calls. -/
structure HistoryInputs where
  epochIndex : Option Bytes
  audits : List AuditResult
  verdicts : List (Nat × Bool)
  attestations : List (Nat × Bool × Bytes)
  deriving DecidableEq, Repr

/-- How the block being executed is produced (for rewards). -/
inductive Producer where
  | miner
  | minerWithCheckpoints
  | committee
  deriving DecidableEq, Repr

inductive BlockKind where
  | mined (difficulty : Nat) (checkpointing : Bool)
  | pos
  deriving DecidableEq, Repr

structure Receipt where
  txType : Nat
  success : Bool
  cumulativeGasUsed : Nat
  logs : List Nat
  deriving DecidableEq, Repr

structure TxOutcome (Evm : Type) where
  gas : Nat
  success : Bool
  logs : List Nat
  evm : Evm

inductive TxRejection where
  | blob
  | blockGasExhausted (tx remaining : Nat)
  | blockSize
  | invalid
  deriving DecidableEq, Repr

inductive Invalid where
  | wrongNumber
  | timestamp
  | future (timestamp : Nat)
  | gasLimit (gasLimit parent : Nat)
  | certificateHash
  | badSignature
  | posSeal (number : Nat)
  | difficulty (got expected : Nat)
  | extraData
  | seal (number : Nat)
  | checkpointOutsidePhaseB
  | notCheckpointQc
  | checkpointEpoch (epoch number : Nat)
  | noCommittee (epoch : Nat)
  | checkpointQc
  | attestation
  | verdict
  | audit
  | tx (why : TxRejection)
  | headerMismatch
  | envelope (got announced : Cid)
  | notExtending (head : Nat)
  | notMined
  | pastSwitch (number : Nat)
  | checkpointHeight (number height : Nat)
  deriving DecidableEq, Repr

inductive ExecError where
  | query
  | missingEnvelope (number : Nat)
  | begin
  | systemCalls
  | evm
  | stateRootChanged (number : Nat)
  | undo (number : Nat)
  deriving DecidableEq, Repr

inductive DeepReorg where
  | belowFinalized (number finalized : Nat)
  | tooDeep (fork depth : Nat)
  | posBlock (number : Nat)
  deriving DecidableEq, Repr

inductive ChainError where
  | exec (why : ExecError)
  | invalidBlock (why : Invalid)
  | unknownParent (h : Hash)
  | deepReorg (why : DeepReorg)
  deriving DecidableEq, Repr

/-- What the chain is run with: its parameters, hashes, proof of work, the EVM and the views of the
system contracts. The EVM is deterministic and hashes do not collide. -/
structure World where
  Tx : Type
  Key : Type
  Value : Type
  Evm : Type
  bls : Bls
  [keyEq : DecidableEq Key]
  chainId : Nat
  epochSlots : Nat
  swarmOn : Nat → Bool
  teeOn : Nat → Bool
  genesis : Header
  genesisState : Key → Value
  -- hashes
  hash : Header → Hash
  keccak256 : Bytes → Hash
  minedMix : Header → Hash
  mixHash : Header → Bytes → Hash
  stateRoot : (Key → Value) → Hash
  transactionRoot : List Tx → Hash
  receiptRoot : List Receipt → Hash
  bloom : List Receipt → Nat
  cid : Envelope Tx → Cid
  epochIndex : Nat → Nat → List Cid → Bytes
  -- proof of work and fees
  nextDifficulty : Nat → Nat → Nat → Nat
  verifySeal : Hash → Header → Bool
  nextBaseFee : Header → Nat
  -- transactions
  recoverSigner : Tx → Option Address
  txType : Tx → Nat
  gasLimit : Tx → Nat
  encodedLen : Tx → Nat
  -- the EVM inside a block: its start with the calls of EIP-4788 and EIP-2935 and the hard forks of
  -- this block, the system calls, a transaction (`none` inside if it is rejected), the changes made
  begin : (Key → Value) → (Nat → Hash) → BlockInput → Hash → Hash → Option Evm
  preBlock : Evm → BlockInput → Header → CertVotes → Producer → HistoryInputs → Option Evm
  transact : Evm → BlockInput → Tx → Address → Option (Option (TxOutcome Evm))
  changes : Evm → List (Key × Value)
  -- certificates
  certVotes : Bytes → CertVotes
  checkpointQc : Bytes → Option (Nat × Bool)
  verifyCheckpoint : (Key → Value) → Nat → Bytes → Option (Option Bool)
  decodeAudit : Bytes → Option (AuditCert bls)
  decodeVerdict : Bytes → Option (VerdictCert bls)
  decodeAttest : Bytes → Option (AttestCert bls)
  -- views of the system contracts, `none` if the call fails
  phase : (Key → Value) → Option Phase
  requestCount : (Key → Value) → Option Nat
  request : (Key → Value) → Nat → Option (Nat × Nat)
  leasePanel : (Key → Value) → Nat → Option (List Nat)
  disputes : (Key → Value) → Nat → Option Nat
  job : (Key → Value) → Nat → Option Nat
  computePanel : (Key → Value) → Nat → Option (List Nat)
  audits : (Key → Value) → Nat → Option (List Nat × List Nat)
  keysOf : (Key → Value) → List Nat → Option (List bls.PublicKey)
  -- hashes do not collide, and none is zero
  hash_inj : Function.Injective hash
  keccak_inj : Function.Injective keccak256
  keccak_ne_zero : ∀ b, keccak256 b ≠ 0
  stateRoot_inj : Function.Injective stateRoot
  transactionRoot_inj : Function.Injective transactionRoot
  cid_inj : Function.Injective cid
  genesis_number : genesis.number = 0
  genesis_stateRoot : genesis.stateRoot = stateRoot genesisState

instance (W : World) : DecidableEq W.Key := W.keyEq

variable (W : World)

abbrev World.State := W.Key → W.Value

namespace World

/-- Epoch of block `height` (genesis and the first epoch are epoch 0). -/
def epochOf (height : Nat) : Nat := if height = 0 then 0 else (height - 1) / W.epochSlots

def isEpochStart (height : Nat) : Bool := decide (1 ≤ height) && (height - 1) % W.epochSlots == 0

end World

namespace Phase

variable (p : Phase)

def isPos (height : Nat) : Bool := p.posEpoch.any fun e => decide (e ≤ W.epochOf height)

def isCheckpointing (height : Nat) : Bool :=
  (p.checkpointEpoch.any fun e => decide (e ≤ W.epochOf height)) && !p.isPos W height

end Phase

/-- The hash that stands in the header for the certificate a block carries. -/
def World.beacon (qc : Bytes) : Hash := if qc.isEmpty then 0 else W.keccak256 qc

def World.genesisRoot : Cid :=
  W.cid { height := W.genesis.number, header := W.genesis, parent := none, body := [], qc := [], audits := [] }

/-- A block that was executed and verified but is not final yet. -/
structure PendingBlock where
  header : Header
  transactions : List W.Tx
  changes : List (W.Key × W.Value)
  certs : Certs
  parent : Option Cid
  transactionsRoot_eq : header.transactionsRoot = W.transactionRoot transactions
  beacon_eq : header.parentBeaconBlockRoot = some (W.beacon certs.qc)

/-- A block of the canonical chain, with its envelope and total difficulty. -/
structure StoredBlock where
  header : Header
  transactions : List W.Tx
  certs : Certs
  root : Cid
  td : Nat

structure SideBlock where
  header : Header
  transactions : List W.Tx
  root : Option Cid
  td : Nat
  cert : Certs

/-- The node's chain: the canonical blocks, newest first, the flat state after them, the values each
recent block replaced, and what is kept in memory. -/
structure Node where
  tip : StoredBlock W
  below : List (StoredBlock W)
  state : W.State
  history : Nat → List (W.Key × W.Value)
  finalized : Option (Nat × Hash)
  side : List (SideBlock W)
  pending : List (PendingBlock W)
  gasTarget : Nat
  auditQueue : List Bytes

variable {W}

namespace PendingBlock

variable (p : PendingBlock W)

def envelope : Envelope W.Tx where
  height := p.header.number
  header := p.header
  parent := p.parent
  body := p.transactions
  qc := p.certs.qc
  audits := p.certs.audits

def root : Cid := W.cid p.envelope

end PendingBlock

namespace Node

variable (n : Node W)

def canonical : List (StoredBlock W) := n.tip :: n.below

def head : Header := n.tip.header

def block (h : Hash) : Option (StoredBlock W) := n.canonical.find? fun b => W.hash b.header == h

def blockAt (number : Nat) : Option (StoredBlock W) :=
  n.canonical.find? fun b => b.header.number == number

def pendingBlock (h : Hash) : Option (PendingBlock W) := n.pending.find? fun p => W.hash p.header == h

def sideBlock (h : Hash) : Option (SideBlock W) := n.side.find? fun b => W.hash b.header == h

def headerOf (h : Hash) : Option Header :=
  ((n.pendingBlock h).map (·.header)).or ((n.block h).map (·.header))

/-- Header of a hash: committed, pending or a mined side-chain block. -/
def headerAny (h : Hash) : Option Header := (n.headerOf h).or ((n.sideBlock h).map (·.header))

end Node

end Boltchain.Chain
