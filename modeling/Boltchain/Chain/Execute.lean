import Boltchain.Chain.Types
import Boltchain.Lib.Action
import Boltchain.Lib.Sift

namespace Boltchain.Chain

open Consensus (Bytes Hash AuditCert VerdictCert AttestCert)
open Lib.Action Lib.Journal Lib.Sift

variable {W : World}

/-- What a block is executed on: the committed chain with the pending blocks up to its parent. -/
structure View (W : World) where
  parent : Header
  grandparent : Option Header
  parentRoot : Option Cid
  db : W.State
  seed : Nat → Option Hash
  blockHash : Nat → Hash
  envelope : Nat → Option Cid

namespace Node

variable (n : Node W)

/-- Pending blocks from the committed head up to the block of hash `cur`, oldest first, in front of
`chain`. Every pending block is above its parent, so the number of the first one bounds the walk. -/
def pendingChainFrom : Nat → Hash → List (PendingBlock W) → Except ChainError (List (PendingBlock W))
  | fuel, cur, chain =>
    if cur = W.hash n.head then .ok chain
    else
      match fuel, n.pendingBlock cur with
      | fuel + 1, some p =>
        if p.header.number ≤ n.head.number then .error (.unknownParent cur)
        else pendingChainFrom fuel p.header.parentHash (p :: chain)
      | _, _ => .error (.unknownParent cur)

def pendingChain (parent : Hash) : Except ChainError (List (PendingBlock W)) :=
  n.pendingChainFrom ((n.headerOf parent).elim 0 (·.number)) parent []

/-- The header before `parent`, which the difficulty of a mined block depends on from block 3 on. -/
def grandparent (parent : Header) : Option Header :=
  if parent.number ≤ 1 then none else n.headerAny parent.parentHash

/-- The chain as a block on `parent` sees it, over the pending blocks `ancestors`. -/
def viewOver (ancestors : List (PendingBlock W)) : View W :=
  let parent := (ancestors.getLast?.map (·.header)).getD n.head
  let ancestorAt (h : Nat) := ancestors.find? fun a => a.header.number == h
  { parent
    grandparent := n.grandparent parent
    parentRoot := some ((ancestors.getLast?.map (·.root)).getD n.tip.root)
    db := ancestors.foldl (fun s a => write s a.changes) n.state
    seed := fun h =>
      if h = parent.number then some (W.hash parent)
      else if h ≤ n.head.number then (n.blockAt h).map fun b => W.hash b.header
      else (ancestorAt h).map fun a => W.hash a.header
    blockHash := fun h =>
      (((ancestorAt h).map fun a => W.hash a.header).or
        ((n.blockAt h).map fun b => W.hash b.header)).getD 0
    envelope := fun h => ((ancestorAt h).map (·.root)).or ((n.blockAt h).map (·.root)) }

def view (parent : Hash) : Except ChainError (View W) := (n.pendingChain parent).map n.viewOver

end Node

/-- Blocks between key changes of the proof of work, and the delay before a new key takes effect. -/
def seedEpoch : Nat := 2048

def seedLag : Nat := 64

/-- Height of the block whose hash keys the proof of work of block `height`. -/
def seedHeight (height : Nat) : Nat :=
  if height ≤ seedEpoch + seedLag then 0 else (height - seedLag - 1) / seedEpoch * seedEpoch

def difficultyAfter (W : World) (parent : Header) (grandparent : Option Header) :
    Except ChainError Nat := do
  let solveTime ←
    if parent.number ≤ 1 then .ok 0
    else (orThrow grandparent (.unknownParent parent.parentHash)).map (parent.timestamp - ·.timestamp)
  return W.nextDifficulty parent.number parent.difficulty solveTime

def gasLimitRange : Nat × Nat := (15_000_000, 60_000_000)

/-- Whether a block may use `gasLimit` after a parent with `parentGasLimit`. -/
def validGasLimit (parentGasLimit gasLimit : Nat) : Bool :=
  decide (gasLimitRange.1 ≤ gasLimit) && decide (gasLimit ≤ gasLimitRange.2) &&
    decide (gasLimit - parentGasLimit + (parentGasLimit - gasLimit) < max (parentGasLimit / 1024) 1)

def clampGas (gas : Nat) : Nat := min (max gas gasLimitRange.1) gasLimitRange.2

def stepGas (parentGasLimit target : Nat) : Nat :=
  let step := parentGasLimit / 1024 - 1
  if parentGasLimit < target then parentGasLimit + min step (target - parentGasLimit)
  else parentGasLimit - min step (parentGasLimit - target)

/-- Gas limit of a block after a parent with `parentGasLimit`, moving towards `target` (0: keep). -/
def nextGasLimit (parentGasLimit target : Nat) : Nat :=
  clampGas (stepGas parentGasLimit (clampGas (if target = 0 then parentGasLimit else target)))

/-- The transactions executed so far on top of a parent state. -/
structure Executor (W : World) where
  evm : W.Evm
  transactions : List W.Tx
  receipts : List Receipt
  gasUsed : Nat
  size : Nat

def maxRlpBlockSize : Nat := 10 * 1024 * 1024 - 2 * 1024 * 1024

def headerSizeAllowance : Nat := 1024

namespace Executor

def new (evm : W.Evm) : Executor W where
  evm := evm
  transactions := []
  receipts := []
  gasUsed := 0
  size := headerSizeAllowance

variable (params : BlockParams) (x : Executor W)

def gasRemaining : Nat := params.input.gasLimit - x.gasUsed

def add (tx : W.Tx) (sender : Address) : Except ChainError (Verdict (Executor W) TxRejection) :=
  -- type 3 is a blob transaction
  if W.txType tx = 3 then .ok (.refuse .blob)
  else if x.gasRemaining params < W.gasLimit tx then
    .ok (.refuse (.blockGasExhausted (W.gasLimit tx) (x.gasRemaining params)))
  else
    let txSize := W.encodedLen tx + 8
    if maxRlpBlockSize < x.size + txSize then .ok (.refuse .blockSize)
    else
      match W.transact x.evm params.input tx sender with
      | none => .error (.exec .evm)
      | some none => .ok (.refuse .invalid)
      | some (some r) =>
        let gasUsed := x.gasUsed + r.gas
        .ok (.keep {
          evm := r.evm
          transactions := x.transactions ++ [tx]
          receipts := x.receipts ++ [{
            txType := W.txType tx
            success := r.success
            cumulativeGasUsed := gasUsed
            logs := if r.success then r.logs else [] }]
          gasUsed
          size := x.size + txSize })

def header (stateRoot : Hash) : Header where
  parentHash := params.parentHash
  beneficiary := params.input.beneficiary
  stateRoot := stateRoot
  transactionsRoot := W.transactionRoot x.transactions
  receiptsRoot := W.receiptRoot x.receipts
  logsBloom := W.bloom x.receipts
  difficulty := params.difficulty
  number := params.input.number
  gasLimit := params.input.gasLimit
  gasUsed := x.gasUsed
  timestamp := params.input.timestamp
  extraData := params.extraData
  mixHash := params.input.prevrandao
  nonce := params.nonce
  baseFeePerGas := some params.input.baseFee
  parentBeaconBlockRoot := some params.parentBeaconRoot
  rest := .executed

/-- The transactions of a block in turn. A producer stops when the gas left cannot pay for another. -/
def addAll (txs : List (W.Tx × Address)) (strict : Bool) :
    Except ChainError (Sifted (Executor W) (W.Tx × Address) TxRejection) :=
  sift (fun x => decide (x.gasRemaining params < 21_000)) (fun x c => x.add params c.1 c.2) strict
    (fun r => ChainError.invalidBlock (.tx r)) txs x

end Executor

structure Panels where
  verdicts : List (Nat × Bool)
  attests : List (Nat × Bool × Bytes)
  deriving DecidableEq, Repr

section Audits

variable (W) (db : W.State) (number : Nat)

def panelKeys (ids : Option (List Nat)) : Except ChainError (List W.bls.PublicKey) := do
  let ids ← orThrow ids (.exec .query)
  if ids.isEmpty then .ok [] else orThrow (W.keysOf db ids) (.exec .query)

/-- Whether an attestation certificate counts: a request still waiting, assigned to the
certificate's epoch, and signed by that epoch's panel. -/
def checkAttest (p : Panels) (c : AttestCert W.bls) : Except ChainError Bool := do
  if !(W.teeOn number && !p.attests.any (·.1 == c.request)) then return false
  let count ← orThrow (W.requestCount db) (.exec .query)
  if !(c.request != 0 && decide (c.request ≤ count)) then return false
  let (state, epoch) ← orThrow (W.request db c.request) (.exec .query)
  if !(state == 1 && epoch == c.epoch && epoch != 0) then return false
  let keys ← panelKeys W db (W.leasePanel db c.epoch)
  return c.verify W.chainId keys

/-- Whether a verdict certificate counts: a job still disputed (state 4), assigned to the
certificate's epoch, and signed by that epoch's panel. -/
def checkVerdict (p : Panels) (c : VerdictCert W.bls) : Except ChainError Bool := do
  if !(W.swarmOn number && !p.verdicts.any (·.1 == c.job)) then return false
  let panelEpoch ← orThrow (W.disputes db c.job) (.exec .query)
  if !(panelEpoch == c.epoch && panelEpoch != 0 && W.job db c.job == some 4) then return false
  let keys ← panelKeys W db (W.computePanel db c.epoch)
  return c.verify W.chainId keys

/-- Attestations and verdicts; other certificates are left for the audits. -/
def judgePanel (p : Panels) (bytes : Bytes) : Except ChainError (Verdict Panels Invalid) :=
  match W.decodeAttest bytes with
  | some c => do
    let ok ← checkAttest W db number p c
    return if ok then .keep { p with attests := p.attests ++ [(c.request, c.ok, c.machine)] }
      else .refuse .attestation
  | none =>
    match W.decodeVerdict bytes with
    | none => .ok .pass
    | some c => do
      let ok ← checkVerdict W db number p c
      return if ok then .keep { p with verdicts := p.verdicts ++ [(c.job, c.fault)] }
        else .refuse .verdict

/-- Storage audits: the current epoch, a task still open (state 0) and not settled twice. -/
def judgeAudit (epoch : Nat) (states : List Nat) (keys : List W.bls.PublicKey)
    (results : List AuditResult) (bytes : Bytes) : Except ChainError (Verdict (List AuditResult) Invalid) :=
  match W.decodeAudit bytes with
  | none => .ok (.refuse .audit)
  | some c =>
    if c.epoch == epoch && states[c.task]? == some 0 && !results.any (·.task == c.task) &&
        c.verify W.chainId keys then
      .ok (.keep (results ++ [{ epoch := c.epoch, task := c.task, passed := c.passed }]))
    else .ok (.refuse .audit)

structure CheckedAudits where
  results : List AuditResult
  panels : Panels
  kept : List Bytes
  deriving DecidableEq, Repr

/-- Checks the panel certificates of block `number` against the parent state. A received block
(`strict`) must carry only valid ones; a producer drops the rest. -/
def checkAudits (certs : List Bytes) (strict : Bool) : Except ChainError CheckedAudits := do
  let s ← sift (fun _ => false) (judgePanel W db number) strict ChainError.invalidBlock certs ⟨[], []⟩
  if s.passed.isEmpty then return ⟨[], s.acc, s.kept⟩
  let epoch := W.epochOf number
  let (panel, states) ← orThrow (W.audits db epoch) (.exec .query)
  let keys ← panelKeys W db (some panel)
  let t ← sift (fun _ => false) (judgeAudit W epoch states keys) strict ChainError.invalidBlock s.passed []
  return ⟨t.acc, s.acc, s.kept ++ t.kept⟩

end Audits

namespace View

variable (v : View W)

/-- Kind of the block after the parent: mined, with its difficulty, or by the PoS committee. -/
def kindOf : Except ChainError BlockKind := do
  let phase ← orThrow (W.phase v.db) (.exec .query)
  if phase.isPos W (v.parent.number + 1) then return .pos
  let difficulty ← difficultyAfter W v.parent v.grandparent
  return .mined difficulty (phase.isCheckpointing W (v.parent.number + 1))

def epochIndexBefore (number : Nat) : Except ChainError Bytes := do
  let epoch := W.epochOf (number - 1)
  let first := epoch * W.epochSlots + 1
  let envelopes ← (List.range' first (number - first)).mapM fun h =>
    orThrow (v.envelope h) (.exec (.missingEnvelope h))
  return W.epochIndex epoch first envelopes

/-- The first block of an epoch records the index of the epoch before it. -/
def epochIndexOf (number : Nat) : Except ChainError (Option Bytes) :=
  if W.isEpochStart number && decide (1 < number) then (v.epochIndexBefore number).map some else .ok none

def checkSeal (header : Header) (seed : Hash) : Except ChainError Unit :=
  ensure (W.verifySeal seed header) (.invalidBlock (.seal header.number))

def checkKind (exp : Header) : BlockKind → Except ChainError Unit
  | .pos => ensure (exp.difficulty == 0 && exp.nonce == 0) (.invalidBlock (.posSeal exp.number))
  | .mined difficulty _ => do
    ensure (exp.difficulty == difficulty) (.invalidBlock (.difficulty exp.difficulty difficulty))
    ensure (decide (exp.extraData.length ≤ 32)) (.invalidBlock .extraData)
    let seed ← orThrow (v.seed (seedHeight exp.number)) (.unknownParent 0)
    checkSeal (W := W) exp seed

/-- A certificate carried by a mined block in phase B: a QC of the current epoch's checkpoint
committee. -/
def checkCheckpointCert (cert : Bytes) (number : Nat) (checkpointing : Bool) : Except ChainError Unit := do
  ensure checkpointing (.invalidBlock .checkpointOutsidePhaseB)
  let (epoch, anchor) ← orThrow (W.checkpointQc cert) (.invalidBlock .notCheckpointQc)
  ensure (!anchor && epoch == W.epochOf number) (.invalidBlock (.checkpointEpoch epoch number))
  let committee ← orThrow (W.verifyCheckpoint v.db epoch cert) (.exec .query)
  let valid ← orThrow committee (.invalidBlock (.noCommittee epoch))
  ensure valid (.invalidBlock .checkpointQc)

def checkCarried (kind : BlockKind) (qc : Bytes) : Except ChainError Unit :=
  match kind with
  | .mined _ checkpointing =>
    if qc.isEmpty then .ok () else v.checkCheckpointCert qc (v.parent.number + 1) checkpointing
  | .pos => .ok ()

/-- What the caller decides about a block: all of its header that execution does not compute. -/
structure Wish where
  timestamp : Nat
  beneficiary : Address
  extraData : Bytes
  gasLimit : Nat
  nonce : Nat
  deriving DecidableEq, Repr

def Wish.of (header : Header) : Wish where
  timestamp := header.timestamp
  beneficiary := header.beneficiary
  extraData := header.extraData
  gasLimit := header.gasLimit
  nonce := header.nonce

def paramsFor (kind : BlockKind) (wish : Wish) (qc : Bytes) : BlockParams where
  input := {
    chainId := W.chainId
    number := v.parent.number + 1
    timestamp := wish.timestamp
    beneficiary := wish.beneficiary
    gasLimit := wish.gasLimit
    baseFee := W.nextBaseFee v.parent
    prevrandao := match kind with
      | .mined _ _ => W.minedMix v.parent
      | .pos => W.mixHash v.parent wish.extraData }
  parentHash := W.hash v.parent
  parentBeaconRoot := W.beacon qc
  extraData := wish.extraData
  difficulty := match kind with
    | .mined difficulty _ => difficulty
    | .pos => 0
  nonce := wish.nonce

def producer : BlockKind → Producer
  | .pos => .committee
  | .mined _ true => .minerWithCheckpoints
  | .mined _ false => .miner

/-- A block with the transactions that were tried and rejected. -/
structure Executed (W : World) where
  block : PendingBlock W
  rejected : List ((W.Tx × Address) × TxRejection)

/-- The state before the transactions of a block: its certificates are checked and its system calls
made. -/
def start (kind : BlockKind) (params : BlockParams) (certs : Certs) (strict : Bool) :
    Except ChainError (W.Evm × List Bytes) := do
  v.checkCarried kind certs.qc
  let number := params.input.number
  let epochIndex ← v.epochIndexOf number
  let audits ← checkAudits W v.db number certs.audits strict
  let evm ← orThrow (W.begin v.db v.blockHash params.input params.parentHash params.parentBeaconRoot)
    (.exec .begin)
  let evm ← orThrow (W.preBlock evm params.input v.parent (W.certVotes certs.qc) (producer kind)
    { epochIndex
      audits := audits.results
      verdicts := audits.panels.verdicts
      attestations := audits.panels.attests }) (.exec .systemCalls)
  return (evm, audits.kept)

def finish (kind : BlockKind) (wish : Wish) (qc : Bytes) (audits : List Bytes) (x : Executor W) :
    PendingBlock W where
  header := x.header (v.paramsFor kind wish qc) (W.stateRoot (write v.db (W.changes x.evm)))
  transactions := x.transactions
  changes := W.changes x.evm
  certs := { qc, audits }
  parent := v.parentRoot
  transactionsRoot_eq := rfl
  beacon_eq := rfl

/-- Executes a block without committing it. With `expected`, the transactions must all execute and
the header must match exactly; otherwise candidates that do not fit are skipped. -/
def executeOn (wish : Wish) (txs : List (W.Tx × Address)) (expected : Option Header) (certs : Certs) :
    Except ChainError (Executed W) := do
  let kind ← v.kindOf
  let params := v.paramsFor kind wish certs.qc
  expected.elim (.ok ()) fun exp => v.checkKind exp kind
  let (evm, audits) ← v.start kind params certs expected.isSome
  let s ← (Executor.new evm).addAll params txs expected.isSome
  let block := v.finish kind wish certs.qc audits s.acc
  ensure (expected.all (· == block.header)) (.invalidBlock .headerMismatch)
  return { block, rejected := s.refused }

end View

namespace Node

variable (n : Node W)

def addPending (p : PendingBlock W) : Node W :=
  { n with pending := p :: n.pending.filter fun q => W.hash q.header != W.hash p.header }

/-- Builds a block on `parent` from candidate transactions, without committing it. -/
def buildOn (parent : Hash) (candidates : List (W.Tx × Address)) (timestamp : Nat)
    (beneficiary : Address) (extraData : Bytes) (certs : Certs) :
    Except ChainError (View.Executed W) := do
  -- a producer without certificates of its own includes the ones the node collected
  let certs := if certs.audits.isEmpty then { certs with audits := n.auditQueue } else certs
  let v ← n.view parent
  v.executeOn {
    timestamp := max timestamp (v.parent.timestamp + 1)
    beneficiary
    extraData
    gasLimit := nextGasLimit v.parent.gasLimit n.gasTarget
    nonce := 0 } candidates none certs

/-- Verifies a block on top of a committed or pending parent, without committing it. -/
def verifyBlock (header : Header) (transactions : List W.Tx) (certs : Certs) :
    Except ChainError (PendingBlock W) :=
  match n.pendingBlock (W.hash header) with
  | some p => .ok p
  | none => do
    let parent ← orThrow (n.headerOf header.parentHash) (.unknownParent header.parentHash)
    ensure (header.number == parent.number + 1) (.invalidBlock .wrongNumber)
    ensure (decide (parent.timestamp < header.timestamp)) (.invalidBlock .timestamp)
    ensure (validGasLimit parent.gasLimit header.gasLimit)
      (.invalidBlock (.gasLimit header.gasLimit parent.gasLimit))
    ensure (header.parentBeaconBlockRoot == some (W.beacon certs.qc)) (.invalidBlock .certificateHash)
    let senders ← orThrow (transactions.mapM W.recoverSigner) (.invalidBlock .badSignature)
    let v ← n.view header.parentHash
    let executed ← v.executeOn (.of header) (transactions.zip senders) (some header) certs
    return executed.block

end Node

end Boltchain.Chain
