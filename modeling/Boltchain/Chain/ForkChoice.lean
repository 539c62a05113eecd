import Boltchain.Chain.Execute

namespace Boltchain.Chain

open Consensus (Bytes Hash)
open Lib.Action Lib.Journal

variable {W : World}

def maxReorgDepth : Nat := 128

def historyBlocks : Nat := 128

/-- How far ahead of the local clock a mined block's timestamp may be. -/
def maxFutureSeconds : Nat := 15

inductive MinedOutcome where
  | known
  | extended
  | side
  | reorged (depth : Nat)
  deriving DecidableEq, Repr

/-- Total difficulties are stored as 256 bits and saturate there. -/
def saturatingAdd (a b : Nat) : Nat := min (a + b) (2 ^ 256 - 1)

def PendingBlock.stored (p : PendingBlock W) (parentTd : Nat) : StoredBlock W where
  header := p.header
  transactions := p.transactions
  certs := p.certs
  root := p.root
  td := saturatingAdd parentTd p.header.difficulty

def StoredBlock.genesis (W : World) : StoredBlock W where
  header := W.genesis
  transactions := []
  certs := ⟨[], []⟩
  root := W.genesisRoot
  td := saturatingAdd 0 W.genesis.difficulty

def StoredBlock.toSide (b : StoredBlock W) : SideBlock W where
  header := b.header
  transactions := b.transactions
  root := some b.root
  td := b.td
  cert := b.certs

namespace Node

def opened (W : World) : Node W where
  tip := .genesis W
  below := []
  state := W.genesisState
  history := fun _ => []
  finalized := none
  side := []
  pending := []
  gasTarget := 0
  auditQueue := []

variable (n : Node W)

def reopen : Node W := { n with side := [], pending := [], gasTarget := 0, auditQueue := [] }

def dropPending (h : Hash) : Node W :=
  { n with pending := n.pending.filter fun q => W.hash q.header != h }

/-- Queues a panel certificate for this node's next blocks, at most 64 of them. -/
def addAuditCert (cert : Bytes) : Node W :=
  let queue := if cert ∈ n.auditQueue then n.auditQueue else n.auditQueue ++ [cert]
  { n with auditQueue := if 64 < queue.length then queue.tail else queue }

def insertSide (b : SideBlock W) : Node W :=
  { n with side := b :: n.side.filter fun c => W.hash c.header != W.hash b.header }

def removeSide (h : Hash) : Node W :=
  { n with side := n.side.filter fun c => W.hash c.header != h }

/-- The chain with `p` committed on its head: pending blocks that can no longer be built upon, side
blocks too old to win and history too old to be undone are dropped. -/
def push (p : PendingBlock W) : Node W :=
  let number := p.header.number
  { n with
    tip := p.stored n.tip.td
    below := n.canonical
    state := write n.state p.changes
    history := fun k =>
      if k + historyBlocks ≤ number then []
      else Function.update n.history number (prior n.state p.changes) k
    side := n.side.filter fun b => decide (number - maxReorgDepth < b.header.number)
    pending := n.pending.filter fun q => decide (number < q.header.number) }

/-- The chain with its head block undone, `parent` becoming the head. -/
def undo (parent : StoredBlock W) (below : List (StoredBlock W)) : Node W :=
  { n with
    tip := parent
    below
    state := write n.state (n.history n.head.number)
    history := Function.update n.history n.head.number [] }

/-- Undoes the canonical blocks above `number`, collecting them oldest first. -/
def unwind (number : Nat) : List (StoredBlock W) → Node W → List (SideBlock W) →
    Except ChainError (Node W × List (SideBlock W))
  | below, n, undone =>
    if n.head.number ≤ number then .ok (n, undone)
    else
      match below with
      | [] => .error (.exec (.undo n.head.number))
      | parent :: below =>
        let n' := n.undo parent below
        if W.stateRoot n'.state = parent.header.stateRoot then
          unwind number below n' (n.tip.toSide :: undone)
        else .error (.exec (.undo n.head.number))

/-- Where a block is: its header, total difficulty and whether it is canonical. -/
def locate (h : Hash) : Option (Header × Nat × Bool) :=
  match n.block h with
  | some b => some (b.header, b.td, true)
  | none => (n.sideBlock h).map fun b => (b.header, b.td, false)

/-- Hash of the block at `height` on the branch through `cur`. The number of a side block is above
its parent's, which bounds the walk. -/
def ancestorHashFrom (height : Nat) : Nat → Hash → Except ChainError Hash
  | fuel, cur =>
    match n.locate cur with
    | none => .error (.unknownParent cur)
    | some (h, _, canonical) =>
      if h.number = height then .ok cur
      else if canonical then orThrow ((n.blockAt height).map fun b => W.hash b.header) (.unknownParent cur)
      else if h.number < height then .error (.unknownParent cur)
      else
        match fuel with
        | 0 => .error (.unknownParent cur)
        | fuel + 1 => ancestorHashFrom height fuel h.parentHash

def ancestorHash (tip : Hash) (height : Nat) : Except ChainError Hash :=
  n.ancestorHashFrom height ((n.locate tip).elim 0 (·.1.number)) tip

/-- Header checks a mined block must pass before it is kept anywhere. The phase is that of the head. -/
def checkMinedHeader (header parent : Header) : Except ChainError Unit := do
  ensure (header.number == parent.number + 1) (.invalidBlock .wrongNumber)
  ensure (decide (parent.timestamp < header.timestamp)) (.invalidBlock .timestamp)
  ensure (header.difficulty != 0) (.invalidBlock .notMined)
  let phase ← orThrow (W.phase n.state) (.exec .query)
  ensure (!phase.isPos W header.number) (.invalidBlock (.pastSwitch header.number))
  let expected ← difficultyAfter W parent (n.headerAny parent.parentHash)
  ensure (header.difficulty == expected) (.invalidBlock (.difficulty header.difficulty expected))
  ensure (decide (header.extraData.length ≤ 32)) (.invalidBlock .extraData)
  let seed ← n.ancestorHash header.parentHash (seedHeight header.number)
  View.checkSeal (W := W) header seed

/-- The side branch ending at `cur`, oldest first, in front of `branch`, and the height of its fork
point on the canonical chain. -/
def branchFrom : Nat → Hash → List (SideBlock W) → Except ChainError (List (SideBlock W) × Nat)
  | fuel, cur, branch =>
    match n.sideBlock cur with
    | none => orThrow ((n.block cur).map fun b => (branch, b.header.number)) (.unknownParent cur)
    | some b =>
      match fuel with
      | 0 => .error (.unknownParent cur)
      | fuel + 1 => branchFrom fuel b.header.parentHash (b :: branch)

def branchTo (tip : Hash) : Except ChainError (List (SideBlock W) × Nat) :=
  n.branchFrom ((n.sideBlock tip).elim 0 (·.header.number)) tip []

def checkFork (fork : Nat) : Except ChainError Unit := do
  let depth := n.head.number - fork
  ensure (!n.finalized.any fun f => decide (fork < f.1))
    (.deepReorg (.belowFinalized fork (n.finalized.elim 0 (·.1))))
  ensure (decide (depth ≤ maxReorgDepth)) (.deepReorg (.tooDeep fork depth))
  match (List.range' (fork + 1) depth).find? fun k => (n.blockAt k).any (·.header.difficulty == 0) with
  | some k => .error (.deepReorg (.posBlock k))
  | none => .ok ()

end Node

/-- Calls on the chain: they may fail, and keep what they did before. -/
abbrev Act (W : World) := EStateM ChainError (Node W)

/-- Makes a pending block final. It must extend the committed head. -/
def commitPending (hash : Hash) : Act W Header := do
  let n ← get
  let p ← lift (orThrow (n.pendingBlock hash) (.unknownParent hash))
  lift (ensure (p.header.parentHash == W.hash n.head) (.invalidBlock (.notExtending n.head.number)))
  lift (ensure (W.stateRoot (write n.state p.changes) == p.header.stateRoot)
    (.exec (.stateRootChanged p.header.number)))
  set (n.push p)
  return p.header

def verify (header : Header) (transactions : List W.Tx) (certs : Certs) : Act W (PendingBlock W) := do
  let n ← get
  let p ← lift (n.verifyBlock header transactions certs)
  set (n.addPending p)
  return p

def build (parent : Hash) (candidates : List (W.Tx × Address)) (timestamp : Nat)
    (beneficiary : Address) (extraData : Bytes) (certs : Certs) : Act W (View.Executed W) := do
  let n ← get
  let built ← lift (n.buildOn parent candidates timestamp beneficiary extraData certs)
  set (n.addPending built.block)
  return built

def checkEnvelope (root : Option Cid) (p : PendingBlock W) : Act W Unit :=
  match root.filter (· != p.root) with
  | some announced => do
    modify (·.dropPending (W.hash p.header))
    throw (.invalidBlock (.envelope p.root announced))
  | none => pure ()

def importFinal (header : Header) (transactions : List W.Tx) (root : Option Cid) (certs : Certs) :
    Act W Hash := do
  let n ← get
  lift (ensure (header.parentHash == W.hash n.head) (.invalidBlock (.notExtending n.head.number)))
  let p ← verify header transactions certs
  checkEnvelope root p
  let _ ← commitPending (W.hash p.header)
  return W.hash p.header

/-- Undoes canonical blocks down to `number`, in one database transaction. -/
def unwindTo (number : Nat) : Act W (List (SideBlock W)) := do
  modify fun n => { n with pending := [] }
  let n ← get
  let (n', undone) ← lift (n.unwind number n.below [])
  set n'
  return undone

def reimport : List (SideBlock W) → Act W Unit
  | [] => pure ()
  | o :: undone => do
    modify (·.removeSide (W.hash o.header))
    let _ ← importFinal o.header o.transactions o.root o.cert
    reimport undone

/-- Forgets an invalid block and its descendants and restores the old branch. -/
def rollBack (fork : Nat) (undone invalid : List (SideBlock W)) : Act W Unit := do
  modify fun n => invalid.foldl (fun n d => n.removeSide (W.hash d.header)) n
  let _ ← unwindTo fork
  reimport undone

/-- Imports the blocks of a heavier branch in turn; at the first that fails the old branch comes back. -/
def adopt (fork : Nat) (undone : List (SideBlock W)) : List (SideBlock W) → Act W Unit
  | [] => pure ()
  | b :: branch => fun n =>
    match importFinal b.header b.transactions b.root b.cert n with
    | .ok _ n => adopt fork undone branch (n.removeSide (W.hash b.header))
    | .error e n => (rollBack fork undone (b :: branch) >>= fun _ => throw e) n

/-- Makes the side branch ending at `tip` canonical. The replaced blocks stay available as a side
branch. -/
def reorgTo (tip : Hash) : Act W Nat := do
  let n ← get
  let (branch, fork) ← lift (n.branchTo tip)
  lift (n.checkFork fork)
  let undone ← unwindTo fork
  adopt fork undone branch
  modify fun n => undone.foldl Node.insertSide n
  return n.head.number - fork

/-- Imports a mined block, whose envelope may carry certificates, when the clock shows `now`. More
work wins; equal work goes to the lower hash. -/
def importMinedWithCert (now : Nat) (header : Header) (transactions : List W.Tx) (root : Option Cid)
    (cert : Certs) : Act W MinedOutcome := do
  let n ← get
  let hash := W.hash header
  if (n.locate hash).isSome then return .known
  else
    lift (ensure (decide (header.timestamp ≤ now + maxFutureSeconds))
      (.invalidBlock (.future header.timestamp)))
    let (parent, parentTd, canonical) ← lift (orThrow (n.locate header.parentHash)
      (.unknownParent header.parentHash))
    lift (ensure (!n.finalized.any fun f => canonical && decide (parent.number < f.1))
      (.deepReorg (.belowFinalized header.number (n.finalized.elim 0 (·.1)))))
    if header.parentHash = W.hash n.head then
      lift (ensure (header.difficulty != 0) (.invalidBlock .notMined))
      let _ ← importFinal header transactions root cert
      return .extended
    else
      lift (n.checkMinedHeader header parent)
      let td := (parentTd + header.difficulty) % 2 ^ 256
      modify (·.insertSide { header, transactions, root, td, cert })
      if td < n.tip.td ∨ td = n.tip.td ∧ W.hash n.head ≤ hash then return .side
      else
        let depth ← reorgTo hash
        return .reorged depth

def importMined (now : Nat) (header : Header) (transactions : List W.Tx) (root : Option Cid) :
    Act W MinedOutcome :=
  importMinedWithCert now header transactions root ⟨[], []⟩

def switchTo (hash : Hash) (canonical : Bool) : Act W Unit :=
  if canonical then pure () else reorgTo hash >>= fun _ => pure ()

/-- Records a certified checkpoint as final. If it is on a side branch, that branch becomes
canonical whatever its total difficulty. -/
def finalize (hash : Hash) (height : Nat) : Act W Bool := do
  let n ← get
  if n.finalized.any fun f => decide (height ≤ f.1) then return false
  else
    let (header, _, canonical) ← lift (orThrow (n.locate hash) (.unknownParent hash))
    lift (ensure (header.number == height) (.invalidBlock (.checkpointHeight header.number height)))
    switchTo hash canonical
    modify fun n =>
      { n with
        finalized := some (height, hash)
        side := n.side.filter fun b => decide (height < b.header.number) }
    return true

inductive Call (W : World) where
  | importMined (now : Nat) (header : Header) (transactions : List W.Tx) (root : Option Cid)
  | importMinedWithCert (now : Nat) (header : Header) (transactions : List W.Tx) (root : Option Cid)
      (cert : Certs)
  | finalize (hash : Hash) (height : Nat)
  | importFinal (header : Header) (transactions : List W.Tx) (root : Option Cid) (certs : Certs)
  | verifyBlock (header : Header) (transactions : List W.Tx) (certs : Certs)
  | buildOn (parent : Hash) (candidates : List (W.Tx × Address)) (timestamp : Nat)
      (beneficiary : Address) (extraData : Bytes) (certs : Certs)
  | commitPending (hash : Hash)
  | dropPending (hash : Hash)
  | addAuditCert (cert : Bytes)
  | setGasTarget (gas : Nat)
  | reopen

def Call.run : Call W → Act W Unit
  | .importMined now header txs root => do let _ ← Chain.importMined now header txs root
  | .importMinedWithCert now header txs root cert => do
    let _ ← Chain.importMinedWithCert now header txs root cert
  | .finalize hash height => do let _ ← Chain.finalize hash height
  | .importFinal header txs root certs => do let _ ← Chain.importFinal header txs root certs
  | .verifyBlock header txs certs => do let _ ← verify header txs certs
  | .buildOn parent candidates timestamp beneficiary extraData certs => do
    let _ ← build parent candidates timestamp beneficiary extraData certs
  | .commitPending hash => do let _ ← Chain.commitPending (W := W) hash
  | .dropPending hash => modify (·.dropPending hash)
  | .addAuditCert cert => modify (·.addAuditCert cert)
  | .setGasTarget gas => modify fun n => { n with gasTarget := gas }
  | .reopen => modify Node.reopen

def Node.after (n : Node W) (c : Call W) : Node W :=
  match c.run n with
  | .ok _ n' => n'
  | .error _ n' => n'

def Node.afterAll (n : Node W) (calls : List (Call W)) : Node W := calls.foldl Node.after n

end Boltchain.Chain
