import Boltchain.Consensus.Evidence
import Boltchain.Lib.Ledger
import Boltchain.Lib.Reentry
import Boltchain.Contracts.Staking

namespace Boltchain.Contracts.EnclaveLease

open Boltchain.Consensus (Bytes toBeBytes)
open Lib
open Lib.Reentry (Call)

def HOUR : Nat := 3600
def EXIT_NOTICE : Nat := 24 * HOUR
def ABSENCE : Nat := 2 * HOUR
def BOND_BPS : Nat := 2000
def BOND_TARGET : Nat := 64 * 10 ^ 18
def UNBOND_DELAY : Nat := 14 * 24 * HOUR
def MAX_RELAY_FEE : Nat := 10 ^ 17
def REQUEST_TIMEOUT : Nat := 24 * HOUR

inductive Kind where
  | tdx
  | tpm
deriving DecidableEq, Repr

structure Machine where
  operator : Address
  kind : Kind
  verified : Bool
  available : Bool
  pricePerHour : Nat
  machineId : Nat
  /-- Leases that have not ended. -/
  leases : Nat
deriving DecidableEq, Repr

structure Operator where
  bond : Nat
  unbonding : Nat
  unbondAt : Nat
  slashedAt : Nat
deriving DecidableEq, Repr

inductive LeaseState where
  | pending
  | verifying
  | active
  | ended
deriving DecidableEq, Repr

structure Lease where
  renter : Address
  machine : Nat
  image : Nat
  state : LeaseState
  minTcb : Nat
  degraded : Bool
  pricePerHour : Nat
  escrow : Nat
  relayFee : Nat
  minBond : Nat
  agentHash : Nat
  nonce : Nat
  signer : Address
  encKey : Nat
  version : Nat
  activatedAt : Nat
  lastCheckpointAt : Nat
  lastPaidAt : Nat
  /-- When the operator's notice runs out; zero if it has not given any. -/
  exitAt : Nat
  hoursPaid : Nat
deriving DecidableEq, Repr

inductive RequestKind where
  | machine
  | activate
deriving DecidableEq, Repr

inductive RequestState where
  | waiting
  | approved
  | rejected
deriving DecidableEq, Repr

structure Request where
  kind : RequestKind
  state : RequestState
  machine : Nat
  lease : Nat
  signer : Address
  encKey : Nat
  evidence : Nat
  epoch : Nat
  requestedAt : Nat
  /-- The lease's nonce, which the evidence must bind; not stored by the contract. -/
  nonce : Nat
deriving DecidableEq, Repr

structure Activation where
  lease : Nat
  signer : Address
  machine : Nat
  time : Nat
deriving DecidableEq, Repr

/-- An hour paid to an operator, with the activation it is paid for. -/
structure Payment where
  lease : Nat
  signer : Address
  operator : Address
  amount : Nat
  pricePerHour : Nat
  activatedAt : Nat
deriving DecidableEq, Repr

/-- The storage of `EnclaveLease`, its balance, the time, and a record of the keys that were ever
active and of the hours paid. -/
structure Leasing where
  machines : List Machine
  machineIndex : Nat → Nat
  blacklisted : Nat → Bool
  operators : Address → Operator
  balanceOf : Address → Nat
  burned : Nat
  leases : List Lease
  signerLease : Address → Nat
  signerMachine : Address → Nat
  requests : List Request
  unassigned : List Nat
  panels : Nat → List Nat
  balance : Nat
  now : Nat
  activations : List Activation
  payments : List Payment

def Leasing.genesis (now : Nat) : Leasing where
  machines := []
  machineIndex := fun _ => 0
  blacklisted := fun _ => false
  operators := fun _ => ⟨0, 0, 0, 0⟩
  balanceOf := fun _ => 0
  burned := 0
  leases := []
  signerLease := fun _ => 0
  signerMachine := fun _ => 0
  requests := []
  unassigned := []
  panels := fun _ => []
  balance := 0
  now
  activations := []
  payments := []

/-- What `TdxVerifier.verify` returns for a quote it accepts: the machine, its TCB status, the two
words of its report data and the measurement of the image. -/
structure Quote where
  machineId : Nat
  tcbStatus : Nat
  binding : Nat
  agent : Nat
  measurement : Nat
deriving DecidableEq, Repr

/-- Hashes and signatures the contract computes with, and the registry of images. -/
structure Tee where
  keccak256 : Bytes → Nat
  machineBinding : Address → Nat
  enclaveBinding : Nat → Address → Nat → Nat → Nat
  checkpointDigest : Nat → Nat → Nat → Nat → Nat → Nat
  recover : Nat → Bytes → Address
  allows : Nat → Kind → Nat → Bool

namespace Leasing

variable (T : Tee) (s : Leasing)

def machine? (m : Nat) : Option Machine := if m = 0 then none else s.machines[m - 1]?

def lease? (id : Nat) : Option Lease := if id = 0 then none else s.leases[id - 1]?

def setMachine (m : Nat) (mc : Machine) : Leasing := { s with machines := s.machines.set (m - 1) mc }

def setLease (id : Nat) (l : Lease) : Leasing := { s with leases := s.leases.set (id - 1) l }

def setOperator (op : Address) (o : Operator) : Leasing := { s with operators := Function.update s.operators op o }

def credit (account : Address) (amount : Nat) : Option Leasing := do
  let sum ← Checked.add 256 (s.balanceOf account) amount
  some { s with balanceOf := Function.update s.balanceOf account sum }

section Machines

def bindMachine (m machineId : Nat) : Option Leasing := do
  Checked.require (machineId ≠ 0)
  Checked.require (s.blacklisted machineId = false)
  Checked.require (s.machineIndex machineId = 0 ∨ s.machineIndex machineId = m)
  let mc ← s.machine? m
  some { s.setMachine m { mc with machineId, verified := true } with
    machineIndex := Function.update s.machineIndex machineId m }

def request (kind : RequestKind) (m id : Nat) (signer : Address) (encKey evidence nonce : Nat) : Leasing :=
  { s with
    requests := s.requests ++ [⟨kind, .waiting, m, id, signer, encKey, evidence, 0, s.now, nonce⟩]
    unassigned := s.unassigned ++ [s.requests.length + 1] }

def addMachine (sender : Address) (kind : Kind) : Leasing :=
  { s with machines := s.machines ++ [⟨sender, kind, false, false, 0, 0, 0⟩] }

def registerTdx (sender : Address) (q : Quote) : Option Leasing := do
  Checked.require (q.binding = T.machineBinding sender)
  (s.addMachine sender .tdx).bindMachine (s.machines.length + 1) q.machineId

def registerTpm (sender : Address) (evidence : Nat) : Leasing :=
  (s.addMachine sender .tpm).request .machine (s.machines.length + 1) 0 0 0 evidence 0

def setOffer (sender : Address) (m pricePerHour : Nat) (available : Bool) : Option Leasing := do
  let mc ← s.machine? m
  Checked.require (sender = mc.operator)
  Checked.require (pricePerHour ≠ 0)
  some (s.setMachine m { mc with pricePerHour, available })

end Machines

section Bonds

def receive (value : Nat) : Leasing := { s with balance := s.balance + value }

def depositBond (sender : Address) (value : Nat) : Option Leasing := do
  let o := s.operators sender
  let bond ← Checked.add 256 o.bond value
  some ((s.receive value).setOperator sender { o with bond })

def unbond (sender : Address) (amount : Nat) : Option Leasing := do
  let o := s.operators sender
  Checked.require (amount ≠ 0 ∧ amount ≤ o.bond)
  let unbonding ← Checked.add 256 o.unbonding amount
  some (s.setOperator sender
    { o with bond := o.bond - amount, unbonding, unbondAt := (s.now + UNBOND_DELAY) % 2 ^ 64 })

def claimUnbonded (sender : Address) : Option Leasing := do
  let o := s.operators sender
  Checked.require (o.unbonding ≠ 0 ∧ o.unbondAt ≤ s.now)
  let s ← s.credit sender o.unbonding
  some (s.setOperator sender { o with unbonding := 0 })

def toBond (bond amount : Nat) : Nat :=
  if bond < BOND_TARGET then
    if bond + amount * BOND_BPS / 10000 > BOND_TARGET then BOND_TARGET - bond else amount * BOND_BPS / 10000
  else 0

def earn (op : Address) (amount : Nat) : Option Leasing := do
  let o := s.operators op
  let kept := toBond o.bond amount
  (s.setOperator op { o with bond := o.bond + kept }).credit op (amount - kept)

end Bonds

section Leases

def nonceOf (prevrandao id prev : Nat) : Nat :=
  T.keccak256 (toBeBytes 32 prevrandao ++ (toBeBytes 32 id ++ toBeBytes 32 prev))

def createLease (sender : Address) (value prevrandao m image agentHash minTcb minBond relayFee : Nat) :
    Option Leasing := do
  let mc ← s.machine? m
  Checked.require (mc.verified = true ∧ mc.available = true)
  Checked.require (s.blacklisted mc.machineId = false)
  Checked.require (minBond ≤ (s.operators mc.operator).bond)
  Checked.require (relayFee ≤ MAX_RELAY_FEE ∧ mc.pricePerHour + relayFee ≤ value ∧ value < 2 ^ 128)
  Checked.require (minTcb ≠ 0 ∧ agentHash ≠ 0)
  let leases ← Checked.add 32 mc.leases 1
  let l : Lease :=
    { renter := sender, machine := m, image, state := .pending, minTcb, degraded := false,
      pricePerHour := mc.pricePerHour, escrow := value, relayFee, minBond, agentHash,
      nonce := nonceOf T prevrandao (s.leases.length + 1) 0, signer := 0, encKey := 0, version := 0, activatedAt := 0,
      lastCheckpointAt := 0, lastPaidAt := 0, exitAt := 0, hoursPaid := 0 }
  some { (s.receive value).setMachine m { mc with leases } with leases := s.leases ++ [l] }

def topUp (value id : Nat) : Option Leasing := do
  let l ← s.lease? id
  Checked.require (l.state ≠ .ended ∧ value ≠ 0)
  let escrow ← Checked.add 128 l.escrow (value % 2 ^ 128)
  some ((s.receive value).setLease id { l with escrow })

def activated (id : Nat) (l : Lease) (signer : Address) (encKey : Nat) : Leasing :=
  { s.setLease id { l with
      signer, encKey, state := .active, activatedAt := s.now, lastCheckpointAt := s.now, lastPaidAt := s.now } with
    signerLease := Function.update s.signerLease signer id
    signerMachine := Function.update s.signerMachine signer l.machine
    activations := s.activations ++ [⟨id, signer, l.machine, s.now⟩] }

def payRelay (id : Nat) (dest : Address) : Option Leasing := do
  let l ← s.lease? id
  let fee := min l.relayFee l.escrow
  (s.setLease id { l with escrow := l.escrow - fee }).credit dest fee

/-- What `activate` demands of a lease and a machine of any kind. -/
def activatable (id : Nat) (signer : Address) (encKey : Nat) : Option (Lease × Machine) := do
  let l ← s.lease? id
  Checked.require (l.state = .pending ∧ signer ≠ 0 ∧ encKey ≠ 0)
  Checked.require (s.signerLease signer = 0)
  let mc ← s.machine? l.machine
  Checked.require (s.blacklisted mc.machineId = false)
  some (l, mc)

/-- `activate` on a TDX machine, with a quote that `TdxVerifier` accepts. -/
def activateTdx (sender : Address) (id : Nat) (signer : Address) (encKey : Nat) (q : Quote) : Option Leasing := do
  let (l, mc) ← s.activatable id signer encKey
  Checked.require (mc.kind = .tdx)
  Checked.require (q.machineId = mc.machineId)
  Checked.require (q.binding = T.enclaveBinding id signer encKey l.nonce)
  Checked.require (q.agent = l.agentHash)
  Checked.require (T.allows l.image .tdx q.measurement = true)
  Checked.require (q.tcbStatus ≤ l.minTcb)
  (s.activated id l signer encKey).payRelay id sender

/-- `activate` on another machine: the evidence goes to the panel. -/
def activateTpm (sender : Address) (id : Nat) (signer : Address) (encKey evidence : Nat) : Option Leasing := do
  let (l, mc) ← s.activatable id signer encKey
  Checked.require (mc.kind ≠ .tdx)
  Checked.require (sender = l.renter ∨ sender = mc.operator)
  some ((s.setLease id { l with state := .verifying }).request .activate l.machine id signer encKey evidence l.nonce)

def endLease (id : Nat) : Option Leasing := do
  let l ← s.lease? id
  let mc ← s.machine? l.machine
  let s := (s.setLease id { l with escrow := 0, state := .ended }).setMachine l.machine { mc with leases := mc.leases - 1 }
  s.credit l.renter l.escrow

def paid (p : Payment) : Leasing := { s with payments := s.payments ++ [p] }

def payHour (id : Nat) (l : Lease) (mc : Machine) : Option Leasing :=
  if l.lastPaidAt + HOUR ≤ s.now ∧ l.degraded = false ∧ l.pricePerHour ≤ l.escrow then do
    let hoursPaid ← Checked.add 64 l.hoursPaid 1
    let s := s.setLease id { l with escrow := l.escrow - l.pricePerHour, lastPaidAt := s.now, hoursPaid }
    (s.paid ⟨id, l.signer, mc.operator, l.pricePerHour, l.pricePerHour, l.activatedAt⟩).earn mc.operator l.pricePerHour
  else some s

/-- A checkpoint ends a lease that cannot pay another hour or whose operator's notice has run out. -/
def endIfDue (id : Nat) : Option Leasing := do
  let l ← s.lease? id
  if l.escrow < l.pricePerHour ∨ l.exitAt ≠ 0 ∧ l.exitAt ≤ s.now then s.endLease id else some s

def checkpoint (sender : Address) (id version : Nat) (stateCid : Bytes) (stateRoot seen : Nat) (sig : Bytes) :
    Option Leasing := do
  let l ← s.lease? id
  Checked.require (l.state = .active)
  Checked.require (l.version < version ∧ stateCid.length ≠ 0 ∧ stateCid.length ≤ 128)
  Checked.require (seen ≠ 0)
  Checked.require (T.recover (T.checkpointDigest id version stateRoot (T.keccak256 stateCid) seen) sig = l.signer)
  let mc ← s.machine? l.machine
  Checked.require (s.blacklisted mc.machineId = false)
  let s ← (s.setLease id { l with version, lastCheckpointAt := s.now }).payRelay id sender
  let l ← s.lease? id
  let s ← s.payHour id l mc
  s.endIfDue id

structure Signed where
  stateRoot : Nat
  cidHash : Nat
  seenBlockhash : Nat
  sig : Bytes
deriving DecidableEq, Repr

/-- The effect of a proven equivocation on the operator of a machine. -/
def slashOperator (sender : Address) (m : Nat) (mc : Machine) : Option Leasing := do
  let o := s.operators mc.operator
  let slashed := o.bond + o.unbonding
  let s ← (s.setOperator mc.operator { o with bond := 0, unbonding := 0, slashedAt := s.now }).credit sender (slashed / 2)
  let burned ← Checked.add 256 s.burned (slashed - slashed / 2)
  some ({ s with burned, blacklisted := Function.update s.blacklisted mc.machineId true }.setMachine m
    { mc with available := false })

def reportEquivocation (sender : Address) (id version : Nat) (a b : Signed) : Option Leasing := do
  Checked.require (¬ (a.stateRoot = b.stateRoot ∧ a.cidHash = b.cidHash))
  let sa := T.recover (T.checkpointDigest id version a.stateRoot a.cidHash a.seenBlockhash) a.sig
  let sb := T.recover (T.checkpointDigest id version b.stateRoot b.cidHash b.seenBlockhash) b.sig
  Checked.require (sa = sb ∧ sa ≠ 0 ∧ s.signerLease sa = id)
  let l ← s.lease? id
  let m := s.signerMachine sa
  let mc ← s.machine? m
  let s ← s.slashOperator sender m mc
  if l.state ≠ .ended ∧ l.machine = m then s.endLease id else some s

def terminate (sender : Address) (id : Nat) : Option Leasing := do
  let l ← s.lease? id
  Checked.require (sender = l.renter)
  Checked.require (l.state ≠ .ended)
  s.endLease id

def exit (sender : Address) (id : Nat) : Option Leasing := do
  let l ← s.lease? id
  let mc ← s.machine? l.machine
  Checked.require (sender = mc.operator)
  Checked.require (l.state ≠ .ended ∧ l.exitAt = 0)
  if l.state ≠ .active then s.endLease id
  else some (s.setLease id { l with exitAt := (s.now + EXIT_NOTICE) % 2 ^ 64 })

def finish (id : Nat) : Option Leasing := do
  let l ← s.lease? id
  Checked.require (l.state ≠ .ended ∧ l.exitAt ≠ 0 ∧ l.exitAt ≤ s.now)
  s.endLease id

def mayMigrate (l : Lease) (old : Machine) : Bool :=
  l.state = .pending || l.degraded || l.exitAt ≠ 0 || (s.operators old.operator).slashedAt ≠ 0 ||
    s.blacklisted old.machineId || l.lastCheckpointAt + ABSENCE ≤ s.now

def migrate (sender : Address) (prevrandao id dest : Nat) : Option Leasing := do
  let l ← s.lease? id
  Checked.require (sender = l.renter)
  Checked.require (l.state ≠ .ended ∧ l.state ≠ .verifying)
  let old ← s.machine? l.machine
  Checked.require (s.mayMigrate l old = true)
  let mc ← s.machine? dest
  Checked.require (dest ≠ l.machine ∧ mc.verified = true ∧ mc.available = true ∧ s.blacklisted mc.machineId = false)
  Checked.require (l.minBond ≤ (s.operators mc.operator).bond)
  Checked.require (mc.pricePerHour ≤ l.escrow)
  let leases ← Checked.add 32 mc.leases 1
  let s := (s.setMachine l.machine { old with leases := old.leases - 1 }).setMachine dest { mc with leases }
  some (s.setLease id { l with
    machine := dest
    pricePerHour := mc.pricePerHour
    state := .pending
    signer := 0
    encKey := 0
    degraded := false
    exitAt := 0
    nonce := nonceOf T prevrandao id l.nonce })

/-- `recheck`, given the status that the current collateral gives the machine. -/
def recheck (id status : Nat) : Option Leasing := do
  let l ← s.lease? id
  let mc ← s.machine? l.machine
  Checked.require (l.state = .active ∧ mc.kind = .tdx)
  some (if status = 0 ∨ l.minTcb < status then s.setLease id { l with degraded := true } else s)

end Leases

section Panel

def request? (r : Nat) : Option Request := if r = 0 then none else s.requests[r - 1]?

def setRequest (r : Nat) (q : Request) : Leasing := { s with requests := s.requests.set (r - 1) q }

def assign (epoch : Nat) (s : Leasing) (r : Nat) : Option Leasing := do
  let q ← s.request? r
  some (s.setRequest r { q with epoch })

def assignAttestations (epoch : Nat) (members : List Nat) : Option Leasing :=
  if s.unassigned.isEmpty then some s
  else do
    let panels := if (s.panels epoch).isEmpty then Function.update s.panels epoch members else s.panels
    let s ← s.unassigned.foldlM (assign epoch) { s with panels }
    some { s with unassigned := [] }

/-- The effect of a decided request for a machine, and whether it is granted. -/
def decideMachine (q : Request) (ok : Bool) (machineId : Nat) : Option (Leasing × Bool) :=
  if ok = true ∧ machineId ≠ 0 ∧ s.blacklisted machineId = false ∧
      (s.machineIndex machineId = 0 ∨ s.machineIndex machineId = q.machine) then do
    let s ← s.bindMachine q.machine machineId
    some (s, true)
  else some (s, false)

/-- The effect of a decided request for an activation, and whether it is granted. -/
def decideActivation (q : Request) (mc : Machine) (ok : Bool) (machineId : Nat) : Option (Leasing × Bool) := do
  let l ← s.lease? q.lease
  if l.state = .verifying then
    if ok = true ∧ machineId = mc.machineId ∧ s.blacklisted machineId = false ∧ l.machine = q.machine ∧
        s.signerLease q.signer = 0 then
      some (s.activated q.lease l q.signer q.encKey, true)
    else some (s.setLease q.lease { l with state := .pending }, false)
  else some (s, false)

/-- The panel's decision on request `r`; one that is not waiting for a panel is left alone. -/
def recordAttestation (r : Nat) (ok : Bool) (machineId : Nat) : Option Leasing :=
  match s.request? r with
  | none => some s
  | some q =>
    if q.state ≠ .waiting ∨ q.epoch = 0 then some s
    else do
      let mc ← s.machine? q.machine
      let (s, granted) ← (match q.kind with
        | .machine => s.decideMachine q ok machineId
        | .activate => s.decideActivation q mc ok machineId)
      some (s.setRequest r { q with state := if granted then .approved else .rejected })

def expireRequest (r : Nat) : Option Leasing := do
  let q ← s.request? r
  Checked.require (q.state = .waiting ∧ q.requestedAt + REQUEST_TIMEOUT ≤ s.now)
  let s := s.setRequest r { q with state := .rejected }
  match q.kind with
  | .machine => some s
  | .activate => do
    let l ← s.lease? q.lease
    some (if l.state = .verifying then s.setLease q.lease { l with state := .pending } else s)

end Panel

end Leasing

/-- The calls of the contract, and value forced upon it. -/
inductive Op where
  | registerTdx (sender : Address) (q : Quote)
  | registerTpm (sender : Address) (evidence : Nat)
  | setOffer (sender : Address) (m pricePerHour : Nat) (available : Bool)
  | depositBond (sender : Address) (value : Nat)
  | unbond (sender : Address) (amount : Nat)
  | claimUnbonded (sender : Address)
  | createLease (sender : Address) (value prevrandao m image agentHash minTcb minBond relayFee : Nat)
  | topUp (value id : Nat)
  | activateTdx (sender : Address) (id : Nat) (signer : Address) (encKey : Nat) (q : Quote)
  | activateTpm (sender : Address) (id : Nat) (signer : Address) (encKey evidence : Nat)
  | checkpoint (sender : Address) (id version : Nat) (stateCid : Bytes) (stateRoot seen : Nat) (sig : Bytes)
  | reportEquivocation (sender : Address) (id version : Nat) (a b : Leasing.Signed)
  | terminate (sender : Address) (id : Nat)
  | exit (sender : Address) (id : Nat)
  | finish (id : Nat)
  | migrate (sender : Address) (prevrandao id dest : Nat)
  | recheck (id status : Nat)
  | assignAttestations (epoch : Nat) (members : List Nat)
  | recordAttestation (r : Nat) (ok : Bool) (machineId : Nat)
  | expireRequest (r : Nat)
  | forced (value : Nat)
  | withdraw (sender dest : Address)
  | payout (account : Address)

/-- What a call does before it sends value; `none` if it reverts. -/
def Op.effect (T : Tee) (s : Leasing) : Op → Option Leasing
  | .registerTdx sender q => s.registerTdx T sender q
  | .registerTpm sender evidence => some (s.registerTpm sender evidence)
  | .setOffer sender m pricePerHour available => s.setOffer sender m pricePerHour available
  | .depositBond sender value => s.depositBond sender value
  | .unbond sender amount => s.unbond sender amount
  | .claimUnbonded sender => s.claimUnbonded sender
  | .createLease sender value prevrandao m image agentHash minTcb minBond relayFee =>
    s.createLease T sender value prevrandao m image agentHash minTcb minBond relayFee
  | .topUp value id => s.topUp value id
  | .activateTdx sender id signer encKey q => s.activateTdx T sender id signer encKey q
  | .activateTpm sender id signer encKey evidence => s.activateTpm sender id signer encKey evidence
  | .checkpoint sender id version stateCid stateRoot seen sig =>
    s.checkpoint T sender id version stateCid stateRoot seen sig
  | .reportEquivocation sender id version a b => s.reportEquivocation T sender id version a b
  | .terminate sender id => s.terminate sender id
  | .exit sender id => s.exit sender id
  | .finish id => s.finish id
  | .migrate sender prevrandao id dest => s.migrate T sender prevrandao id dest
  | .recheck id status => s.recheck id status
  | .assignAttestations epoch members => s.assignAttestations epoch members
  | .recordAttestation r ok machineId => s.recordAttestation r ok machineId
  | .expireRequest r => s.expireRequest r
  | .forced value => some (s.receive value)
  | .withdraw .. => some s
  | .payout _ => some s

def send (source dest : Address) : Call Address Leasing Unit := do
  let s ← Call.get
  let amount := s.balanceOf source
  Call.require (amount ≠ 0)
  Call.set { s with balanceOf := Function.update s.balanceOf source 0 }
  let ok ← Call.send dest fun s => (Checked.sub s.balance amount).map fun balance => { s with balance }
  Call.require (ok = true)

def entry (T : Tee) : Op → Call Address Leasing Unit
  | .withdraw sender dest => send sender dest
  | .payout account => send account account
  | op => Call.update fun s => op.effect T s

def Passes (s s' : Leasing) : Prop := ∃ t, s.now ≤ t ∧ s' = { s with now := t }

end Boltchain.Contracts.EnclaveLease
