import Boltchain.Lib.Ledger
import Boltchain.Lib.Reentry
import Boltchain.Contracts.Staking

namespace Boltchain.Contracts.SwarmStorage

open Lib
open Lib.Reentry (Call)

def STORAGE_ID_BASE : Nat := 2 ^ 31
def BOND_TARGET : Nat := 64 * 10 ^ 18
def BOND_BPS : Nat := 2000
def BOND_SLASH_BPS : Nat := 1000
def EXIT_DELAY : Nat := 14 * 24 * 3600
def KEEP_EPOCHS : Nat := 32
def MAX_REPLICAS : Nat := 16
def MAX_DEAL_EPOCHS : Nat := 3650
def DRAW_ATTEMPTS : Nat := 64
def COMMIT_BASE : Nat := 5 * 10 ^ 18
def COMMIT_BOND_MULT : Nat := 10

inductive State where
  | pending
  | passed
  | failed
deriving DecidableEq, Repr

inductive Kind where
  | history
  | deal
deriving DecidableEq, Repr

structure Task where
  provider : Nat
  /-- The epoch sampled, or the deal. -/
  target : Nat
  /-- The block sampled, or the index of a block in the deal. -/
  height : Nat
  state : State
  kind : Kind
deriving DecidableEq, Repr

structure StorageProvider where
  account : Address
  active : Bool
  /-- The bond is withdrawable from then on; zero: not exiting. -/
  exitAt : Nat
  bond : Nat
deriving DecidableEq, Repr

structure Offer where
  capacityMiB : Nat
  usedMiB : Nat
  minPrice : Nat
  isOpen : Bool
  listed : Bool
  /-- The unpaid value of the copies it holds. -/
  committed : Nat
deriving DecidableEq, Repr

structure Slot where
  provider : Nat
  since : Nat
  /-- Paid up to this epoch, exclusive. -/
  paidThrough : Nat
  isOpen : Bool
deriving DecidableEq, Repr

/-- A deal with its copies, `deals[id]` and `slots[id]`. -/
structure Deal where
  owner : Address
  replicas : Nat
  closed : Bool
  sizeMiB : Nat
  startEpoch : Nat
  /-- Exclusive. -/
  endEpoch : Nat
  price : Nat
  /-- What a copy is paid in an epoch. -/
  perEpoch : Nat
  escrow : Nat
  slots : List Slot
deriving DecidableEq, Repr

def Deal.holds (d : Deal) (c : Nat) : Bool := d.slots.any fun sl => sl.isOpen && sl.provider == c

structure Standing where
  owner : Address
  active : Bool
deriving DecidableEq, Repr

/-- The epochs `first`, …, `last - 1` of a copy have been paid. -/
structure Payment where
  deal : Nat
  slot : Nat
  first : Nat
  last : Nat
deriving DecidableEq, Repr

/-- The state of the contract, with what it reads of others: the validators, the epoch and the time. -/
structure Swarm where
  /-- `storageProviders[STORAGE_ID_BASE + i]`. -/
  providers : List StorageProvider
  offers : Nat → Offer
  offerIds : List Nat
  deals : List Deal
  balanceOf : Address → Nat
  tasks : Nat → List Task
  passes : Nat → List Nat
  validators : Nat → Standing
  epoch : Nat
  now : Nat
  balance : Nat
  /-- All payments for copies so far; no call reads it. -/
  payments : List Payment
  /-- What each bond has lost so far; no call reads it. -/
  lost : Nat → Nat

/-- Before the first deal: providers of history may have registered. -/
structure Swarm.Initial (s : Swarm) : Prop where
  deals : s.deals = []
  offers : ∀ p, s.offers p = ⟨0, 0, 0, false, false, 0⟩
  balanceOf : ∀ a, s.balanceOf a = 0
  payments : s.payments = []
  bonds : Ledger.sumOf StorageProvider.bond s.providers ≤ s.balance

namespace Swarm

variable (s : Swarm)

def provider? (id : Nat) : Option StorageProvider :=
  if STORAGE_ID_BASE ≤ id then s.providers[id - STORAGE_ID_BASE]? else none

def setProvider (id : Nat) (p : StorageProvider) : Swarm :=
  { s with providers := s.providers.set (id - STORAGE_ID_BASE) p }

def setOffer (p : Nat) (o : Offer) : Swarm := { s with offers := Function.update s.offers p o }

def setDeal (id : Nat) (d : Deal) : Swarm := { s with deals := s.deals.set id d }

def receive (value : Nat) : Swarm := { s with balance := s.balance + value }

def deposit (a : Address) (amount : Nat) : Option Swarm := do
  let v ← Checked.add 256 (s.balanceOf a) amount
  some { s with balanceOf := Function.update s.balanceOf a v }

def lose (id amount : Nat) : Swarm := { s with lost := Function.update s.lost id (s.lost id + amount) }

section Providers

def registerStorage (account : Address) : Option Swarm := do
  let _ ← Checked.add 32 STORAGE_ID_BASE s.providers.length
  some { s with providers := s.providers ++ [⟨account, true, 0, 0⟩] }

def exitStorage (sender : Address) (id : Nat) : Option Swarm := do
  let p ← s.provider? id
  Checked.require (sender = p.account)
  let exitAt ← Checked.add 64 s.now EXIT_DELAY
  some (s.setProvider id { p with active := false, exitAt })

def depositBond (value id : Nat) : Option Swarm := do
  let p ← s.provider? id
  Checked.require (p.active = true)
  let bond ← Checked.add 256 p.bond value
  some ((s.receive value).setProvider id { p with bond })

def toBond (bond amount : Nat) : Option Nat :=
  if bond < BOND_TARGET then do
    let share ← Checked.mul 256 amount BOND_BPS
    some (if BOND_TARGET < bond + share / 10000 then BOND_TARGET - bond else share / 10000)
  else some 0

def account? (id : Nat) : Option Address :=
  if STORAGE_ID_BASE ≤ id then (s.provider? id).map StorageProvider.account else some (s.validators id).owner

def live (id : Nat) : Bool :=
  if STORAGE_ID_BASE ≤ id then (s.provider? id).any StorageProvider.active else (s.validators id).active

def offerStorage (sender : Address) (id capacityMiB minPrice : Nat) : Option Swarm := do
  Checked.require (capacityMiB < 2 ^ 64 ∧ minPrice < 2 ^ 128)
  Checked.require (s.account? id = some sender ∧ sender ≠ 0)
  Checked.require (s.live id = true)
  let o := s.offers id
  let offerIds := if o.listed then s.offerIds else s.offerIds ++ [id]
  some ({ s with offerIds }.setOffer id { o with capacityMiB, minPrice, isOpen := true, listed := true })

def closeOffer (sender : Address) (id : Nat) : Option Swarm := do
  Checked.require (s.account? id = some sender)
  some (s.setOffer id { s.offers id with isOpen := false })

end Providers

section Copies

def credit (p amount : Nat) : Option Swarm :=
  if STORAGE_ID_BASE ≤ p then do
    let sp ← s.provider? p
    let kept ← toBond sp.bond amount
    (s.setProvider p { sp with bond := sp.bond + kept }).deposit sp.account (amount - kept)
  else s.deposit (s.validators p).owner amount

def uncommit (p amount : Nat) : Swarm :=
  let o := s.offers p
  s.setOffer p { o with committed := if amount < o.committed then o.committed - amount else 0 }

def paid (p : Payment) : Swarm := { s with payments := s.payments ++ [p] }

def pay (id i upTo : Nat) : Option Swarm := do
  let d ← s.deals[id]?
  let sl ← d.slots[i]?
  let last := if upTo < d.endEpoch then upTo else d.endEpoch
  if last ≤ sl.paidThrough then some s
  else do
    let amount := d.perEpoch * (last - sl.paidThrough)
    let escrow ← Checked.sub d.escrow amount
    let slots := d.slots.set i { sl with paidThrough := last }
    let s := (s.setDeal id { d with escrow, slots }).uncommit sl.provider amount
    (s.paid ⟨id, i, sl.paidThrough, last⟩).credit sl.provider amount

def drop (id i : Nat) : Option Swarm := do
  let d ← s.deals[id]?
  let sl ← d.slots[i]?
  let o := s.offers sl.provider
  let usedMiB := if d.sizeMiB < o.usedMiB then o.usedMiB - d.sizeMiB else 0
  let forfeited := if sl.paidThrough < d.endEpoch then d.perEpoch * (d.endEpoch - sl.paidThrough) else 0
  let s := s.setDeal id { d with slots := d.slots.set i { sl with isOpen := false } }
  some ((s.setOffer sl.provider { o with usedMiB }).uncommit sl.provider forfeited)

def assign (id i who since : Nat) (push : Bool) : Option Swarm := do
  let d ← s.deals[id]?
  let sl : Slot := ⟨who, since, since, true⟩
  let slots := if push then d.slots ++ [sl] else d.slots.set i sl
  let o := s.offers who
  let usedMiB ← Checked.add 64 o.usedMiB d.sizeMiB
  let span ← Checked.sub d.endEpoch since
  let committed ← Checked.add 256 o.committed (d.perEpoch * span)
  some ((s.setDeal id { d with slots }).setOffer who { o with usedMiB, committed })

/-- Whether a provider without stake may hold that much more; a validator always may. -/
def withinLimit (c value : Nat) : Option Bool :=
  match s.provider? c with
  | none => some true
  | some p => do
    let committed ← Checked.add 256 (s.offers c).committed value
    let cover ← Checked.mul 256 COMMIT_BOND_MULT p.bond
    let limit ← Checked.add 256 COMMIT_BASE cover
    some (committed ≤ limit)

def eligible (d : Deal) (c value : Nat) : Option Bool :=
  let o := s.offers c
  if o.isOpen = false ∨ d.price < o.minPrice then some false
  else do
    let used ← Checked.add 64 o.usedMiB d.sizeMiB
    if o.capacityMiB < used ∨ s.live c = false then some false
    else do
      let within ← s.withinLimit c value
      some (within && !d.holds c)

/-- The attempts `t`, `t + 1`, … of a draw; `rand` are the hashes they take. -/
def drawFrom (d : Deal) (value : Nat) (rand : Nat → Nat) : Nat → Nat → Option (Option Nat)
  | 0, _ => some none
  | n + 1, t => do
    let c ← s.offerIds[rand t % s.offerIds.length]?
    let fits ← s.eligible d c value
    if fits then some (some c) else drawFrom d value rand n (t + 1)

def draw (d : Deal) (since : Nat) (rand : Nat → Nat) : Option (Option Nat) :=
  if s.offerIds.length = 0 then some none
  else do
    let span ← Checked.sub d.endEpoch since
    s.drawFrom d (d.perEpoch * span) rand DRAW_ATTEMPTS 0

def place (id i : Nat) (rand : Nat → Nat) (push : Bool) : Option Swarm := do
  let d ← s.deals[id]?
  let who ← (← s.draw d s.epoch rand)
  s.assign id i who s.epoch push

end Copies

section Deals

def fill (id : Nat) (rand : Nat → Nat → Nat) (s : Swarm) (i : Nat) : Option Swarm := s.place id i (rand i) true

/-- `createDeal` by `sender`, with the length of `root`. The first requirement is the decoder's. -/
def createDeal (sender : Address) (value rootLength blocks size replicas epochs price : Nat)
    (rand : Nat → Nat → Nat) : Option Swarm := do
  Checked.require (value < 2 ^ 256 ∧ size < 2 ^ 64 ∧ price < 2 ^ 128)
  Checked.require (rootLength ≠ 0 ∧ blocks ≠ 0 ∧ size ≠ 0 ∧ replicas ≠ 0 ∧ replicas ≤ MAX_REPLICAS ∧
    epochs ≠ 0 ∧ epochs ≤ MAX_DEAL_EPOCHS ∧ price ≠ 0)
  let sizeMiB := (size + (2 ^ 20 - 1)) / 2 ^ 20
  let perEpoch := (price * sizeMiB + 1023) / 1024
  Checked.require (perEpoch < 2 ^ 128)
  Checked.require (perEpoch * replicas * epochs ≤ value)
  let endEpoch ← Checked.add 64 s.epoch epochs
  let d : Deal := ⟨sender, replicas, false, sizeMiB, s.epoch, endEpoch, price, perEpoch, value, []⟩
  (List.range replicas).foldlM (fill s.deals.length rand) { s.receive value with deals := s.deals ++ [d] }

def commit (amount : Nat) (s : Swarm) (sl : Slot) : Option Swarm :=
  if sl.isOpen then do
    let o := s.offers sl.provider
    let committed ← Checked.add 256 o.committed amount
    some (s.setOffer sl.provider { o with committed })
  else some s

def extendDeal (sender : Address) (value id epochs : Nat) : Option Swarm := do
  let d ← s.deals[id]?
  Checked.require (sender = d.owner)
  Checked.require (d.closed = false ∧ s.epoch < d.endEpoch)
  let span ← Checked.sub d.endEpoch d.startEpoch
  Checked.require (epochs ≠ 0 ∧ span + epochs ≤ MAX_DEAL_EPOCHS)
  Checked.require (d.perEpoch * d.replicas * epochs ≤ value)
  let endEpoch ← Checked.add 64 d.endEpoch epochs
  let escrow ← Checked.add 256 d.escrow value
  d.slots.foldlM (commit (d.perEpoch * epochs)) ((s.receive value).setDeal id { d with endEpoch, escrow })

def release (amount : Nat) (s : Swarm) (sl : Slot) : Swarm := if sl.isOpen then s.uncommit sl.provider amount else s

def cancelDeal (sender : Address) (id : Nat) : Option Swarm := do
  let d ← s.deals[id]?
  Checked.require (sender = d.owner)
  let endEpoch ← Checked.add 64 s.epoch 1
  Checked.require (d.closed = false ∧ endEpoch < d.endEpoch)
  some ((d.slots.foldl (release (d.perEpoch * (d.endEpoch - endEpoch))) s).setDeal id { d with endEpoch })

def claim (id i : Nat) : Option Swarm := do
  let d ← s.deals[id]?
  let sl ← d.slots[i]?
  Checked.require (sl.isOpen = true ∧ d.closed = false)
  Checked.require (s.live sl.provider = true)
  s.pay id i s.epoch

def settle (id i : Nat) (d : Deal) (sl : Slot) : Option Swarm := if s.live sl.provider then s.pay id i d.endEpoch else some s

def closeSlot (id : Nat) (s : Swarm) (i : Nat) : Option Swarm := do
  let d ← s.deals[id]?
  let sl ← d.slots[i]?
  if sl.isOpen then do
    let s ← s.settle id i d sl
    s.drop id i
  else some s

def refund (id : Nat) : Option Swarm := do
  let d ← s.deals[id]?
  (s.setDeal id { d with closed := true, escrow := 0 }).deposit d.owner d.escrow

def closeDeal (id : Nat) : Option Swarm := do
  let d ← s.deals[id]?
  Checked.require (d.closed = false)
  Checked.require (d.endEpoch ≤ s.epoch)
  let s ← (List.range d.slots.length).foldlM (closeSlot id) s
  s.refund id

/-- An open copy can be repaired only after its provider has left. -/
def vacate (id i : Nat) (sl : Slot) : Option Swarm :=
  if sl.isOpen then do
    Checked.require (s.live sl.provider = false)
    s.drop id i
  else some s

def repair (id i : Nat) (rand : Nat → Nat) : Option Swarm := do
  let d ← s.deals[id]?
  Checked.require (d.closed = false ∧ s.epoch < d.endEpoch)
  let sl ← d.slots[i]?
  let s ← s.vacate id i sl
  s.place id i rand false

end Deals

section Audits

def tasksOf (kind : Kind) (providers targets heights : List Nat) : List Task :=
  List.zipWith (fun p (th : Nat × Nat) => ⟨p, th.1, th.2, .pending, kind⟩) providers (targets.zip heights)

def beginAudits (epoch : Nat) (providers targets heights : List Nat) : Option Swarm := do
  Checked.require (providers.length = targets.length ∧ targets.length = heights.length)
  let tasks := Function.update s.tasks epoch (s.tasks epoch ++ tasksOf .history providers targets heights)
  some (if KEEP_EPOCHS ≤ epoch then
    { s with
      tasks := Function.update tasks (epoch - KEEP_EPOCHS) []
      passes := Function.update s.passes (epoch - KEEP_EPOCHS) [] }
  else { s with tasks })

def addDealAudits (epoch : Nat) (providers dealIds indexes : List Nat) : Option Swarm := do
  Checked.require (providers.length = dealIds.length ∧ dealIds.length = indexes.length)
  some { s with tasks := Function.update s.tasks epoch (s.tasks epoch ++ tasksOf .deal providers dealIds indexes) }

def setTask (epoch k : Nat) (t : Task) : Swarm :=
  { s with tasks := Function.update s.tasks epoch ((s.tasks epoch).set k t) }

def pass (epoch k : Nat) (t : Task) : Swarm :=
  let s := s.setTask epoch k { t with state := .passed }
  match t.kind with
  | .history => { s with passes := Function.update s.passes epoch (s.passes epoch ++ [t.provider]) }
  | .deal => s

/-- When the bond of a provider that is made to leave is withdrawable. -/
def leaveAt (sp : StorageProvider) : Option Nat := if sp.active then Checked.add 64 s.now EXIT_DELAY else some sp.exitAt

/-- `_penalize` of a provider without stake; the penalty stays locked here. -/
def penalizeStorage (id : Nat) : Option Swarm :=
  match s.provider? id with
  | none => some s
  | some sp => do
    let share ← Checked.mul 256 sp.bond BOND_SLASH_BPS
    let penalty := share / 10000
    let exitAt ← s.leaveAt sp
    some ((s.setProvider id { sp with bond := sp.bond - penalty, active := false, exitAt }).lose id penalty)

def copyOf (d : Deal) (p : Nat) : Option Nat := d.slots.findIdx? fun sl => sl.isOpen && sl.provider == p

def replace (id i : Nat) (rand : Nat → Nat) : Option Swarm := do
  let d ← s.deals[id]?
  if s.epoch < d.endEpoch then
    match ← s.draw d s.epoch rand with
    | some who => s.assign id i who s.epoch false
    | none => some s
  else some s

def failCopy (id p : Nat) (rand : Nat → Nat) : Option Swarm :=
  match s.deals[id]? with
  | none => some s
  | some d =>
    if d.closed then some s
    else match copyOf d p with
      | none => some s
      | some i => do
        let s ← s.drop id i
        s.replace id i rand

end Audits

end Swarm

/-- The calls of the contract. A validator's standing is changed by StakingManager, value is forced
upon the contract by anyone. -/
inductive Op where
  | registerStorage (account : Address)
  | exitStorage (sender : Address) (id : Nat)
  | releaseStorageBond (id : Nat)
  | depositBond (value id : Nat)
  | depositEarnings (value id : Nat)
  | offerStorage (sender : Address) (id capacityMiB minPrice : Nat)
  | closeOffer (sender : Address) (id : Nat)
  | createDeal (sender : Address) (value rootLength blocks size replicas epochs price : Nat) (rand : Nat → Nat → Nat)
  | extendDeal (sender : Address) (value id epochs : Nat)
  | cancelDeal (sender : Address) (id : Nat)
  | claim (id i : Nat)
  | closeDeal (id : Nat)
  | repair (id i : Nat) (rand : Nat → Nat)
  | withdraw (sender dest : Address)
  | payout (account : Address)
  | beginAudits (epoch : Nat) (providers targets heights : List Nat)
  | addDealAudits (epoch : Nat) (providers dealIds indexes : List Nat)
  | recordAudit (epoch k : Nat) (ok : Bool) (coinbase : Address) (rand : Nat → Nat)
  | standing (id : Nat) (v : Standing)
  | forced (value : Nat)

/-- What a call does that hands control to nobody; `none` if it reverts. -/
def Op.effect (s : Swarm) : Op → Option Swarm
  | .registerStorage account => s.registerStorage account
  | .exitStorage sender id => s.exitStorage sender id
  | .depositBond value id => s.depositBond value id
  | .offerStorage sender id capacityMiB minPrice => s.offerStorage sender id capacityMiB minPrice
  | .closeOffer sender id => s.closeOffer sender id
  | .createDeal sender value rootLength blocks size replicas epochs price rand =>
    s.createDeal sender value rootLength blocks size replicas epochs price rand
  | .extendDeal sender value id epochs => s.extendDeal sender value id epochs
  | .cancelDeal sender id => s.cancelDeal sender id
  | .claim id i => s.claim id i
  | .closeDeal id => s.closeDeal id
  | .repair id i rand => s.repair id i rand
  | .beginAudits epoch providers targets heights => s.beginAudits epoch providers targets heights
  | .addDealAudits epoch providers dealIds indexes => s.addDealAudits epoch providers dealIds indexes
  | .standing id v => some { s with validators := Function.update s.validators id v }
  | .forced value => some (s.receive value)
  | _ => some s

def transfer (dest : Address) (amount : Nat) : Call Address Swarm Unit := do
  let ok ← Call.send dest fun s => (Checked.sub s.balance amount).map fun balance => { s with balance }
  Call.require (ok = true)

def withdraw (source dest : Address) : Call Address Swarm Unit := do
  let s ← Call.get
  Call.set { s with balanceOf := Function.update s.balanceOf source 0 }
  transfer dest (s.balanceOf source)

def releaseStorageBond (id : Nat) : Call Address Swarm Unit := do
  let s ← Call.get
  let p ← Call.lift (s.provider? id)
  Call.require (p.active = false ∧ p.exitAt ≠ 0 ∧ p.exitAt ≤ s.now)
  Call.set ((s.setProvider id { p with bond := 0 }).lose id p.bond)
  transfer p.account p.bond

def depositEarnings (value id : Nat) : Call Address Swarm Unit := do
  let s ← Call.get
  let p ← Call.lift (s.provider? id)
  let kept ← Call.lift (Swarm.toBond p.bond value)
  Call.set ((s.receive value).setProvider id { p with bond := p.bond + kept })
  transfer p.account (value - kept)

/-- `_penalize`. StakingManager pays the proposer of the block its share of a validator's stake. -/
def penalize (p : Nat) (coinbase : Address) : Call Address Swarm Unit :=
  if STORAGE_ID_BASE ≤ p then Call.update fun s => s.penalizeStorage p
  else do
    let _ ← Call.send coinbase some

def recordAudit (epoch k : Nat) (ok : Bool) (coinbase : Address) (rand : Nat → Nat) : Call Address Swarm Unit := do
  let s ← Call.get
  let t ← Call.lift (s.tasks epoch)[k]?
  if t.state ≠ .pending then pure ()
  else if ok then Call.set (s.pass epoch k t)
  else do
    Call.set (s.setTask epoch k { t with state := .failed })
    penalize t.provider coinbase
    if t.kind = .deal then Call.update fun s => s.failCopy t.target t.provider rand

def entry : Op → Call Address Swarm Unit
  | .releaseStorageBond id => releaseStorageBond id
  | .depositEarnings value id => depositEarnings value id
  | .withdraw sender dest => withdraw sender dest
  | .payout account => withdraw account account
  | .recordAudit epoch k ok coinbase rand => recordAudit epoch k ok coinbase rand
  | op => Call.update fun s => op.effect s

def Passes (s s' : Swarm) : Prop := ∃ epoch now, s.epoch ≤ epoch ∧ s.now ≤ now ∧ s' = { s with epoch, now }

end Boltchain.Contracts.SwarmStorage
