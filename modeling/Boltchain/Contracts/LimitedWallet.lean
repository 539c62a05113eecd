import Boltchain.Lib.Reentry
import Boltchain.Contracts.Staking

namespace Boltchain.Contracts.LimitedWallet

open Lib
open Lib.Reentry (Call)

abbrev Word128 := Fin (2 ^ 128)

/-- The storage of an account that delegates to `LimitedWallet`. -/
structure Config where
  lease : Nat
  dailyLimit : Word128
  perTxLimit : Word128
  day : Nat
  spentToday : Nat
  nonce : Nat
  allowed : Address → Bool
  targets : List Address

def Config.empty : Config := ⟨0, 0, 0, 0, 0, 0, fun _ => false, []⟩

/-- What call data means when the account sends it to itself. -/
inductive SelfCall where
  | configure (lease : Nat) (dailyLimit perTxLimit : Word128) (targets : List Address)
  | revoke
  | other
deriving DecidableEq

structure Outgoing where
  dest : Address
  value : Nat
  data : SelfCall
deriving DecidableEq

/-- The key that authorised a batch, and the lease's active signer at that time. -/
structure Auth where
  key : Address
  signer : Address
deriving DecidableEq

/-- A call sent on behalf of the signer, with what was in force when it was sent. -/
structure Spend where
  day : Nat
  dest : Address
  value : Nat
  auth : Auth
  perTxLimit : Word128
  allowed : Bool
deriving DecidableEq

/-- The account, the time, the view `activeSigner` of `EnclaveLease`, and a record of what happened:
the calls sent for the signer, the digests of executed signed batches, and the largest daily limit
that has been in force on each day. -/
structure Wallet where
  cfg : Config
  now : Nat
  activeSigner : Nat → Address
  sent : List Spend
  signed : List Nat
  largest : Nat → Nat

/-- The UTC day. Timestamps are 8-byte words, so the day is one too. -/
def Wallet.today (w : Wallet) : Nat := w.now / 86400

def Wallet.fresh (now : Nat) (activeSigner : Nat → Address) : Wallet :=
  ⟨.empty, now, activeSigner, [], [], fun _ => 0⟩

def Config.configure (c : Config) (lease : Nat) (dailyLimit perTxLimit : Word128) (targets : List Address) : Config :=
  { c with
    allowed := targets.foldl (Function.update · · true) (c.targets.foldl (Function.update · · false) c.allowed)
    targets
    lease
    dailyLimit
    perTxLimit }

def Wallet.selfCall (w : Wallet) : SelfCall → Wallet
  | .configure lease dailyLimit perTxLimit targets =>
    { w with
      cfg := w.cfg.configure lease dailyLimit perTxLimit targets
      largest := Function.update w.largest w.today (max (w.largest w.today) dailyLimit.val) }
  | .revoke => { w with cfg := { w.cfg with lease := 0 } }
  | .other => w

/-- The value of a batch whose calls are all within the limit per call and to listed targets. -/
def Config.total (c : Config) (calls : List Outgoing) : Option Nat :=
  calls.foldlM (fun total call => do
    Checked.require (c.allowed call.dest = true)
    Checked.require (call.value ≤ c.perTxLimit.val)
    Checked.add 256 total call.value) 0

def Config.onDay (c : Config) (today : Nat) : Config :=
  if c.day = today then c else { c with day := today, spentToday := 0 }

def Wallet.check (key : Address) (calls : List Outgoing) (w : Wallet) : Option Wallet := do
  Checked.require (w.cfg.lease ≠ 0 ∧ key = w.activeSigner w.cfg.lease)
  let c := w.cfg.onDay w.today
  let total ← c.total calls
  let sum ← Checked.add 256 c.spentToday total
  Checked.require (sum ≤ c.dailyLimit.val)
  let spentToday ← Checked.add 128 c.spentToday (total % 2 ^ 128)
  some { w with cfg := { c with spentToday } }

def Wallet.record (auth : Option Auth) (call : Outgoing) (w : Wallet) : Wallet :=
  match auth with
  | none => w
  | some a =>
    { w with sent := ⟨w.today, call.dest, call.value, a, w.cfg.perTxLimit, w.cfg.allowed call.dest⟩ :: w.sent }

/-- The calls into the account: by any account, and by itself; the last stands for calls of other
contracts, which may change the active signer. -/
inductive Op where
  | execute (sender : Address) (calls : List Outgoing)
  | executeSigned (calls : List Outgoing) (deadline : Nat) (sig : Consensus.Bytes)
  | own (sender : Address) (data : SelfCall)
  | elsewhere (activeSigner : Nat → Address)

/-- What signed batches rest on: their digests, in which the nonce stands, and signer recovery. -/
structure Signing where
  executeDigest : List Outgoing → Nat → Nat → Nat
  recover : Nat → Consensus.Bytes → Address
  nonce_inj : ∀ {calls calls' : List Outgoing} {n n' deadline deadline' : Nat},
    executeDigest calls n deadline = executeDigest calls' n' deadline' → n = n'

section Calls

variable (account : Address) (S : Signing)

/-- One call of a batch. A call of the account to itself is made by the account. -/
def callOut (auth : Option Auth) (call : Outgoing) : Call Address Wallet Unit :=
  if call.dest = account then
    Call.update fun w => some (w.selfCall call.data)
  else do
    let ok ← Call.send call.dest fun w => some (w.record auth call)
    Call.require (ok = true)

def run (auth : Option Auth) : List Outgoing → Call Address Wallet Unit
  | [] => pure ()
  | call :: calls => do
    callOut account auth call
    run auth calls

def checkAndRun (key : Address) (calls : List Outgoing) : Call Address Wallet Unit := do
  let w ← Call.get
  Call.update (Wallet.check key calls)
  run account (some ⟨key, w.activeSigner w.cfg.lease⟩) calls

def execute (sender : Address) (calls : List Outgoing) : Call Address Wallet Unit :=
  if sender = account then run account none calls else checkAndRun account sender calls

def executeSigned (calls : List Outgoing) (deadline : Nat) (sig : Consensus.Bytes) : Call Address Wallet Unit := do
  let w ← Call.get
  Call.require (w.now ≤ deadline)
  let digest := S.executeDigest calls w.cfg.nonce deadline
  Call.require (S.recover digest sig ≠ 0)
  let nonce ← Call.lift (Checked.add 64 w.cfg.nonce 1)
  Call.set { w with cfg := { w.cfg with nonce }, signed := digest :: w.signed }
  checkAndRun account (S.recover digest sig) calls

def entry : Op → Call Address Wallet Unit
  | .execute sender calls => execute account sender calls
  | .executeSigned calls deadline sig => executeSigned account S calls deadline sig
  | .own sender data => do
    Call.require (sender = account)
    Call.update fun w => some (w.selfCall data)
  | .elsewhere activeSigner => Call.update fun w => some { w with activeSigner }

def Passes (w w' : Wallet) : Prop :=
  ∃ t activeSigner, w.now ≤ t ∧ w' = { w with
    now := t
    activeSigner
    largest := Function.update w.largest (t / 86400) (max (w.largest (t / 86400)) w.cfg.dailyLimit.val) }

def Op.ByOthers : Op → Wallet → Prop
  | .execute sender _, _ => sender ≠ account ∧ sender ≠ 0
  | .own sender _, _ => sender ≠ account
  | _, _ => True

def SelfCall.NotListing : SelfCall → Prop
  | .configure _ _ _ targets => account ∉ targets
  | _ => True

/-- Transactions of anyone, in which the owner does not list the account itself as a target. -/
def Op.NotListing : Op → Wallet → Prop
  | .execute sender calls, _ =>
    sender ≠ 0 ∧ (sender = account → ∀ call ∈ calls, call.dest = account → call.data.NotListing account)
  | .own _ data, _ => data.NotListing account
  | _, _ => True

end Calls

end Boltchain.Contracts.LimitedWallet
