import Boltchain.Consensus.Types

namespace Boltchain.Consensus

/-- The messages a panel member signs: an audit outcome, a verdict on a dispute
or the result of an attestation request. -/
inductive PanelMsg where
  | audit (chainId epoch task : Nat) (passed : Bool)
  | verdict (chainId epoch job : Nat) (atFault : Bool)
  | attest (chainId epoch request : Nat) (ok : Bool) (machine : Bytes)
  deriving DecidableEq, Repr

/-- The part of the BLS library that panel certificates use. -/
structure Bls where
  PublicKey : Type
  Signature : Type
  fastAggregateVerify : List PublicKey → PanelMsg → Signature → Bool

variable {B : Bls}

/-- The check all three certificates share: more than 2/3 of the panel by the length of the
decoded list, every index in range, and one aggregate signature of the listed keys. -/
def panelVerify (B : Bls) (panel : List B.PublicKey) (bitmap : Bytes) (msg : PanelMsg)
    (sig : B.Signature) : Bool :=
  let signers := Bitmap.decode bitmap
  if signers.length * 3 ≤ panel.length * 2 || signers.any (panel.length ≤ ·) then false
  else B.fastAggregateVerify (signers.filterMap (panel[·]?)) msg sig

structure AuditCert (B : Bls) where
  epoch : Nat
  task : Nat
  passed : Bool
  signers : Bytes
  sig : B.Signature

def AuditCert.verify (c : AuditCert B) (chainId : Nat) (panel : List B.PublicKey) : Bool :=
  panelVerify B panel c.signers (.audit chainId c.epoch c.task c.passed) c.sig

structure VerdictCert (B : Bls) where
  epoch : Nat
  job : Nat
  fault : Bool
  signers : Bytes
  sig : B.Signature

def VerdictCert.verify (c : VerdictCert B) (chainId : Nat) (panel : List B.PublicKey) : Bool :=
  panelVerify B panel c.signers (.verdict chainId c.epoch c.job c.fault) c.sig

structure AttestCert (B : Bls) where
  epoch : Nat
  request : Nat
  ok : Bool
  machine : Bytes
  signers : Bytes
  sig : B.Signature

/-- The machine id must be 32 bytes before anything else is looked at. -/
def machine32 (m : Bytes) : Option Bytes := if m.length = 32 then some m else none

def AttestCert.verify (c : AttestCert B) (chainId : Nat) (panel : List B.PublicKey) : Bool :=
  match machine32 c.machine with
  | none => false
  | some m => panelVerify B panel c.signers (.attest chainId c.epoch c.request c.ok m) c.sig

end Boltchain.Consensus
