import Boltchain.Chain.ForkChoice

namespace Boltchain.Chain

open Consensus (Bytes Hash Bls)

instance encodableByte : Encodable UInt8 := Encodable.ofLeftInjection UInt8.toNat (fun k => some (UInt8.ofNat k)) (by simp)

deriving instance Encodable for HeaderRest

deriving instance Encodable for Header

deriving instance Encodable for Envelope

deriving instance DecidableEq for Envelope

section

variable {α : Type} [DecidableEq α] [Encodable α]

/-- A hash that numbers the values of a table, so that examples can be replayed. -/
def tableHash (table : List α) (a : α) : Nat :=
  if a ∈ table then table.idxOf a else table.length + Encodable.encode a

theorem tableHash_injective (table : List α) : Function.Injective (tableHash table) := by
  intro a b h
  unfold tableHash at h
  by_cases ha : a ∈ table <;> by_cases hb : b ∈ table
  · rw [if_pos ha, if_pos hb] at h
    exact (List.idxOf_inj ha).1 h
  · have hlt := List.idxOf_lt_length_of_mem ha
    rw [if_pos ha, if_neg hb] at h
    exact absurd h (Nat.lt_add_right _ hlt).ne
  · have hlt := List.idxOf_lt_length_of_mem hb
    rw [if_neg ha, if_pos hb] at h
    exact absurd h.symm (Nat.lt_add_right _ hlt).ne
  · rw [if_neg ha, if_neg hb] at h
    exact Encodable.encode_injective (Nat.add_left_cancel h)

end

/-- A block of the replayed examples: the state is one number, to which a block adds one for itself
and each transaction its own. -/
def mockHeader (parentHash number timestamp stateRoot : Nat) (txs : List Nat) : Header where
  parentHash := parentHash
  beneficiary := 0
  stateRoot := stateRoot
  transactionsRoot := Encodable.encode txs
  receiptsRoot := 0
  logsBloom := 0
  difficulty := 1
  number := number
  gasLimit := 15_000_000
  gasUsed := 0
  timestamp := timestamp
  extraData := []
  mixHash := 0
  nonce := 0
  baseFeePerGas := some 7
  parentBeaconBlockRoot := some 0
  rest := .executed

def mockGenesis : Header := { mockHeader 0 0 0 0 [] with difficulty := 0 }

/-- The envelope of a block without transactions and certificates, in a world that numbers headers and
envelopes alike. -/
def mockEnvelope (h : Header) : Envelope Nat where
  height := h.number
  header := h
  parent := if h.number = 0 then none else some h.parentHash
  body := []
  qc := []
  audits := []

def mockBls : Bls where
  PublicKey := Unit
  Signature := Unit
  fastAggregateVerify _ _ _ := true

/-- A world to replay examples in: every seal is good, the difficulty is one, and every certificate
is an audit of task 0 whose bytes are the signers. -/
def mockWorld (table : List Header) (epochSlots : Nat) (phase : Nat → Phase) : World where
  Tx := Nat
  Key := Unit
  Value := Nat
  Evm := Nat
  bls := mockBls
  chainId := 1
  epochSlots := epochSlots
  swarmOn _ := true
  teeOn _ := true
  genesis := mockGenesis
  genesisState _ := 0
  hash := tableHash table
  keccak256 b := Encodable.encode b + 1
  minedMix _ := 0
  mixHash _ _ := 0
  stateRoot s := s ()
  transactionRoot := Encodable.encode
  receiptRoot _ := 0
  bloom _ := 0
  cid := tableHash (table.map mockEnvelope)
  epochIndex _ _ cids := cids.map fun c => UInt8.ofNat c
  nextDifficulty _ _ _ := 1
  verifySeal _ _ := true
  nextBaseFee _ := 7
  recoverSigner _ := some 0
  txType _ := 2
  gasLimit _ := 21_000
  encodedLen _ := 100
  begin db _ _ _ _ := some (db ())
  preBlock evm _ _ _ _ _ := some (evm + 1)
  transact evm _ tx _ := some (some { gas := 0, success := true, logs := [], evm := evm + tx })
  changes evm := [((), evm)]
  certVotes _ := ⟨0, 0, []⟩
  checkpointQc _ := none
  verifyCheckpoint _ _ _ := none
  decodeAudit bytes := some ⟨0, 0, true, bytes, ()⟩
  decodeVerdict _ := none
  decodeAttest _ := none
  phase s := some (phase (s ()))
  requestCount _ := some 0
  request _ _ := none
  leasePanel _ _ := none
  disputes _ _ := none
  job _ _ := none
  computePanel _ _ := none
  audits _ _ := some ([0], [0])
  keysOf _ ids := some (ids.map fun _ => ())
  hash_inj := tableHash_injective table
  keccak_inj _ _ h := Encodable.encode_injective (Nat.succ.inj h)
  keccak_ne_zero _ := Nat.succ_ne_zero _
  stateRoot_inj _ _ h := funext fun _ => h
  transactionRoot_inj := Encodable.encode_injective
  cid_inj := tableHash_injective _
  genesis_number := rfl
  genesis_stateRoot := rfl

end Boltchain.Chain
