import Boltchain.Store.Blocks

namespace Boltchain.Store

open Consensus (Bytes)
open Lib

structure InitAccount where
  nonce : Fin (2 ^ 64)
  balance : U256
  code : Bytes
  storage : List (U256 × U256)

def State.empty : State where
  accounts := Table.empty
  storage := Table.empty
  codes := fun _ => none
  trieAcc := fun _ => none
  trieSto := fun _ _ => none
  accHist := Table.empty
  stoHist := Table.empty
  histKeys := Table.empty

section Genesis

variable (keccak256 : Bytes → B256)

def initChanges (alloc : List (Address × InitAccount)) : StateChangeset where
  accounts := alloc.map fun e => (e.1, some ⟨e.2.nonce, e.2.balance, keccak256 e.2.code⟩)
  storage := alloc.map fun e => ⟨e.1, false, e.2.storage⟩
  contracts := (alloc.filter fun e => e.2.code ≠ []).map fun e => (keccak256 e.2.code, e.2.code)

def initState (st : State) (alloc : List (Address × InitAccount)) : Except StoreError (B256 × State) :=
  applyChanges keccak256 st (initChanges keccak256 alloc)

end Genesis

/-- One account entry of a snapshot chunk. An account with more storage than fits in one chunk continues in the
next ones (`x` set, account fields repeated). -/
structure SnapAccount where
  a : Bytes
  n : Fin (2 ^ 64)
  b : Bytes
  c : Bytes
  s : List (Bytes × Bytes)
  x : Bool
  deriving DecidableEq

def u256FromBe (bs : Bytes) : U256 := ⟨Rlp.ofBe bs % 2 ^ 256, Nat.mod_lt _ (by positivity)⟩

def addressFromSlice (bs : Bytes) : Address := ⟨Rlp.ofBe bs % 2 ^ 160, Nat.mod_lt _ (by positivity)⟩

def snapSlot (s : Bytes × Bytes) : Except StoreError (U256 × U256) :=
  if s.1.length = 32 ∧ s.2.length = 32 then .ok (u256FromBe s.1, u256FromBe s.2)
  else .error (.corrupt "snapshot slot")

def snapEntry (changes : StateChangeset) (e : SnapAccount) : Except StoreError StateChangeset :=
  if h : e.a.length = 20 ∧ e.b.length = 32 ∧ e.c.length = 32 then do
    let storage ← e.s.mapM snapSlot
    let info : AccountInfo := ⟨e.n, u256FromBe e.b, ⟨e.c, h.2.2⟩⟩
    .ok { changes with
      accounts := if e.x then changes.accounts else changes.accounts ++ [(addressFromSlice e.a, some info)]
      storage := if storage = [] then changes.storage
        else changes.storage ++ [⟨addressFromSlice e.a, false, storage⟩] }
  else .error (.corrupt "snapshot account")

/-- Applies the entries of one account chunk of a snapshot in order; continuations add storage. Returns the state
root after it. -/
def applySnapshotEntries (keccak256 : Bytes → B256) (st : State) (entries : List SnapAccount) :
    Except StoreError (B256 × State) := do
  let changes ← entries.foldlM snapEntry ⟨[], [], []⟩
  applyChanges keccak256 st changes

/-- Deletes all state (flat, tries, history) but keeps blocks and codes. -/
def resetState (st : State) : State := { State.empty with codes := st.codes }

inductive StoreOp where
  | applyBundle (number : Nat) (bundle : BundleState)
  | putBlock (block : StoredBlock) (receipts : List Receipt)
  | pruneHistory (head : Nat)
  | unwindHead
  | resetState
  | applySnapshot (entries : List SnapAccount)

/-- An operation in a transaction of its own: the root it returns, if any, and the tables after it. -/
def StoreOp.run (c : Hashes) (db : Db) : StoreOp → Except StoreError (Option B256 × Db)
  | .applyBundle number bundle => do
    let (root, state) ← Store.applyBundle c.keccak256 db.state number bundle
    .ok (some root, { db with state })
  | .putBlock block receipts => .ok (none, { db with blocks := Store.putBlock c db.blocks block receipts })
  | .pruneHistory head => .ok (none, { db with state := Store.pruneHistory db.state head })
  | .unwindHead => do
    let ((_, root), db) ← Store.unwindHead c db
    .ok (some root, db)
  | .resetState => .ok (none, { db with state := Store.resetState db.state })
  | .applySnapshot entries => do
    let (root, state) ← applySnapshotEntries c.keccak256 db.state entries
    .ok (some root, { db with state })

def StoreOp.step (c : Hashes) (s : Option B256 × Db) (op : StoreOp) : Option B256 × Db :=
  match op.run c s.2 with
  | .ok s' => s'
  | .error _ => s

end Boltchain.Store
