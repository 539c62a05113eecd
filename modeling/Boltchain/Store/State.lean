import Boltchain.Lib.Checked
import Boltchain.Lib.Table
import Boltchain.Store.Trie

namespace Boltchain.Store

open Consensus (Bytes)
open Lib

abbrev Address := Fin (2 ^ 160)

abbrev U256 := Fin (2 ^ 256)

def beBytes : Nat → Nat → Bytes
  | 0, _ => []
  | w + 1, n => beBytes w (n / 256) ++ [UInt8.ofNat n]

theorem length_beBytes (w n : Nat) : (beBytes w n).length = w := by
  induction w generalizing n with
  | zero => rfl
  | succ w ih => rw [beBytes, List.length_append, ih, List.length_singleton]

theorem ofBe_beBytes (w n : Nat) : Rlp.ofBe (beBytes w n) = n % 256 ^ w := by
  induction w generalizing n with
  | zero => rw [pow_zero, Nat.mod_one]; rfl
  | succ w ih =>
    have hlast : Rlp.ofBe (beBytes w (n / 256) ++ [UInt8.ofNat n]) = n % 256 + 256 * Rlp.ofBe (beBytes w (n / 256)) := by
      simp [Rlp.ofBe, Nat.ofDigits_cons]
    rw [beBytes, hlast, ih, pow_succ', Nat.mod_mul]

theorem beBytes_inj {w m n : Nat} (hm : m < 256 ^ w) (hn : n < 256 ^ w) (h : beBytes w m = beBytes w n) : m = n := by
  have := congrArg Rlp.ofBe h
  rwa [ofBe_beBytes, ofBe_beBytes, Nat.mod_eq_of_lt hm, Nat.mod_eq_of_lt hn] at this

structure AccountInfo where
  nonce : Fin (2 ^ 64)
  balance : U256
  codeHash : B256
  deriving DecidableEq

structure Account extends AccountInfo where
  /-- Root of the account's storage trie. -/
  storageRoot : B256
  deriving DecidableEq

section Values

theorem length_string_lt {s : Bytes} (h : s.length ≤ 32) : (Rlp.string s).length ≤ 33 := by
  unfold Rlp.string Rlp.header
  split
  case h_1 b =>
    split <;> simp
  case h_2 =>
    rw [if_pos (by omega)]
    simp
    omega

theorem length_toBe_u256 (v : U256) : (Rlp.toBe v.val).length ≤ 32 := by
  rw [Rlp.length_toBe]
  exact (Nat.digits_length_le_iff (by norm_num) v.val).2 (by have := v.isLt; simpa using this)

theorem string_ne_nil (s : Bytes) : Rlp.string s ≠ [] := by
  have hheader : ∀ n, Rlp.header false n ≠ [] := by
    intro n
    unfold Rlp.header
    split <;> simp
  unfold Rlp.string
  split
  · split <;> simp [hheader]
  · simp [hheader]

def slotValue (v : U256) : Value where
  bytes := Rlp.string (Rlp.toBe v.val)
  ne_nil := string_ne_nil _
  length_lt := by
    have := length_string_lt (length_toBe_u256 v)
    omega

theorem list_ne_nil (b : Bytes) : Rlp.list b ≠ [] := by
  unfold Rlp.list Rlp.header
  split <;> simp

theorem Account.length_trieValue_lt (a : Account) :
    (Rlp.list (Rlp.string (Rlp.toBe a.nonce.val) ++ Rlp.string (Rlp.toBe a.balance.val) ++
      Rlp.string a.storageRoot.bytes ++ Rlp.string a.codeHash.bytes)).length < 2 ^ 63 := by
  have hnonce := length_string_lt (s := Rlp.toBe a.nonce.val) (by
    have := Rlp.length_toBe_le a.nonce.isLt
    omega)
  have hbalance := length_string_lt (length_toBe_u256 a.balance)
  have hroot := length_string_lt (s := a.storageRoot.bytes) (by have := a.storageRoot.length_eq; omega)
  have hcode := length_string_lt (s := a.codeHash.bytes) (by have := a.codeHash.length_eq; omega)
  have hheader : ∀ n, n < 2 ^ 64 → (Rlp.header true n).length ≤ 9 := by
    intro n hn
    unfold Rlp.header
    split
    · simp
    · have := Rlp.length_toBe_le hn
      simp only [List.length_cons]
      omega
  rw [Rlp.list, List.length_append]
  have hlist := hheader (Rlp.string (Rlp.toBe a.nonce.val) ++ Rlp.string (Rlp.toBe a.balance.val) ++
    Rlp.string a.storageRoot.bytes ++ Rlp.string a.codeHash.bytes).length (by
      simp only [List.length_append]
      omega)
  simp only [List.length_append] at hlist ⊢
  omega

/-- Trie leaf value: RLP of `[nonce, balance, storage_root, code_hash]`. -/
def Account.trieValue (a : Account) : Value where
  bytes := Rlp.list (Rlp.string (Rlp.toBe a.nonce.val) ++ Rlp.string (Rlp.toBe a.balance.val) ++
    Rlp.string a.storageRoot.bytes ++ Rlp.string a.codeHash.bytes)
  ne_nil := list_ne_nil _
  length_lt := a.length_trieValue_lt

end Values

/-- Key of a storage slot. Keys are of fixed width and big-endian, so their order is that of the pair. -/
abbrev SlotKey := Address ×ₗ U256

def slotKey (addr : Address) (slot : U256) : SlotKey := toLex (addr, slot)

inductive HistKey where
  | account (addr : Address)
  | slot (addr : Address) (slot : U256)
  deriving DecidableEq

def HistKey.toSum : HistKey → Address ⊕ₗ SlotKey
  | .account a => Sum.inlₗ a
  | .slot a s => Sum.inrₗ (slotKey a s)

theorem HistKey.toSum_injective : Function.Injective HistKey.toSum := by
  rintro (a | ⟨a, s⟩) (b | ⟨b, t⟩) h
  · simpa [toSum] using h
  · simp [toSum] at h
  · simp [toSum] at h
  · simpa [toSum, slotKey] using h

instance : LinearOrder HistKey := LinearOrder.lift' HistKey.toSum HistKey.toSum_injective

structure PlainStorageChangeset where
  address : Address
  wipeStorage : Bool
  storage : List (U256 × U256)
  deriving DecidableEq

structure StateChangeset where
  accounts : List (Address × Option AccountInfo)
  storage : List PlainStorageChangeset
  contracts : List (B256 × Bytes)

inductive RevertToSlot where
  | some (value : U256)
  | destroyed
  deriving DecidableEq

structure PlainStorageRevert where
  address : Address
  wiped : Bool
  storageRevert : List (U256 × RevertToSlot)
  deriving DecidableEq

/-- Values before a block, in one list for each merge of its transitions. -/
structure PlainStateReverts where
  accounts : List (List (Address × Option AccountInfo))
  storage : List (List PlainStorageRevert)

structure BundleState where
  changes : StateChangeset
  reverts : PlainStateReverts

/-- The state tables: flat state, codes, tries by path, and the values before recent blocks. -/
structure State where
  accounts : Table Address Account
  storage : Table SlotKey U256
  codes : B256 → Option Bytes
  trieAcc : Path → Option Bytes
  trieSto : B256 → Path → Option Bytes
  accHist : Table (Address ×ₗ Nat) (Option AccountInfo)
  stoHist : Table (SlotKey ×ₗ Nat) U256
  histKeys : Table (Nat ×ₗ HistKey) Unit

inductive StoreError where
  | corrupt (what : String)
  | trie (e : TrieError)
  deriving DecidableEq

def trieErr {α : Type} : Except TrieError α → Except StoreError α
  | .ok a => .ok a
  | .error e => .error (.trie e)

section Changes

variable (keccak256 : Bytes → B256)

def keccakEmpty : B256 := keccak256 []

@[irreducible] def hashedAddress (addr : Address) : B256 := keccak256 (beBytes 20 addr.val)

@[irreducible] def hashedSlot (slot : U256) : B256 := keccak256 (beBytes 32 slot.val)

def Account.default : Account where
  nonce := 0
  balance := 0
  codeHash := keccakEmpty keccak256
  storageRoot := Trie.emptyRootHash keccak256

def State.wipe (st : State) (addr : Address) : State :=
  { st with
    storage := st.storage.keep fun k => (ofLex k).1 ≠ addr
    trieSto := Function.update st.trieSto (hashedAddress keccak256 addr) fun _ => none }

def writeSlot (addr : Address) (s : State × Trie) (w : U256 × U256) : Except StoreError (State × Trie) :=
  if w.2 = 0 then do
    let trie ← trieErr (s.2.removeKey (hashedSlot keccak256 w.1))
    .ok ({ s.1 with storage := s.1.storage.del (slotKey addr w.1) }, trie)
  else do
    let trie ← trieErr (s.2.insert (hashedSlot keccak256 w.1) (slotValue w.2))
    .ok ({ s.1 with storage := s.1.storage.put (slotKey addr w.1) w.2 }, trie)

/-- Writes the slots of one account and commits its storage trie. -/
def writeSlots (s : State × Table Address B256) (addr : Address) (slots : List (U256 × U256)) :
    Except StoreError (State × Table Address B256) := do
  let hashed := hashedAddress keccak256 addr
  let (st, trie) ← slots.foldlM (writeSlot keccak256 addr) (s.1, Trie.new (s.1.trieSto hashed))
  let (root, writes) ← trieErr (trie.commit keccak256)
  .ok ({ st with trieSto := Function.update st.trieSto hashed (applyWrites (st.trieSto hashed) writes) },
    s.2.put addr root)

/-- Storage changes of one account; the new storage roots are collected. -/
def applyStorage (s : State × Table Address B256) (c : PlainStorageChangeset) :
    Except StoreError (State × Table Address B256) :=
  let st := if c.wipeStorage then s.1.wipe keccak256 c.address else s.1
  if c.storage = [] then
    .ok (st, if c.wipeStorage then s.2.put c.address (Trie.emptyRootHash keccak256) else s.2)
  else writeSlots keccak256 (st, s.2) c.address c.storage

/-- The accounts to write, including those whose only change was storage. -/
def accountsToWrite (st : State) (roots : Table Address B256) (accounts : List (Address × Option AccountInfo)) :
    Table Address (Option AccountInfo) :=
  let infos := accounts.foldl (fun t e => t.put e.1 e.2) Table.empty
  roots.entries.foldl (fun t e =>
    if (t.get e.1).isSome then t
    else t.put e.1 (some ((st.accounts.get e.1).getD (Account.default keccak256)).toAccountInfo)) infos

def writeAccount (roots : Table Address B256) (s : State × Trie) (w : Address × Option AccountInfo) :
    Except StoreError (State × Trie) :=
  match w.2 with
  | none => do
    let trie ← trieErr (s.2.removeKey (hashedAddress keccak256 w.1))
    .ok ({ s.1.wipe keccak256 w.1 with accounts := s.1.accounts.del w.1 }, trie)
  | some info => do
    let storageRoot := (roots.get w.1).getD
      (((s.1.accounts.get w.1).map Account.storageRoot).getD (Trie.emptyRootHash keccak256))
    let acc : Account := { info with storageRoot }
    let trie ← trieErr (s.2.insert (hashedAddress keccak256 w.1) acc.trieValue)
    .ok ({ s.1 with accounts := s.1.accounts.put w.1 acc }, trie)

def putCodes (codes : B256 → Option Bytes) (contracts : List (B256 × Bytes)) : B256 → Option Bytes :=
  contracts.foldl (fun codes c => Function.update codes c.1 (some c.2)) codes

/-- Applies changes to the flat state and the tries. Returns the new state root. -/
def applyChanges (st : State) (changes : StateChangeset) : Except StoreError (B256 × State) := do
  let st := { st with codes := putCodes st.codes changes.contracts }
  let (st, roots) ← changes.storage.foldlM (applyStorage keccak256) (st, Table.empty)
  let infos := accountsToWrite keccak256 st roots changes.accounts
  let (st, trie) ← infos.entries.foldlM (writeAccount keccak256 roots) (st, Trie.new st.trieAcc)
  let (root, writes) ← trieErr (trie.commit keccak256)
  .ok (root, { st with trieAcc := applyWrites st.trieAcc writes })

end Changes

section History

def recordAccount (number : Nat) (st : State) (r : Address × Option AccountInfo) : State :=
  { st with
    accHist := st.accHist.put (toLex (r.1, number)) r.2
    histKeys := st.histKeys.put (toLex (number, .account r.1)) () }

/-- A wiped slot was empty before the block: since EIP-6780 storage is wiped for contracts created in the
same transaction only. -/
def RevertToSlot.value : RevertToSlot → U256
  | .some v => v
  | .destroyed => 0

def recordSlot (number : Nat) (addr : Address) (st : State) (r : U256 × RevertToSlot) : State :=
  { st with
    stoHist := st.stoHist.put (toLex (slotKey addr r.1, number)) r.2.value
    histKeys := st.histKeys.put (toLex (number, .slot addr r.1)) () }

/-- Records prior values so that state as of recent blocks can be served. -/
def writeHistory (st : State) (number : Nat) (reverts : PlainStateReverts) : State :=
  let st := reverts.accounts.flatten.foldl (recordAccount number) st
  reverts.storage.flatten.foldl (fun st s => s.storageRevert.foldl (recordSlot number s.address) st) st

/-- Applies one block's execution result: flat state, tries and history. Returns the new state root. -/
def applyBundle (keccak256 : Bytes → B256) (st : State) (number : Nat) (bundle : BundleState) :
    Except StoreError (B256 × State) :=
  applyChanges keccak256 (writeHistory st number bundle.reverts) bundle.changes

structure Undo where
  st : State
  accounts : List (Address × Option AccountInfo)
  storage : Table Address (List (U256 × U256))

def undoKey (number : Nat) (u : Undo) (k : HistKey) : Except StoreError Undo :=
  match k with
  | .account addr =>
    match u.st.accHist.get (toLex (addr, number)) with
    | none => .error (.corrupt "acc_hist")
    | some prior =>
      .ok { u with
        accounts := u.accounts ++ [(addr, prior)]
        st := { u.st with
          accHist := u.st.accHist.del (toLex (addr, number))
          histKeys := u.st.histKeys.del (toLex (number, .account addr)) } }
  | .slot addr slot =>
    match u.st.stoHist.get (toLex (slotKey addr slot, number)) with
    | none => .error (.corrupt "sto_hist")
    | some prior =>
      .ok { u with
        storage := u.storage.put addr ((u.storage.get addr).getD [] ++ [(slot, prior)])
        st := { u.st with
          stoHist := u.st.stoHist.del (toLex (slotKey addr slot, number))
          histKeys := u.st.histKeys.del (toLex (number, .slot addr slot)) } }

/-- What the history of a block is about, in the order of its keys. -/
def keysOf (st : State) (number : Nat) : List HistKey :=
  (st.histKeys.entries.filter fun e => (ofLex e.1).1 = number).map fun e => (ofLex e.1).2

/-- Applies the history recorded for block `number` in reverse and deletes it. -/
def unwindState (keccak256 : Bytes → B256) (covers : Bool) (st : State) (number : Nat) :
    Except StoreError (B256 × State) := do
  let keys := keysOf st number
  if keys = [] ∧ covers = false then .error (.corrupt "unwind: history pruned")
  else
    let u ← keys.foldlM (undoKey number) ⟨st, [], Table.empty⟩
    applyChanges keccak256 u.st {
      accounts := u.accounts
      storage := u.storage.entries.map fun e => ⟨e.1, false, e.2⟩
      contracts := [] }

def HISTORY_BLOCKS : Nat := 128

def pruneKey (st : State) (k : Nat ×ₗ HistKey) : State :=
  match (ofLex k).2 with
  | .account addr =>
    { st with accHist := st.accHist.del (toLex (addr, (ofLex k).1)), histKeys := st.histKeys.del k }
  | .slot addr slot =>
    { st with stoHist := st.stoHist.del (toLex (slotKey addr slot, (ofLex k).1)), histKeys := st.histKeys.del k }

def pruneHistory (st : State) (head : Nat) : State :=
  if head < HISTORY_BLOCKS then st
  else ((st.histKeys.entries.filter fun e => (ofLex e.1).1 ≤ head - HISTORY_BLOCKS).map Prod.fst).foldl pruneKey st

/-- Account info as of the end of block `number`: before the next block that changed it, or now. -/
def accountAt (st : State) (addr : Address) (number : Nat) : Option AccountInfo :=
  match st.accHist.seek (toLex (addr, number + 1)) with
  | some (k, prior) => if (ofLex k).1 = addr then prior else (st.accounts.get addr).map Account.toAccountInfo
  | none => (st.accounts.get addr).map Account.toAccountInfo

def State.slot (st : State) (addr : Address) (slot : U256) : U256 := (st.storage.get (slotKey addr slot)).getD 0

def storageAt (st : State) (addr : Address) (slot : U256) (number : Nat) : U256 :=
  match st.stoHist.seek (toLex (slotKey addr slot, number + 1)) with
  | some (k, prior) => if (ofLex k).1 = slotKey addr slot then prior else st.slot addr slot
  | none => st.slot addr slot

end History

end Boltchain.Store
