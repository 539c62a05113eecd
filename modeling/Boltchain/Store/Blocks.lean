import Boltchain.Store.State

namespace Boltchain.Store

open Consensus (Bytes)
open Lib

/-- The header fields the block tables read; the others are in `rest`. -/
structure Header where
  number : Nat
  difficulty : U256
  transactionsRoot : B256
  rest : Bytes
  deriving DecidableEq

/-- What the tables read of a transaction; one without a recipient creates a contract. -/
structure Transaction where
  hash : B256
  nonce : Nat
  recipient : Option Address
  deriving DecidableEq

structure Log where
  address : Address
  topics : List B256
  deriving DecidableEq

structure Receipt where
  logs : List Log
  deriving DecidableEq

/-- A stored block: header plus body with recovered senders. -/
structure StoredBlock where
  header : Header
  transactions : List Transaction
  senders : List Address
  deriving DecidableEq

@[ext] structure Blocks where
  /-- Latest persisted block number. -/
  head : Option Nat
  /-- First block whose state history and body this node has. -/
  base : Nat
  /-- The lowest block of the address index, when it is enabled. -/
  addressIndexFrom : Option Nat
  headers : Nat → Option Header
  hashNum : B256 → Option Nat
  bodies : Nat → Option (List Transaction)
  senders : Nat → Option (List Address)
  receipts : Nat → Option (List Receipt)
  txIndex : B256 → Option (Nat × Nat)
  td : Nat → Option U256
  envelopes : Nat → Option Bytes
  addrTx : Address × Nat × Nat → Option UInt8

structure Db where
  state : State
  blocks : Blocks

section AddressIndex

def role.FROM : UInt8 := 1
def role.TO : UInt8 := 2
def role.CREATED : UInt8 := 4
def role.TOKEN : UInt8 := 8
def role.TOKEN_CONTRACT : UInt8 := 16

def addressFromWord (w : B256) : Address := ⟨Rlp.ofBe w.bytes % 2 ^ 160, Nat.mod_lt _ (by positivity)⟩

def TRANSFER_TOPIC : Nat := 0xddf252ad1be2c89b69c2b068fc378daa952ba7f163c4a11628f55a4df523b3ef

def addRole (out : List (Address × UInt8)) (a : Address) (r : UInt8) : List (Address × UInt8) :=
  if out.any (·.1 = a) then out.map fun e => if e.1 = a then (a, e.2 ||| r) else e else out ++ [(a, r)]

def logRoles (out : List (Address × UInt8)) (log : Log) : List (Address × UInt8) :=
  match log.topics with
  | topic :: src :: dst :: _ =>
    if Rlp.ofBe topic.bytes = TRANSFER_TOPIC then
      addRole (addRole (addRole out log.address role.TOKEN_CONTRACT) (addressFromWord src) role.TOKEN)
        (addressFromWord dst) role.TOKEN
    else out
  | _ => out

variable (create : Address → Nat → Address)

def entries (block : StoredBlock) (receipts : List Receipt) (i : Nat) : List (Address × UInt8) :=
  match block.transactions[i]? with
  | none => []
  | some tx =>
    let out := match block.senders[i]? with
      | none => []
      | some s =>
        let out := addRole [] s role.FROM
        if tx.recipient.isNone then addRole out (create s tx.nonce) role.CREATED else out
    let out := tx.recipient.elim out fun a => addRole out a role.TO
    (receipts[i]?).elim out fun r => r.logs.foldl logRoles out

/-- Where the index holds the entries of a block, with their roles. -/
def indexed (block : StoredBlock) (receipts : List Receipt) : List ((Address × Nat × Nat) × UInt8) :=
  (List.range block.transactions.length).flatMap fun i =>
    (entries create block receipts i).map fun e => ((e.1, block.header.number, i), e.2)

def indexBlock (b : Blocks) (block : StoredBlock) (receipts : List Receipt) : Blocks :=
  { b with
    addrTx := (indexed create block receipts).foldl
      (fun t e => Function.update t e.1 (some ((t e.1).getD 0 ||| e.2))) b.addrTx }

def unindexBlock (b : Blocks) (block : StoredBlock) (receipts : List Receipt) : Blocks :=
  { b with
    addrTx := (indexed create block receipts).foldl (fun t e => Function.update t e.1 none) b.addrTx }

end AddressIndex

structure Hashes where
  keccak256 : Bytes → B256
  /-- Hash of a header. -/
  hashSlow : Header → B256
  /-- Address of a contract created by a transaction. -/
  create : Address → Nat → Address

variable (c : Hashes)

def saturatingAdd (a b : U256) : U256 :=
  if h : a.val + b.val < 2 ^ 256 then ⟨a.val + b.val, h⟩ else ⟨2 ^ 256 - 1, by norm_num⟩

def parentTd (b : Blocks) (number : Nat) : U256 :=
  match number with
  | 0 => 0
  | p + 1 => (b.td p).getD 0

/-- Writes a block, its senders and receipts, indexes its transactions and moves the head. -/
def putBlock (b : Blocks) (block : StoredBlock) (receipts : List Receipt) : Blocks :=
  let number := block.header.number
  let b' : Blocks := { b with
    headers := Function.update b.headers number (some block.header)
    hashNum := Function.update b.hashNum (c.hashSlow block.header) (some number)
    bodies := Function.update b.bodies number (some block.transactions)
    senders := Function.update b.senders number (some block.senders)
    receipts := Function.update b.receipts number (some receipts)
    txIndex := block.transactions.zipIdx.foldl (fun t e => Function.update t e.1.hash (some (number, e.2))) b.txIndex
    td := Function.update b.td number (some (saturatingAdd (parentTd b number) block.header.difficulty))
    head := some number }
  if b.addressIndexFrom.isSome then indexBlock c.create b' block receipts else b'

def Blocks.block (b : Blocks) (number : Nat) : Option StoredBlock :=
  match b.headers number with
  | none => none
  | some header =>
    match b.bodies number with
    | none =>
      -- pruned, or before a snapshot base: only a block without transactions is complete
      if header.transactionsRoot ≠ Trie.emptyRootHash c.keccak256 then none else some ⟨header, [], []⟩
    | some transactions => some ⟨header, transactions, (b.senders number).getD []⟩

/-- Takes a transaction out of the index if it is indexed in this block. -/
def removeTx (number : Nat) (t : B256 → Option (Nat × Nat)) (tx : Transaction) : B256 → Option (Nat × Nat) :=
  if (t tx.hash).map Prod.fst = some number then Function.update t tx.hash none else t

/-- Removes block `number` (which must be the head) from the block tables and moves the head to its parent. -/
def removeHeadBlock (b : Blocks) (number : Nat) : Except StoreError (StoredBlock × Blocks) :=
  match b.block c number with
  | none => .error (.corrupt "headers")
  | some block =>
    let b := if b.addressIndexFrom.isSome then unindexBlock c.create b block ((b.receipts number).getD []) else b
    .ok (block, { b with
      txIndex := block.transactions.foldl (removeTx number) b.txIndex
      hashNum := Function.update b.hashNum (c.hashSlow block.header) none
      headers := Function.update b.headers number none
      bodies := Function.update b.bodies number none
      senders := Function.update b.senders number none
      receipts := Function.update b.receipts number none
      envelopes := Function.update b.envelopes number none
      td := Function.update b.td number none
      head := if number = 0 then none else some (number - 1) })

def Blocks.historyCovers (b : Blocks) (number : Nat) : Bool :=
  let head := b.head.getD 0
  decide (number ≤ head ∧ head - number ≤ HISTORY_BLOCKS ∧ b.base ≤ number)

/-- Undoes the head block: restores the state before it from the recorded history, removes the block and
moves the head to its parent. Returns the removed block and the restored state root. -/
def unwindHead (db : Db) : Except StoreError ((StoredBlock × B256) × Db) :=
  match db.blocks.head with
  | none => .error (.corrupt "unwind: empty chain")
  | some 0 => .error (.corrupt "unwind: cannot undo genesis")
  | some (p + 1) => do
    let (root, state) ← unwindState c.keccak256 (db.blocks.historyCovers (p + 1)) db.state (p + 1)
    let (block, blocks) ← removeHeadBlock c db.blocks (p + 1)
    .ok ((block, root), ⟨state, blocks⟩)

end Boltchain.Store
