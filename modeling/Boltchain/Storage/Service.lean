import Boltchain.System.Rendezvous

namespace Boltchain.Storage

open Consensus (Bytes Hash)

def dealGroup : Nat := 1024

def fetchBatch : Nat := 64

def keepSnapshots : Nat := 2

structure DealIndex (Cid : Type) where
  v : Nat
  size : Nat
  count : Nat
  groups : List Cid
  root : Option Cid

def DealIndex.wellFormed {Cid : Type} (i : DealIndex Cid) : Bool :=
  i.v == 1 && i.groups.length == (i.count + (dealGroup - 1)) / dealGroup

structure Snapshot (Cid : Type) where
  number : Nat
  accounts : List Cid
  codes : List Cid

def Snapshot.chunks {Cid : Type} (s : Snapshot Cid) : List Cid := s.accounts ++ s.codes

/-- What the blocks of the CIDs decode to: a CID names one block, whichever part of the node stored it. -/
structure Contents (Cid : Type) where
  dealIndex : Cid → Option (DealIndex Cid)
  group : Cid → Option (List Cid)
  /-- Body chunks of an envelope. -/
  envelope : Cid → Option (List Cid)
  snapshot : Cid → Option (Snapshot Cid)

variable {Cid : Type} [DecidableEq Cid]

namespace Contents

variable (K : Contents Cid)

def decodeDeal (root : Cid) : Option (DealIndex Cid) := (K.dealIndex root).filter DealIndex.wellFormed

def members (g : Cid) : List Cid := (K.group g).getD []

/-- Every block of a deal: the index root, its groups and the blocks they list. -/
def dealBlocks (root : Cid) : List Cid :=
  root :: (K.decodeDeal root).elim [] fun idx => idx.groups ++ idx.groups.flatMap K.members

end Contents

/-- A storage deal as the contract has it: the parsed root, and provider and open flag of each copy. -/
structure Deal (Cid : Type) where
  root : Option Cid
  closed : Bool
  endEpoch : Nat
  slots : List (Nat × Bool)

structure Rules where
  epochSlots : Nat
  historyRecentEpochs : Nat

namespace Rules

variable (r : Rules)

def epochOf (height : Nat) : Nat := if height = 0 then 0 else (height - 1) / r.epochSlots

def epochEnd (epoch : Nat) : Nat := (epoch + 1) * r.epochSlots

def heights (epoch : Nat) : List Nat := List.range' (epoch * r.epochSlots + 1) r.epochSlots

end Rules

/-- What the storage service reads of the chain: its head, the contracts and the provider ids of this node. -/
structure View (Cid : Type) where
  head : Nat
  dealCount : Nat
  deals : Nat → Deal Cid
  dealsOf : Nat → List Nat
  epochIndex : Nat → Bytes
  validators : List Nat
  storage : List Nat
  mine : List Nat

namespace View

variable (v : View Cid)

def holds (d id : Nat) : Bool := (v.deals d).slots.any fun s => s.2 && s.1 == id

def live (r : Rules) (d : Nat) : Bool :=
  v.mine.any (v.holds d) && !(v.deals d).closed && decide (r.epochOf (v.head + 1) < (v.deals d).endEpoch)

def assigned (r : Rules) (d : Nat) : Bool :=
  decide (v.dealCount ≠ 0) && v.mine.any (fun id => (v.dealsOf id).contains d && v.holds d id) &&
    !(v.deals d).closed && decide (r.epochOf (v.head + 1) < (v.deals d).endEpoch)

end View

inductive Stage (Cid : Type) where
  | root
  | groups (idx : DealIndex Cid)
  | leaves (idx : DealIndex Cid) (list : List Cid)

/-- A deal that is being fetched: what is there of the present stage, and what is still missing. -/
structure DealJob (Cid : Type) where
  deal : Nat
  root : Cid
  stage : Stage Cid
  out : Finset Cid
  missing : List Cid

structure PruneJob where
  lastOld : Nat
  next : Nat
  validators : List Nat
  storage : List Nat
  mine : List Nat
  deriving DecidableEq

/-- A snapshot that is being taken: those there were, its root and the blocks not written yet. -/
structure SnapshotJob (Cid : Type) where
  existing : List Cid
  root : Cid
  unwritten : List Cid

/-- The storage side of a node. All its parts share one blockstore. -/
structure Service (Cid : Type) where
  store : Finset Cid
  envelopes : Nat → Option Cid
  bodies : Nat → Bool
  snapshots : List Cid
  view : View Cid
  kept : List (Nat × Cid)
  pruned : List Nat
  dealJob : Option (DealJob Cid)
  pruneJob : Option PruneJob
  snapshotJob : Option (SnapshotJob Cid)

def DealJob.request (deal : Nat) (root : Cid) (stage : Stage Cid) (store : Finset Cid) (cids : List Cid) :
    DealJob Cid where
  deal := deal
  root := root
  stage := stage
  out := cids.toFinset ∩ store
  missing := cids.filter (· ∉ store)

namespace Service

section

variable (K : Contents Cid) (r : Rules) (s : Service Cid)

def read {α : Type} (store : Finset Cid) (decode : Cid → Option α) (c : Cid) : Option α :=
  if c ∈ store then decode c else none

def dealStart (d : Nat) : Service Cid :=
  if s.dealJob.isSome || s.kept.any (·.1 == d) || !s.view.assigned r d then s
  else
    match (s.view.deals d).root with
    | none => s
    | some root => { s with dealJob := some (.request d root .root s.store [root]) }

/-- What follows when nothing of a stage is missing any more: the next stage, or the deal is kept, or it is given up. -/
def dealAdvance (j : DealJob Cid) : Service Cid :=
  match j.stage with
  | .root =>
    match if j.root ∈ j.out then K.decodeDeal j.root else none with
    | none => { s with dealJob := none }
    | some idx => { s with dealJob := some (.request j.deal j.root (.groups idx) s.store idx.groups) }
  | .groups idx =>
    match if idx.groups.all (· ∈ j.out) then idx.groups.mapM K.group else none with
    | none => { s with dealJob := none }
    | some lists =>
      if lists.flatten.length ≠ idx.count then { s with dealJob := none }
      else { s with dealJob := some (.request j.deal j.root (.leaves idx lists.flatten) s.store lists.flatten) }
  | .leaves _ list =>
    if j.out.card < list.toFinset.card then { s with dealJob := none }
    else { s with dealJob := none, kept := (j.deal, j.root) :: s.kept.filter (·.1 != j.deal) }

/-- The next step of the deal that is being fetched, with what the network answers to the next batch. -/
def dealGo (answer : Option (List Cid)) : Service Cid :=
  match s.dealJob with
  | none => s
  | some j =>
    match j.missing with
    | [] => s.dealAdvance K j
    | _ =>
      match answer with
      | none => { s with dealJob := none }
      | some blocks =>
        let got := (blocks.filter (· ∈ j.missing.take fetchBatch)).toFinset
        { s with
          store := s.store ∪ got
          dealJob := some { j with out := j.out ∪ got, missing := j.missing.drop fetchBatch } }

/-- Drops the body of a block, with its chunks in the blockstore. Header and envelope stay. -/
def pruneBlock (number : Nat) : Service Cid :=
  if s.bodies number then
    { s with
      bodies := Function.update s.bodies number false
      store := s.store \ (((s.envelopes number).bind (read s.store K.envelope)).getD []).toFinset }
  else s

def pruneEpoch (epoch : Nat) : Service Cid := (r.heights epoch).foldl (pruneBlock K) s

def pruneStart : Service Cid :=
  let epoch := r.epochOf s.view.head
  if s.pruneJob.isSome || decide (epoch < r.historyRecentEpochs + 1) then s
  else
    { s with
      pruneJob := some {
        lastOld := epoch - (r.historyRecentEpochs + 1)
        next := 0
        validators := s.view.validators.mergeSort fun a b => decide (a ≤ b)
        storage := s.view.storage
        mine := s.view.mine } }

/-- Whether the round is to prune its next epoch: it has an index, no id of this node keeps it, and it is not pruned yet. -/
def prunes (keccak256 : Bytes → Hash) (j : PruneJob) : Bool :=
  let index := s.view.epochIndex j.next
  !index.isEmpty && !(System.assignees keccak256 index j.validators j.storage).any (j.mine.contains ·) &&
    !s.pruned.contains j.next

/-- The next epoch of a round. An epoch this node keeps is completed with what the network answers. -/
def pruneNext (keccak256 : Bytes → Hash) (answer : Option (List Cid)) : Service Cid :=
  match s.pruneJob with
  | none => s
  | some j =>
    let rest := if j.next < j.lastOld then some { j with next := j.next + 1 } else none
    let index := s.view.epochIndex j.next
    if index.isEmpty then { s with pruneJob := rest }
    else if (System.assignees keccak256 index j.validators j.storage).any (j.mine.contains ·) then
      match answer with
      | none => { s with pruneJob := none }
      | some blocks => { s with store := s.store ∪ blocks.toFinset, pruneJob := rest }
    else if s.pruned.contains j.next then { s with pruneJob := rest }
    else { s.pruneEpoch K r j.next with pruneJob := rest, pruned := j.next :: s.pruned }

def listed : List (Nat × Cid) :=
  s.snapshots.filterMap fun c => (read s.store K.snapshot c).map fun x => (x.number, c)

/-- Starts a snapshot of the head, whose root is `root`, if it ends an epoch and has none. -/
def snapshotStart (root : Cid) : Service Cid :=
  let number := s.view.head
  if s.snapshotJob.isSome || number == 0 || r.epochEnd (r.epochOf number) != number ||
      (s.listed K).any (·.1 == number) then s
  else
    match (K.snapshot root).filter fun x => x.number == number with
    | none => s
    | some x =>
      { s with snapshotJob := some ⟨(s.listed K).map (·.2), root, x.chunks ++ [root]⟩ }

def snapshotWrite (count : Nat) : Service Cid :=
  match s.snapshotJob with
  | none => s
  | some j =>
    { s with
      store := s.store ∪ (j.unwritten.take count).toFinset
      snapshotJob := some { j with unwritten := j.unwritten.drop count } }

end

def keptChunks (K : Contents Cid) (store : Finset Cid) (roots : List Cid) : List Cid :=
  roots.flatMap fun c => ((read store K.snapshot c).map Snapshot.chunks).getD []

/-- Deletes a snapshot: its chunks that no kept one shares, and its root. -/
def dropSnapshot (K : Contents Cid) (keep : List Cid) (store : Finset Cid) (c : Cid) : Finset Cid :=
  (store \ ((((read store K.snapshot c).map Snapshot.chunks).getD []).filter (· ∉ keep)).toFinset).erase c

variable (K : Contents Cid) (r : Rules) (s : Service Cid)

def snapshotFinish : Service Cid :=
  match s.snapshotJob with
  | some ⟨existing, root, []⟩ =>
    let all := existing ++ [root]
    let roots := all.drop (all.length - keepSnapshots)
    let old := all.take (all.length - keepSnapshots)
    { s with
      store := old.foldl (dropSnapshot K (keptChunks K s.store roots)) s.store
      snapshots := roots
      snapshotJob := none }
  | _ => s

def commit (number : Nat) (root : Cid) : Service Cid :=
  { s with
    store := s.store ∪ (root :: (K.envelope root).getD []).toFinset
    envelopes := Function.update s.envelopes number (some root)
    bodies := Function.update s.bodies number true }

def undo (number : Nat) : Service Cid :=
  { s with
    envelopes := Function.update s.envelopes number none
    bodies := Function.update s.bodies number false }

def restart : Service Cid :=
  { s with kept := [], pruned := [], dealJob := none, pruneJob := none, snapshotJob := none }

end Service

/-- What happens to the storage side of a node, in any order: its own jobs step by step, and what the chain and others
store. -/
inductive Move (Cid : Type) where
  | commit (number : Nat) (root : Cid)
  | undo (number : Nat)
  | put (blocks : List Cid)
  | observe (view : View Cid)
  | restart
  | dealStart (deal : Nat)
  | dealGo (answer : Option (List Cid))
  | pruneStart
  | pruneNext (answer : Option (List Cid))
  | snapshotStart (root : Cid)
  | snapshotWrite (count : Nat)
  | snapshotFinish

namespace Service

variable (K : Contents Cid) (r : Rules) (keccak256 : Bytes → Hash)

def step (s : Service Cid) : Move Cid → Service Cid
  | .commit number root => s.commit K number root
  | .undo number => s.undo number
  | .put blocks => { s with store := s.store ∪ blocks.toFinset }
  | .observe view => { s with view }
  | .restart => s.restart
  | .dealStart d => s.dealStart r d
  | .dealGo answer => s.dealGo K answer
  | .pruneStart => s.pruneStart r
  | .pruneNext answer => s.pruneNext K r keccak256 answer
  | .snapshotStart root => s.snapshotStart K r root
  | .snapshotWrite count => s.snapshotWrite count
  | .snapshotFinish => s.snapshotFinish K

def run (s : Service Cid) (moves : List (Move Cid)) : Service Cid := moves.foldl (step K r keccak256) s

def opened (view : View Cid) : Service Cid where
  store := ∅
  envelopes := fun _ => none
  bodies := fun _ => false
  snapshots := []
  view := view
  kept := []
  pruned := []
  dealJob := none
  pruneJob := none
  snapshotJob := none

end Service

end Boltchain.Storage
