import Boltchain.Chain.Reorg

namespace Boltchain.Chain

open Consensus (Bytes Hash)
open Lib.Action

variable {W : World}

def World.epochEnd (W : World) (epoch : Nat) : Nat := (epoch + 1) * W.epochSlots

/-- The head of a state snapshot, without the chunks it lists. -/
structure SnapshotRoot where
  number : Nat
  hash : Hash
  stateRoot : Hash
  td : Nat
  envelope : Cid

namespace Node

variable (n : Node W)

/-- Whether a block can no longer be reverted: produced under PoS, covered by a checkpoint, or buried deeper than any
allowed reorganisation. -/
def isFinal (number : Nat) : Except ChainError Bool := do
  let phase ← orThrow (W.phase n.state) (.exec .query)
  return phase.isPos W number || (n.finalized.any fun f => decide (number ≤ f.1)) ||
    decide (number + maxReorgDepth ≤ n.head.number)

def snapshotRoot : SnapshotRoot where
  number := n.head.number
  hash := W.hash n.head
  stateRoot := n.head.stateRoot
  td := n.tip.td
  envelope := n.tip.root

end Node

def keepSnapshots : Nat := 2

/-- A snapshot that is built while the chain goes on: those there were when it started, and its root. -/
structure Build where
  existing : List SnapshotRoot
  root : SnapshotRoot

structure Keeper (W : World) where
  node : Node W
  snapshots : List SnapshotRoot
  building : Option Build

namespace Keeper

variable (k : Keeper W)

def opened (W : World) : Keeper W := ⟨.opened W, [], none⟩

/-- Starts a snapshot of the head if it ends an epoch and none of its number is kept. -/
def startSnapshot : Option Build :=
  let number := k.node.head.number
  if number = 0 ∨ W.epochEnd (W.epochOf number) ≠ number then none
  else if k.snapshots.any (·.number == number) then none
  else some ⟨k.snapshots, k.node.snapshotRoot⟩

def record (b : Build) : List SnapshotRoot :=
  let roots := b.existing ++ [b.root]
  roots.drop (roots.length - keepSnapshots)

/-- What the node publishes: the number, the canonical hash there and the root of each final snapshot. -/
def announce : List (Nat × Hash × SnapshotRoot) :=
  k.snapshots.reverse.filterMap fun s =>
    match k.node.isFinal s.number with
    | .ok true => (k.node.hashAt s.number).map fun hash => (s.number, hash, s)
    | _ => none

end Keeper

/-- A call on the chain, or the start or the end of taking a snapshot. -/
inductive Move (W : World) where
  | call (c : Call W)
  | start
  | finish

namespace Keeper

/-- One move. One snapshot is built at a time, and one that is being built is lost when the node stops. -/
def step (k : Keeper W) : Move W → Keeper W
  | .call .reopen => { k with node := k.node.after .reopen, building := none }
  | .call c => { k with node := k.node.after c }
  | .start => if k.building.isSome then k else { k with building := k.startSnapshot }
  | .finish => k.building.elim k fun b => { k with snapshots := record b, building := none }

def run (k : Keeper W) (moves : List (Move W)) : Keeper W := moves.foldl step k

end Keeper

def SnapshotRoot.Canonical (s : SnapshotRoot) (n : Node W) : Prop :=
  ∃ b, n.blockAt s.number = some b ∧ W.hash b.header = s.hash ∧ b.header.stateRoot = s.stateRoot

/-- Snapshots of final blocks, and what is announced of them, are of canonical blocks. -/
structure Keeper.Serves (k : Keeper W) : Prop where
  listed : ∀ s ∈ k.snapshots, k.node.isFinal s.number = .ok true → s.Canonical k.node
  announced : ∀ a ∈ k.announce, a.2.2 ∈ k.snapshots ∧ a.2.2.number = a.1 ∧ a.2.2.hash = a.2.1 ∧ a.2.2.Canonical k.node

/-- The height down to which the import of a mined block unwinds the canonical chain. -/
def Node.importFork (n : Node W) (now : Nat) (header : Header) (txs : List W.Tx) (root : Option Cid) (cert : Certs) :
    Option Nat :=
  match n.offered now header txs root cert with
  | none => none
  | some b => if n.Outweighs b then none else ((n.insertSide b).switches (W.hash header)).map (·.2)

/-- The height down to which a call unwinds the canonical chain to switch branches. -/
def Node.switchFork (n : Node W) : Call W → Option Nat
  | .importMined now header txs root => n.importFork now header txs root ⟨[], []⟩
  | .importMinedWithCert now header txs root cert => n.importFork now header txs root cert
  | .finalize hash height =>
    if (n.finalized.any fun f => decide (height ≤ f.1)) || (n.block hash).isSome then none
    else (n.switches hash).map (·.2)
  | _ => none

section Stays

variable {n n' : Node W} {b : StoredBlock W} {header : Header} {txs : List W.Tx} {root : Option Cid} {certs : Certs}
  {fork : Nat}

abbrev Stays {α : Type} (b : StoredBlock W) (m : Act W α) : Prop := Keeps (fun n => b ∈ n.canonical) m

theorem Stays.importFinal (b : StoredBlock W) (header : Header) (txs : List W.Tx) (root : Option Cid) (certs : Certs) :
    Stays b (Chain.importFinal header txs root certs) := by
  intro n hb
  refine (importFinal_spec n header txs root certs).mono ?_ ?_
  · rintro _ _ ⟨p, -, -, -, -, rfl⟩
    exact List.mem_cons_of_mem _ hb
  · rintro _ _ (rfl | ⟨p, -, rfl | rfl⟩) <;> exact hb

theorem Stays.unwindTo (hle : b.header.number ≤ fork) : Stays b (Chain.unwindTo (W := W) fork) := by
  intro n hb
  refine (unwindTo_spec n fork).mono ?_ ?_
  · rintro _ n' ⟨removed, hu, -⟩
    have hmem : b ∈ removed ++ n'.canonical := hu.canonical ▸ hb
    rcases List.mem_append.1 hmem with hr | hr
    · have := hu.above b hr
      omega
    · exact hr
  · rintro _ _ rfl
    exact hb

theorem Stays.reimport (undone : List (SideBlock W)) : Stays b (Chain.reimport undone) := by
  induction undone with
  | nil => exact .pure _
  | cons o undone ih => exact .bind (.modify fun _ hb => hb) fun _ => .bind (Stays.importFinal b _ _ _ _) fun _ => ih

theorem Stays.rollBack (hle : b.header.number ≤ fork) (undone invalid : List (SideBlock W)) :
    Stays b (Chain.rollBack fork undone invalid) := by
  refine .bind (.modify fun n hb => ?_) fun _ => .bind (Stays.unwindTo hle) fun _ => Stays.reimport undone
  rw [foldl_removeSide]
  exact hb

theorem Stays.adopt (hle : b.header.number ≤ fork) (undone branch : List (SideBlock W)) :
    Stays b (Chain.adopt fork undone branch) := by
  induction branch with
  | nil => exact .pure _
  | cons d branch ih =>
    intro n hb
    have himport := Stays.importFinal b d.header d.transactions d.root d.cert n hb
    unfold Ends Chain.adopt
    cases hm : Chain.importFinal d.header d.transactions d.root d.cert n with
    | ok a n₁ =>
      have hb₁ : b ∈ n₁.canonical := himport.of_ok hm
      exact ih (n₁.removeSide (W.hash d.header)) hb₁
    | error e n₁ =>
      exact Keeps.bind (Stays.rollBack hle undone (d :: branch)) (fun _ => .throw e) n₁ (himport.of_error hm)

theorem unwind_of_unwindTo {undone : List (SideBlock W)} (h : Chain.unwindTo fork n = .ok undone n') :
    Node.unwind fork n.below { n with pending := [] } [] = .ok (n', undone) := by
  rw [Chain.unwindTo, modify_bind, get_bind] at h
  obtain ⟨⟨m, u⟩, m', hlift, h⟩ := bind_ok h
  obtain ⟨hu, rfl⟩ := lift_eq_ok hlift
  cases h
  exact hu

theorem stays_reorgTo {tip : Hash} (hb : b ∈ n.canonical)
    (hfork : ∀ branch fork, n.switches tip = some (branch, fork) → b.header.number ≤ fork) :
    Ends (reorgTo tip) n (fun _ n' => b ∈ n'.canonical) (fun _ n' => b ∈ n'.canonical) := by
  unfold reorgTo
  refine Ends.bind ?_
  show Ends _ n _ _
  refine Ends.bind (Ends.lift ?_ fun _ _ => hb)
  rintro ⟨branch, fork⟩ hbranch
  refine Ends.bind (Ends.lift ?_ fun _ _ => hb)
  rintro _ hcheck
  cases hm : Chain.unwindTo fork n with
  | error e n' =>
    have hsame := (unwindTo_spec n fork).of_error hm
    unfold Ends
    rw [bind_of_error hm, hsame]
    exact hb
  | ok undone n' =>
    have hswitch : n.switches tip = some (branch, fork) := by
      rw [Node.switches, hbranch]
      simp only [hcheck, unwind_of_unwindTo hm]
    have hle := hfork branch fork hswitch
    refine Keeps.bind (Stays.unwindTo hle) (fun undone => ?_) n hb
    refine Keeps.bind (Stays.adopt hle undone branch) fun _ => Keeps.bind (.modify fun n hb => ?_) fun _ => .pure _
    rw [foldl_insertSide]
    exact hb

theorem stays_importMined {now : Nat} {cert : Certs} (hb : b ∈ n.canonical)
    (hfork : ∀ fork ∈ n.importFork now header txs root cert, b.header.number ≤ fork) :
    Ends (importMinedWithCert now header txs root cert) n (fun _ n' => b ∈ n'.canonical)
      (fun _ n' => b ∈ n'.canonical) := by
  have hfinal := Stays.importFinal b header txs root cert n hb
  cases hoff : n.offered now header txs root cert with
  | none =>
    refine (importMined_refused hoff).mono ?_ ?_
    · rintro _ _ (rfl | ⟨-, a, hm⟩)
      · exact hb
      · exact hfinal.of_ok hm
    · rintro _ _ (rfl | hm)
      · exact hb
      · exact hfinal.of_error hm
  | some d =>
    have hb' : b ∈ (n.insertSide d).canonical := hb
    unfold Ends
    rw [importMined_offered hoff]
    by_cases hless : n.Outweighs d
    · rw [if_pos hless]
      exact hb'
    · rw [if_neg hless]
      have habove : ∀ branch fork, (n.insertSide d).switches (W.hash header) = some (branch, fork) →
          b.header.number ≤ fork :=
        fun branch fork hswitch => hfork fork (by simp [Node.importFork, hoff, hless, hswitch])
      exact Ends.bind ((stays_reorgTo hb' habove).mono (fun _ _ h => h) fun _ _ h => h)

theorem stays_finalize {hash : Hash} {height : Nat} (hb : b ∈ n.canonical)
    (hfork : ∀ fork ∈ n.switchFork (.finalize hash height), b.header.number ≤ fork) :
    Ends (finalize hash height) n (fun _ n' => b ∈ n'.canonical) (fun _ n' => b ∈ n'.canonical) := by
  unfold finalize
  refine Ends.bind ?_
  show Ends (ite _ _ _) n _ _
  split
  case isTrue => exact hb
  case isFalse hnew =>
    refine Ends.bind (Ends.lift ?_ fun _ _ => hb)
    rintro ⟨header, td, canonical⟩ hloc
    refine Ends.bind (Ends.lift (fun _ _ => ?_) fun _ _ => hb)
    have hswitch : Ends (switchTo hash canonical) n (fun _ n' => b ∈ n'.canonical) (fun _ n' => b ∈ n'.canonical) := by
      cases canonical with
      | true => exact hb
      | false =>
        have haside : n.block hash = none := by
          have hloc := orThrow_eq_ok.1 hloc
          unfold Node.locate at hloc
          split at hloc
          case h_1 => cases hloc
          case h_2 hnone => exact hnone
        have habove : ∀ branch fork, n.switches hash = some (branch, fork) → b.header.number ≤ fork :=
          fun branch fork hsw => hfork fork (by simp [Node.switchFork, hnew, haside, hsw])
        exact Ends.bind ((stays_reorgTo hb habove).mono (fun _ _ h => h) fun _ _ h => h)
    exact Ends.bind (hswitch.mono (fun _ _ h => h) fun _ _ h => h)

/-- A call leaves the canonical blocks up to the height it unwinds to. -/
theorem Node.mem_after {c : Call W} (hb : b ∈ n.canonical) (hfork : ∀ fork ∈ n.switchFork c, b.header.number ≤ fork) :
    b ∈ (n.after c).canonical := by
  have hends : Ends c.run n (fun _ n' => b ∈ n'.canonical) (fun _ n' => b ∈ n'.canonical) := by
    cases c with
    | importMined now header txs root => exact Ends.bind (stays_importMined hb hfork)
    | importMinedWithCert now header txs root cert => exact Ends.bind (stays_importMined hb hfork)
    | finalize hash height => exact Ends.bind (stays_finalize hb hfork)
    | importFinal header txs root certs =>
      exact Ends.bind (Stays.importFinal b header txs root certs n hb)
    | verifyBlock header txs certs =>
      refine Ends.bind ((verify_spec n header txs certs).mono ?_ ?_)
      · rintro p _ ⟨-, rfl⟩
        exact hb
      · rintro _ _ rfl
        exact hb
    | buildOn parent candidates timestamp beneficiary extraData certs =>
      exact Ends.bind (Ends.bind (Ends.bind (Ends.lift (fun _ _ => hb) fun _ _ => hb)))
    | commitPending hash =>
      refine Ends.bind ((commitPending_spec n hash).mono ?_ ?_)
      · rintro _ _ ⟨p, -, -, -, rfl⟩
        exact List.mem_cons_of_mem _ hb
      · rintro _ _ rfl
        exact hb
    | dropPending hash => exact hb
    | addAuditCert cert => exact hb
    | setGasTarget gas => exact hb
    | reopen => exact hb
  unfold Node.after
  unfold Ends at hends
  cases hm : c.run n with
  | ok a n' => rw [hm] at hends; exact hends
  | error e n' => rw [hm] at hends; exact hends

end Stays

variable {n : Node W}

theorem Node.Anchored.blockAt_of_mem {b : StoredBlock W} (h : n.Anchored) (hb : b ∈ n.canonical) :
    ∃ c, n.blockAt b.header.number = some c ∧ c.header = b.header := by
  obtain ⟨c, hc, heq⟩ := Option.map_eq_some_iff.1 (h.hashAt_of_mem hb)
  exact ⟨c, hc, W.hash_inj heq⟩

theorem SnapshotRoot.Canonical.after {c : Call W} {s : SnapshotRoot} (h : n.Anchored)
    (hs : s.Canonical n) (hfork : ∀ fork ∈ n.switchFork c, s.number ≤ fork) : s.Canonical (n.after c) := by
  obtain ⟨b, hat, hhash, hroot⟩ := hs
  obtain ⟨hmem, hnum⟩ := Node.mem_of_blockAt hat
  have hstay := Node.mem_after hmem fun fork hf => hnum ▸ hfork fork hf
  obtain ⟨c', hc, heq⟩ := (after_later h c).anchored.blockAt_of_mem hstay
  exact ⟨c', hnum ▸ hc, by rw [heq, hhash], by rw [heq, hroot]⟩

namespace Keeper

variable {k : Keeper W}

/-- The moves under which no block of a snapshot is undone: a switch of the canonical chain starts at or above every
snapshot that is kept or being built. -/
def Spares (k : Keeper W) : Move W → Prop
  | .call c => ∀ fork ∈ k.node.switchFork c,
      (∀ s ∈ k.snapshots, s.number ≤ fork) ∧ ∀ b ∈ k.building, b.root.number ≤ fork
  | _ => True

def SparesRun (k : Keeper W) : List (Move W) → Prop
  | [] => True
  | m :: moves => k.Spares m ∧ (k.step m).SparesRun moves

/-- Every snapshot that is kept or being built is of a canonical block. -/
structure Sound (k : Keeper W) : Prop where
  anchored : k.node.Anchored
  kept : ∀ s ∈ k.snapshots, s.Canonical k.node
  building : ∀ b ∈ k.building, b.existing = k.snapshots ∧ b.root.Canonical k.node

theorem Sound.opened : (Keeper.opened W).Sound :=
  ⟨Anchored.opened, fun _ hs => (by cases hs), fun _ hb => (by cases hb)⟩

theorem canonical_snapshotRoot (n : Node W) : n.snapshotRoot.Canonical n :=
  ⟨n.tip, by simp [Node.blockAt, Node.canonical, Node.snapshotRoot, Node.head], rfl, rfl⟩

variable {b : Build}

theorem startSnapshot_some (h : k.startSnapshot = some b) :
    b.existing = k.snapshots ∧ b.root = k.node.snapshotRoot := by
  unfold startSnapshot at h
  simp only at h
  split at h
  · cases h
  · split at h
    · cases h
    · cases h
      exact ⟨rfl, rfl⟩

theorem mem_record {s : SnapshotRoot} (hs : s ∈ record b) : s ∈ b.existing ∨ s = b.root := by
  have hmem := List.mem_of_mem_drop hs
  simpa using hmem

theorem Sound.call (h : k.Sound) {c : Call W} (hspares : k.Spares (.call c)) {building : Option Build}
    (hbuilding : ∀ b ∈ building, b ∈ k.building) : Sound { k with node := k.node.after c, building } where
  anchored := (after_later h.anchored c).anchored
  kept s hs := (h.kept s hs).after h.anchored fun fork hf => (hspares fork hf).1 s hs
  building b hb := by
    obtain ⟨hexisting, hroot⟩ := h.building b (hbuilding b hb)
    exact ⟨hexisting, hroot.after h.anchored fun fork hf => (hspares fork hf).2 b (hbuilding b hb)⟩

theorem Sound.step (h : k.Sound) {m : Move W} (hspares : k.Spares m) : (k.step m).Sound := by
  cases m with
  | call c =>
    cases c with
    | reopen =>
      have hnone : ∀ b ∈ (none : Option Build), b ∈ k.building := fun _ hb => (by cases hb)
      exact h.call hspares hnone
    | _ => exact h.call hspares fun _ hb => hb
  | start =>
    show Sound (ite _ _ _)
    split
    · exact h
    · refine ⟨h.anchored, h.kept, fun b hb => ?_⟩
      obtain ⟨hexisting, hroot⟩ := startSnapshot_some hb
      exact ⟨hexisting, hroot ▸ canonical_snapshotRoot k.node⟩
  | finish =>
    show Sound (Option.elim _ _ _)
    cases hb : k.building with
    | none => exact h
    | some b =>
      obtain ⟨hexisting, hroot⟩ := h.building b hb
      refine ⟨h.anchored, fun s hs => ?_, fun _ hb => (by cases hb)⟩
      rcases mem_record hs with hs | rfl
      · exact h.kept s (hexisting ▸ hs)
      · exact hroot

theorem Sound.run (h : k.Sound) {moves : List (Move W)} (hspares : k.SparesRun moves) : (k.run moves).Sound := by
  induction moves generalizing k with
  | nil => exact h
  | cons m moves ih => exact ih (h.step hspares.1) hspares.2

theorem Sound.serves (h : k.Sound) : k.Serves where
  listed s hs _ := h.kept s hs
  announced a ha := by
    obtain ⟨s, hs, hsome⟩ := List.mem_filterMap.1 ha
    have hs := List.mem_reverse.1 hs
    split at hsome
    case h_2 => cases hsome
    case h_1 =>
      obtain ⟨hash, hhash, rfl⟩ := Option.map_eq_some_iff.1 hsome
      obtain ⟨b, hat, hb, -⟩ := h.kept s hs
      rw [Node.hashAt, hat, Option.map_some, Option.some_inj] at hhash
      exact ⟨hs, rfl, hb.symm.trans hhash, h.kept s hs⟩

end Keeper

/-- If no switch of the canonical chain undoes the block of a snapshot, all snapshots of final blocks, and all that the
node announces, are of canonical blocks. -/
theorem snapshots_served_are_canonical (moves : List (Move W)) (h : (Keeper.opened W).SparesRun moves) :
    ((Keeper.opened W).run moves).Serves :=
  (Keeper.Sound.opened.run h).serves

namespace Overtaken

/-- Two branches from genesis, every block the end of an epoch: `a₁`, and `b₁` with its child `b₂`. -/
def a₁ : Header := mockHeader 0 1 1 1 []

def b₁ : Header := mockHeader 0 1 2 1 []

def b₂ : Header := mockHeader 2 2 3 2 []

def world : World := mockWorld [mockGenesis, a₁, b₁, b₂] 1 fun _ => ⟨none, none⟩

def first : List (Move world) := [.call (.importMined 100 a₁ ([] : List Nat) none), .start, .finish]

/-- The other branch wins and is finalized, and a snapshot of its first block is never taken. -/
def second : List (Move world) :=
  [.call (.importMined 100 b₁ ([] : List Nat) none), .start, .call (.importMined 100 b₂ ([] : List Nat) none),
    .call (.finalize (2 : Nat) 1), .start, .finish]

end Overtaken

theorem overtaken_snapshot_is_served :
    ¬((Keeper.opened Overtaken.world).run (Overtaken.first ++ Overtaken.second)).Serves := by
  intro h
  have hlisted : ((Keeper.opened Overtaken.world).run (Overtaken.first ++ Overtaken.second)).snapshots.any fun s =>
      s.number == 1 && s.hash == (1 : Nat) := by decide +kernel
  obtain ⟨s, hs, hboth⟩ := List.any_eq_true.1 hlisted
  obtain ⟨hnumber, hhash⟩ : s.number = 1 ∧ s.hash = (1 : Nat) := by simpa using hboth
  have hfinal : (((Keeper.opened Overtaken.world).run (Overtaken.first ++ Overtaken.second)).node.isFinal 1).toOption =
      some true := by decide +kernel
  have hat : ((Keeper.opened Overtaken.world).run (Overtaken.first ++ Overtaken.second)).node.hashAt 1 =
      some (2 : Nat) := by decide +kernel
  have hok : ((Keeper.opened Overtaken.world).run (Overtaken.first ++ Overtaken.second)).node.isFinal 1 = .ok true := by
    generalize ((Keeper.opened Overtaken.world).run (Overtaken.first ++ Overtaken.second)).node.isFinal 1 = x at hfinal
    cases x with
    | error => cases hfinal
    | ok b => exact congrArg Except.ok (Option.some_inj.1 hfinal)
  obtain ⟨b, hb, hbhash, -⟩ := h.listed s hs (hnumber ▸ hok)
  rw [hnumber] at hb
  rw [Node.hashAt, hb, Option.map_some, Option.some_inj, hbhash, hhash] at hat
  exact absurd hat (by decide)

theorem first_snapshot_is_served :
    (Keeper.opened Overtaken.world).SparesRun Overtaken.first ∧
      ((Keeper.opened Overtaken.world).run Overtaken.first).Serves := by
  have hfork : (Keeper.opened Overtaken.world).node.switchFork (.importMined 100 Overtaken.a₁ ([] : List Nat) none) =
      none := by decide +kernel
  have hspares : (Keeper.opened Overtaken.world).SparesRun Overtaken.first := by
    refine ⟨fun fork hf => ?_, trivial, trivial, trivial⟩
    rw [hfork] at hf
    cases hf
  exact ⟨hspares, snapshots_served_are_canonical Overtaken.first hspares⟩

end Boltchain.Chain
