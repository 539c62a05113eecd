import Boltchain.Consensus.Finality

namespace Boltchain.Consensus

open Lib.TwoChain

variable {S : Scheme} {ι : Type}

structure Mined where
  hash : Hash
  parentHash : Hash
  number : Nat
  difficulty : Nat
  deriving DecidableEq

def Mined.Names (h : Mined) (b : BlockInfo) : Prop :=
  h.hash = b.hash ∧ h.parentHash = b.parent ∧ h.number = b.height

/-- A member's chain at one moment: the canonical header of each height, the head, and the depth
rules in force. -/
structure View where
  header : Nat → Option Mined
  head : Nat
  checkpointDepth : Nat
  terminalHeight : Option Nat

namespace View

/-- Blocks that must bury mined block `height` before it can be proposed. -/
def requiredDepth (v : View) (height : Nat) : Nat :=
  match v.terminalHeight with
  | some t => if height ≤ t then min v.checkpointDepth (t - height) else v.checkpointDepth
  | none => v.checkpointDepth

/-- The leader's checkpoint for the round, if it is there and deep enough. -/
def propose (v : View) (round : Nat) (qc : Qc S) : Option BlockInfo :=
  let height := qc.height + 1
  match v.header height with
  | none => none
  | some h =>
    if v.requiredDepth height ≤ v.head - height ∧ h.parentHash = qc.block then
      some ⟨h.hash, qc.block, round, height⟩
    else none

/-- A member's check of a proposed checkpoint against its own chain. -/
def validate (v : View) (p : Proposal S) : Bool :=
  p.payload.isEmpty &&
    match v.header p.block.height with
    | none => false
    | some h => h.hash == p.block.hash && h.parentHash == p.block.parent && h.difficulty != 0
      && decide ((v.requiredDepth p.block.height + 1) / 2 ≤ v.head - p.block.height)

def Shows (v : View) (mined : Mined → Prop) : Prop :=
  ∀ n h, v.header n = some h → mined h ∧ h.number = n

end View

namespace Net

/-- A committee over mined blocks: members pass, propose and fetch blocks under the parent and
number of their headers, in any round. -/
structure Mining (net : Net S ι) where
  mined : Mined → Prop
  valid_iff : ∀ b, net.valid b ↔ ∃ m, mined m ∧ m.Names b
  par : Hash → Hash
  hgt : Hash → Nat
  of_mined : ∀ {m}, mined m → par m.hash = m.parentHash ∧ hgt m.hash = hgt m.parentHash + 1
  of_nil : ∀ p r, par (net.H.nilHash net.base.epoch p r) = p ∧
    hgt (net.H.nilHash net.base.epoch p r) = hgt p + 1
  of_header : ∀ {bs hd}, net.H.decodeHeader bs = some hd → par (net.H.keccak256 bs) = hd.parentHash

variable {net : Net S ι} {w : ι → Node S}

def Mining.places (M : net.Mining) : net.Places where
  par := M.par
  hgt := M.hgt
  of_valid h := by
    obtain ⟨m, hm, hhash, hparent, -⟩ := (M.valid_iff _).1 h
    rw [← hhash, ← hparent]
    exact M.of_mined hm
  of_nil := M.of_nil
  of_header := M.of_header

def Renewed (net : Net S ι) (w : ι → Node S) (r : Nat) (b : Hash) : Prop :=
  ∃ q < r, Voted net.base (fun i => ∃ ν, i ∈ net.me ν) (durable w) q b ∧
    Voted net.base (fun i => ∃ ν, i ∈ net.me ν) (durable w) r b

theorem Follows.lock_of_first {T : net.Terms} {gd : ι → Ghost S}
    (hfol : net.Follows T w gd) (P : net.Places) {pf : CommitProof S} {x : Hash}
    (h : net.Proves w pf x) (hfirst : ¬ net.Renewed w pf.qc.round pf.qc.block) :
    ∀ i q, (net.system P.par gd).honest i →
      (net.system P.par gd).votes i (pf.qc.round + 1) pf.childQc.block q → q = pf.qc.round := by
  have R := hfol.rules P
  obtain ⟨hpar, -⟩ := P.linked h.epoch h.accepted
  have hqc := h.certified.1.voted
  rintro i q hh hvote
  have hlt := R.below hh hvote
  obtain ⟨ν, -, p, hp, hround, hhash, rfl⟩ := hvote
  obtain ⟨hplace, hheight⟩ := hfol.place P hp
  obtain ⟨-, hstrict, v, k, hsafe⟩ := hfol ν
  have hblock : p.qc.block = pf.qc.block := by
    rw [← (hsafe.checked p hp).parent, ← hplace, hhash, hpar]
  rcases (hsafe.checked p hp).qc.backed hstrict with ⟨-, hanchor⟩ | hvoted
  · -- the parent is certified, so it stands above the anchor
    have hcert : (net.system P.par gd).Certified pf.qc.round pf.qc.block := hfol.certified hqc
    have habove := R.height_lt (hfol.height P) hcert
    rw [← hblock, hanchor] at habove
    exact absurd habove (lt_irrefl _)
  · rw [hblock] at hvoted
    by_contra hne
    exact hfirst ⟨p.qc.round, by omega, hvoted, hqc⟩

/-- In every run whose certificates name nobody twice, and in which no child is certified in the
round after a renewed certificate of its parent, two proven blocks lie on one chain. -/
theorem checkpoint_agreement [DecidableEq ι] (M : net.Mining) (hrun : net.Run cleanInputs w)
    (hrenew : ∀ r c, net.Renewed w r (M.par c) →
      ¬ Voted net.base (fun i => ∃ ν, i ∈ net.me ν) (durable w) (r + 1) c)
    {pf pf' : CommitProof S} {x y : Hash} (h : net.Proves w pf x) (h' : net.Proves w pf' y) :
    Descends M.par x y ∨ Descends M.par y x := by
  obtain ⟨gd, hfol⟩ := Run.follows trivial fits_cleanInputs hrun
  have hfirst : ∀ {pf x}, net.Proves w pf x → ¬ net.Renewed w pf.qc.round pf.qc.block := by
    intro pf x h hr
    obtain ⟨-, hchild, hround⟩ := h.certified
    rw [← (M.places.linked h.epoch h.accepted).1] at hr
    exact hrenew _ _ hr (hround ▸ hchild.voted)
  obtain ⟨hc, hp, hx⟩ := hfol.twoChain M.places h
  obtain ⟨hc', hp', hy⟩ := hfol.twoChain M.places h'
  exact (hfol.rules M.places).comparable hc hp (hfol.lock_of_first M.places h (hfirst h))
    hc' hp' (hfol.lock_of_first M.places h' (hfirst h')) hx hy

end Net

namespace Pair

/-- Two members of weights 9 and 4. The second is not honest and leads rounds 2 to 5. -/
def base : Config :=
  ⟨7, 0, ⟨[9, 4], [0, 0, 1, 1, 1, 1, 0, 0, 0, 0, 0, 0, 0]⟩, [], ⟨100, 0, 0, 0⟩, 50, 1000⟩

def ledger : Ledger where
  blocks := [⟨1, 100, 0, 1⟩, ⟨2, 1, 0, 2⟩, ⟨3, 100, 0, 1⟩, ⟨4, 3, 0, 2⟩, ⟨5, 4, 0, 3⟩]
  fresh := by decide
  height := by decide

def net : Net MockScheme Unit where
  H := ledger.hasher
  base := base
  me _ := [0]
  U := MockScheme.unforgeable _
  valid b := ∃ x ∈ ledger.blocks, x.hash = b.hash ∧ x.parent = b.parent ∧ x.height = b.height
  imports := False
  byzantine := {1}
  weight_lt := by decide
  disjoint _ _ := rfl
  honest_or := by decide
  byzantine_lt := by decide

instance : DecidablePred net.valid := fun _ => inferInstanceAs (Decidable (∃ x ∈ ledger.blocks, _))

instance : Decidable net.imports := inferInstanceAs (Decidable False)

theorem mem_nodes (μ : Unit) : μ ∈ [()] := List.mem_singleton.2 rfl

def places : net.Places := ledger.places net rfl fun ⟨x, hx, hhash, hparent, _⟩ => ⟨x, hx, hhash, hparent⟩

def mining : net.Mining where
  mined m := ∃ x ∈ ledger.blocks, m = ⟨x.hash, x.parent, x.height, 1⟩
  valid_iff b := by
    refine ⟨fun ⟨x, hx, h⟩ => ⟨_, ⟨x, hx, rfl⟩, h⟩, ?_⟩
    rintro ⟨_, ⟨x, hx, rfl⟩, h⟩
    exact ⟨x, hx, h⟩
  par := places.par
  hgt := places.hgt
  of_mined := by
    rintro _ ⟨x, hx, rfl⟩
    exact ⟨Ledger.par_of_mem hx, Ledger.hgt_parent_of_mem hx⟩
  of_nil := places.of_nil
  of_header := places.of_header

def qc (round : Nat) (block : Hash) (height : Nat) : Qc MockScheme :=
  ⟨0, round, block, height, [1], some [(0, .vote 7 0 round block)]⟩

def tc (round : Nat) (high : Qc MockScheme) : Tc MockScheme :=
  ⟨0, round, high, [(0, high.round, (0, .timeout 7 0 round high.round))]⟩

def proof (round : Nat) (block child : Hash) (height : Nat) : CommitProof MockScheme :=
  ⟨qc round block height, qc (round + 1) child (height + 1), [UInt8.ofNat child], [], block, height⟩

def proposal (block : BlockInfo) (qc : Qc MockScheme) (tc : Option (Tc MockScheme)) : Event MockScheme :=
  .message (.proposal ⟨0, block, qc, tc, 1, [], (1, .proposal 7 0 block.round block.hash 0)⟩)

/-- The other member keeps the certificates of rounds 1 to 4 to itself. Block 1 is certified in
rounds 1 and 3 and its child in round 4, but on the certificate of round 1, so that the honest
member may still follow the branch certified in round 2. -/
def hidden : List (Unit × Event MockScheme) :=
  let anchor := Engine.anchorQc base
  [((), .start), ((), .proposed ⟨1, 100, 1, 1⟩ anchor none []), ((), .timeout 1),
    ((), proposal ⟨3, 100, 2, 1⟩ anchor (some (tc 1 anchor))), ((), .validated 3 true), ((), .timeout 2),
    ((), proposal ⟨1, 100, 3, 1⟩ anchor (some (tc 2 anchor))), ((), .validated 1 true), ((), .timeout 3),
    ((), proposal ⟨2, 1, 4, 2⟩ (qc 1 1 1) (some (tc 3 anchor))), ((), .validated 2 true), ((), .timeout 4),
    ((), proposal ⟨4, 3, 5, 2⟩ (qc 2 3 1) (some (tc 4 (qc 1 1 1)))), ((), .validated 4 true),
    ((), .proposed ⟨5, 4, 6, 3⟩ (qc 5 4 2) none [])]

def hiddenWorld : Unit → Node MockScheme := net.replay 20 net.initial hidden

end Pair

/-- A renewed certificate makes two mined blocks final that are not on one chain. -/
theorem checkpoint_forks :
    Pair.net.Run Net.cleanInputs Pair.hiddenWorld ∧
      Pair.net.Proves Pair.hiddenWorld (Pair.proof 3 1 2 1) 1 ∧
      Pair.net.Proves Pair.hiddenWorld (Pair.proof 5 4 5 2) 4 ∧
      ¬ Descends Pair.mining.par 1 4 ∧ ¬ Descends Pair.mining.par 4 1 := by
  refine ⟨Net.Run.replay [()] Pair.mem_nodes rfl .refl (by decide +kernel),
    .of_mock [()] Pair.mem_nodes rfl (by decide +kernel),
    .of_mock [()] Pair.mem_nodes rfl (by decide +kernel), fun h => ?_, fun h => ?_⟩
  · have hmem := h.mem_of_closed (A := [1, 100, 0]) (by decide) (by decide)
    revert hmem
    decide
  · have hmem := h.mem_of_closed (A := [4, 3, 100, 0]) (by decide) (by decide)
    revert hmem
    decide

namespace Pair

def straight : List (Unit × Event MockScheme) :=
  [((), .start), ((), .proposed ⟨3, 100, 1, 1⟩ (Engine.anchorQc base) none []),
    ((), proposal ⟨4, 3, 2, 2⟩ (qc 1 3 1) none), ((), .validated 4 true),
    ((), proposal ⟨5, 4, 3, 3⟩ (qc 2 4 2) none), ((), .validated 5 true)]

def straightWorld : Unit → Node MockScheme := net.replay 20 net.initial straight

variable {b : Hash} {r : Nat}

theorem vote_mem {w : Unit → Node MockScheme}
    (h : Voted net.base (fun i => ∃ ν, i ∈ net.me ν) (Net.durable w) r b) :
    (0, .vote 7 0 r b) ∈ (w ()).durable := by
  obtain ⟨A, hlt, hq, hA⟩ := h
  have h0 : 0 ∈ A := by
    by_contra h0
    have hsub : A ⊆ {1} := by
      intro i hi
      have hi2 : i < 2 := hlt i hi
      have hne : i ≠ 0 := fun h => h0 (h ▸ hi)
      exact Finset.mem_singleton.2 (by omega)
    have hle : net.base.validators.mass A ≤ net.base.validators.mass {1} := Finset.sum_le_sum_of_subset hsub
    have h4 : net.base.validators.mass {1} = 4 := by decide
    have h13 : net.base.validators.fullTotal = 13 := by decide
    omega
  obtain ⟨ν, hν⟩ := hA 0 h0 ⟨(), List.mem_singleton.2 rfl⟩
  exact hν

theorem straight_first : ¬ net.Renewed straightWorld r b := by
  rintro ⟨q, hlt, hq, hr⟩
  have hdurable : (straightWorld ()).durable = [(0, .proposal 7 0 1 3 0), (0, .vote 7 0 1 3),
    (0, .vote 7 0 2 4), (0, .vote 7 0 3 5)] := by decide +kernel
  have hq := vote_mem hq
  have hr := vote_mem hr
  rw [hdurable] at hq hr
  simp only [List.mem_cons, Prod.mk.injEq, SignMsg.vote.injEq, reduceCtorEq, List.not_mem_nil,
    true_and, and_false, false_or, or_false] at hq hr
  obtain ⟨rfl, rfl⟩ | ⟨rfl, rfl⟩ | ⟨rfl, rfl⟩ := hq
  all_goals
    obtain ⟨rfl, hb⟩ | ⟨rfl, hb⟩ | ⟨rfl, hb⟩ := hr
    all_goals revert hlt hb; decide

end Pair

theorem checkpoint_agreement_on_chain :
    Pair.net.Proves Pair.straightWorld (Pair.proof 1 3 4 1) 3 ∧
      Pair.net.Proves Pair.straightWorld (Pair.proof 2 4 5 2) 4 ∧
      (Descends Pair.mining.par 3 4 ∨ Descends Pair.mining.par 4 3) := by
  have hrun : Pair.net.Run Net.cleanInputs Pair.straightWorld :=
    Net.Run.replay [()] Pair.mem_nodes rfl .refl (by decide +kernel)
  have h : Pair.net.Proves Pair.straightWorld (Pair.proof 1 3 4 1) 3 :=
    .of_mock [()] Pair.mem_nodes rfl (by decide +kernel)
  have h' : Pair.net.Proves Pair.straightWorld (Pair.proof 2 4 5 2) 4 :=
    .of_mock [()] Pair.mem_nodes rfl (by decide +kernel)
  exact ⟨h, h', Net.checkpoint_agreement Pair.mining hrun
    (fun _ _ hr => absurd hr Pair.straight_first) h h'⟩

end Boltchain.Consensus
