import Boltchain.Consensus.Agreement
import Boltchain.Consensus.Heights

namespace Boltchain.Consensus

open Lib.TwoChain

variable {S : Scheme} {ι : Type}

theorem ProofOk.mono {c : Ctx S} {K K' : Knowledge} {pf : CommitProof S} {p b : BlockInfo} (hK : K ⊆ K')
    (h : ProofOk c K pf p b) : ProofOk c K' pf p b :=
  { h with
    qc := h.qc.mono hK
    childQc := h.childQc.mono hK }

theorem linked_concat {a t : Hash} {l : List BlockInfo} {z : BlockInfo} :
    Linked a (l ++ [z]) t ↔ Linked a l z.parent ∧ z.hash = t := by
  induction l generalizing a with
  | nil => exact and_congr_left' eq_comm
  | cons y l ih =>
    simp only [List.cons_append, Linked, ih]
    exact and_assoc.symm

theorem nilChain_of_linked {H : Hasher} {epoch r : Nat} {a q t : Hash} {way : List BlockInfo}
    (hl : Linked a way t) (hnil : ∀ y ∈ way, y.hash = H.nilHash epoch y.parent y.round) :
    nilChain H epoch (way.map (·.round) ++ [r]) (q, a) = (t, H.nilHash epoch t r) := by
  induction way generalizing a q with
  | nil =>
    obtain rfl : a = t := hl
    rfl
  | cons y way ih =>
    obtain ⟨rfl, hl⟩ := hl
    have hy := hnil y List.mem_cons_self
    rw [List.map_cons, List.cons_append, nilChain, ← hy]
    exact ih hl fun z hz => hnil z (List.mem_cons_of_mem _ hz)

namespace Net

def imported : Event S → Option BlockInfo
  | .externalCommit b _ => some b
  | _ => none

/-- Inputs that name true heights, and whose blocks come under the place their hash commits to when
they enter the block tree. -/
def Heights.truePlaces {net : Net S ι} (P : net.Heights) (e : Engine S) (ev : Event S) : Prop :=
  P.levels ev ∧ (∀ p ∈ received ev, e.Stores net.H p → net.valid p.block) ∧
    ∀ b ∈ imported ev, net.valid b

theorem Heights.fits_truePlaces {net : Net S ι} (P : net.Heights) :
    Fits net (P.terms False False False net.valid False.elim) P.truePlaces where
  clean h := h.elim
  stores h := h.2.1 _ rfl
  valid h := h
  imports h _ := h.2.2 _ rfl
  levels h := h.1.1
  votes h := h.1.2 _ rfl
  reports _ h := h.elim

namespace Exact

variable {net : Net S ι} (P : net.Exact)

def heights : net.Heights where
  hgt := P.hgt
  of_valid := P.height_of_valid
  of_nil p r := (P.of_nil p r).2
  of_anchor := P.hgt_anchor

/-- The blocks of the tree stand where their hashes say. -/
structure Faithful (T : net.Terms) : Prop where
  stored : ∀ {b}, T.stored b → net.valid b
  placed : ∀ {h k}, T.placed h k → P.hgt h = k

variable {P} {T : net.Terms} {ν : ι} {K : Knowledge} (hF : P.Faithful T)

include hF

theorem Faithful.hgt {x : BlockInfo} (h : (net.ctx T ν).Known x) : P.hgt x.hash = x.height := by
  rcases h with rfl | hv | ⟨-, -, hp⟩
  · exact P.hgt_anchor
  · exact P.height_of_valid (hF.stored hv)
  · exact hF.placed hp

/-- What a finality proof names: `x`, the last block up to `p` that is not above the epoch's end, below
`way`. -/
structure Names (T : net.Terms) (ν : ι) (pf : CommitProof S) (p b x : BlockInfo)
    (way : List BlockInfo) : Prop where
  inTree : (net.ctx T ν).InTree x
  le : x.height ≤ net.base.endHeight
  linked : Linked x.hash way p.hash
  above : ∀ y ∈ way, (net.ctx T ν).Known y ∧ net.base.endHeight < y.height
  committed : pf.committed = x.hash
  height : pf.committedHeight = x.height
  rounds : b.height ≤ net.base.endHeight ∧ pf.nilRounds = [] ∧ way = [] ∨
    net.base.endHeight < b.height ∧ pf.nilRounds = way.map (·.round) ++ [b.round]

theorem Faithful.child {pf : CommitProof S} {p b : BlockInfo} (h : ProofOk (net.ctx T ν) K pf p b) :
    P.Placed p ∧ P.Placed b ∧ b.hash ≠ net.base.anchor.hash ∧ b.height = p.height + 1 := by
  obtain ⟨hp, hb, hne⟩ := placed_child hF.stored P h.inTree.1.1 h.inTree.2.1 h.above h.parent
  refine ⟨hp, hb, hne, ?_⟩
  rw [← hF.hgt h.inTree.2.1, ← hF.hgt h.inTree.1.1, hb.hgt, h.parent]

theorem Faithful.names {pf : CommitProof S} {p b : BlockInfo} (h : ProofOk (net.ctx T ν) K pf p b) :
    ∃ x way, Names T ν pf p b x way := by
  obtain ⟨-, -, -, hheight⟩ := hF.child h
  rcases h.proven with ⟨hle, hrounds, hcommitted, hh⟩ | ⟨hlt, x, way, hx, hle, hl, hway, hrounds, hc, hh⟩
  · have hle' : b.height ≤ net.base.endHeight := hle
    exact ⟨p, [], h.inTree.1, by omega, rfl, by simp, hcommitted, hh, .inl ⟨hle, hrounds, rfl⟩⟩
  · exact ⟨x, way, hx, hle, hl, fun y hy => ⟨(hway y hy).1.1, (hway y hy).2⟩, hc, hh, .inr ⟨hlt, hrounds⟩⟩

omit hF in
theorem Names.anchor_le {pf : CommitProof S} {p b x : BlockInfo} {way : List BlockInfo}
    (h : Names T ν pf p b x way) : net.base.anchor.height ≤ net.base.endHeight := by
  have hle := h.le
  rcases h.inTree.2 with rfl | hlt
  · exact hle
  · exact (le_of_lt hlt).trans hle

theorem Faithful.way {pf : CommitProof S} {p b x : BlockInfo} {way : List BlockInfo}
    (h : Names T ν pf p b x way) {y : BlockInfo} (hy : y ∈ way) :
    P.Placed y ∧ P.hgt y.hash = y.height := by
  obtain ⟨hknown, hlt⟩ := h.above y hy
  exact ⟨.of_known hF.stored hknown (h.anchor_le.trans_lt hlt), hF.hgt hknown⟩

theorem Faithful.epochEnd {x : BlockInfo} {pf : CommitProof S}
    (h : (Action.epochEnd x pf).Sound (net.ctx T ν) K) :
    x.height = net.base.endHeight ∧ x.hash = pf.committed ∧ x.height = pf.committedHeight := by
  obtain ⟨p, b, hpf, hend, hx, hhash⟩ := h
  obtain ⟨x', way, hn⟩ := hF.names hpf
  have hsame : x.height = x'.height := by
    rw [← hF.hgt hx.1, hhash, hn.committed, hF.hgt hn.inTree.1]
  have hge : net.base.endHeight ≤ x'.height := by
    cases way with
    | nil =>
      rw [← hF.hgt hn.inTree.1, show x'.hash = p.hash from hn.linked, hF.hgt hpf.inTree.1.1]
      exact hend
    | cons y way =>
      -- the first nil block stands right above the named one
      obtain ⟨hplaced, hheight⟩ := hF.way hn List.mem_cons_self
      have hlt := (hn.above y List.mem_cons_self).2
      rw [← hheight, hplaced.hgt, hn.linked.1, hF.hgt hn.inTree.1] at hlt
      omega
  exact ⟨hsame.trans (le_antisymm hn.le hge), hhash, hsame.trans hn.height.symm⟩

omit hF in
/-- The last block of `chain` not above the epoch's end is the block below `way`. -/
theorem last_of_linked {a x t : Hash} {chain way : List BlockInfo} (hc : Linked a chain t)
    (hw : Linked x way t) (hchain : ∀ z ∈ chain, P.Placed z ∧ P.hgt z.hash = z.height)
    (hway : ∀ y ∈ way, P.Placed y ∧ P.hgt y.hash = y.height ∧ net.base.endHeight < y.height)
    (hx : P.hgt x ≤ net.base.endHeight)
    (hne : chain.filter (fun z => z.height ≤ net.base.endHeight) ≠ []) :
    ∃ y, (chain.filter fun z => z.height ≤ net.base.endHeight).getLast? = some y ∧ y.hash = x := by
  induction way using List.reverseRecOn generalizing chain t with
  | nil =>
    obtain rfl : x = t := hw
    rcases List.eq_nil_or_concat' chain with rfl | ⟨l, z, rfl⟩
    · exact absurd rfl hne
    · obtain ⟨-, rfl⟩ := linked_concat.1 hc
      have hz := (hchain z (by simp)).2
      refine ⟨z, ?_, rfl⟩
      rw [List.filter_append, List.filter_singleton, decide_eq_true (hz ▸ hx), cond_true, List.getLast?_concat]
  | append_singleton way y ih =>
    obtain ⟨hbelow, rfl⟩ := linked_concat.1 hw
    obtain ⟨hplaced, hheight, hlt⟩ := hway y (by simp)
    rcases List.eq_nil_or_concat' chain with rfl | ⟨l, z, rfl⟩
    · exact absurd rfl hne
    · obtain ⟨hl, hhash⟩ := linked_concat.1 hc
      obtain ⟨hzplaced, hz⟩ := hchain z (by simp)
      have hdrop : (l ++ [z]).filter (fun z => z.height ≤ net.base.endHeight) =
          l.filter fun z => z.height ≤ net.base.endHeight := by
        have hzlt : ¬ z.height ≤ net.base.endHeight := by
          rw [← hz, hhash, hheight]
          exact not_le.2 hlt
        rw [List.filter_append, List.filter_singleton, decide_eq_false hzlt, cond_false, List.append_nil]
      rw [← hzplaced.par, hhash, hplaced.par] at hl
      rw [hdrop] at hne ⊢
      exact ih hl hbelow (fun z hz => hchain z (List.mem_append_left _ hz))
        (fun y hy => hway y (List.mem_append_left _ hy)) hne

end Exact

section

variable {net : Net S ι} {P : net.Exact} {T : net.Terms} {ν : ι} {w : ι → Node S} {gd : ι → Ghost S}
  (hfol : net.Follows T w gd)

include hfol

theorem Follows.hgt_le_of_real {r : Nat} {h : Hash} (hc : (net.system P.par gd).Certified r h)
    (hreal : P.real h = true) : P.hgt h ≤ net.base.endHeight := by
  obtain ⟨i, q, -, μ, -, p, hp, rfl, rfl, -⟩ := (hfol.rules P.toPlaces).exists_vote hc
  obtain ⟨-, -, v, k, hsafe⟩ := hfol μ
  have hle : p.block.height ≤ net.base.endHeight := by
    by_contra hlt
    rw [(hsafe.checked p hp).nil (not_le.1 hlt)] at hreal
    exact absurd (hreal.symm.trans (P.real_of_nil _ _)) (by decide)
  rcases hsafe.valid p hp with hlt | hvalid
  · exact absurd hle (not_le.2 hlt)
  · rwa [P.height_of_valid hvalid]

theorem Follows.real_of_way {x t : Hash} {way : List BlockInfo} (hw : Linked x way t)
    (hcert : t = net.base.anchor.hash ∨ ∃ r, (net.system P.par gd).Certified r t)
    (hway : ∀ y ∈ way, P.Placed y ∧ P.hgt y.hash = y.height ∧ net.base.endHeight < y.height)
    (hanchor : net.base.anchor.height ≤ net.base.endHeight) : ∀ y ∈ way, P.real y.hash = false := by
  induction way using List.reverseRecOn generalizing t with
  | nil => simp
  | append_singleton way y ih =>
    obtain ⟨hbelow, rfl⟩ := linked_concat.1 hw
    obtain ⟨hplaced, hheight, hlt⟩ := hway y (by simp)
    obtain ⟨r, hr⟩ : ∃ r, (net.system P.par gd).Certified r y.hash := by
      refine hcert.resolve_left fun heq => ?_
      rw [heq, P.hgt_anchor] at hheight
      omega
    have hreal : P.real y.hash = false := by
      by_contra hreal
      have hle := hfol.hgt_le_of_real hr (by simpa using hreal)
      omega
    have hparent : y.parent = net.base.anchor.hash ∨ ∃ r, (net.system P.par gd).Certified r y.parent := by
      obtain ⟨i, q, hh, hvote⟩ := (hfol.rules P.toPlaces).exists_vote hr
      have hj := (hfol.rules P.toPlaces).justified hh hvote
      rw [show (net.system P.par gd).par y.hash = y.parent from hplaced.par] at hj
      exact hj.imp And.right fun h => ⟨q, h⟩
    intro z hz
    rcases List.mem_append.1 hz with hz | hz
    · exact ih hbelow hparent (fun y hy => hway y (List.mem_append_left _ hy)) z hz
    · rw [List.mem_singleton.1 hz]
      exact hreal

variable (hF : P.Faithful T) {pf : CommitProof S} {p b x : BlockInfo} {way : List BlockInfo}

include hF

theorem Follows.certs (h : ProofOk (net.ctx T ν) (durable w) pf p b) :
    pf.qc.block = p.hash ∧ 0 < pf.qc.round ∧ pf.qc.round = p.round ∧ pf.childQc.round = b.round ∧
      (net.system P.par gd).Certified pf.qc.round p.hash ∧
      (net.system P.par gd).Certified pf.childQc.round b.hash := by
  have hstrict := (hfol ν).2.1
  obtain ⟨hp, hb, hne, -⟩ := hF.child h
  have hblock : pf.qc.block = p.hash := by
    refine h.block.resolve_right ?_
    rintro ⟨z, hz, hhash, hlt⟩
    rw [← hF.hgt hz, hhash, hF.hgt h.inTree.1.1] at hlt
    exact lt_irrefl _ hlt
  have hcert : (net.system P.par gd).Certified pf.qc.round p.hash := by
    rcases h.qc.backed hstrict with ⟨-, hanchor⟩ | hvoted
    · -- the committed block stands above the anchor
      have habove : net.base.anchor.height < p.height := h.above
      have heq : p.hash = net.base.anchor.hash := hblock.symm.trans hanchor
      rw [← hF.hgt h.inTree.1.1, heq, P.hgt_anchor] at habove
      exact absurd habove (lt_irrefl _)
    · exact hblock ▸ hfol.certified hvoted
  have hchild : (net.system P.par gd).Certified pf.childQc.round b.hash := by
    rcases h.childQc.backed hstrict with ⟨-, hanchor⟩ | hvoted
    · exact absurd (h.child.symm.trans hanchor) hne
    · exact h.child ▸ hfol.certified hvoted
  refine ⟨hblock, ?_, ?_, ?_, hcert, hchild⟩
  · obtain ⟨i, q, hh, hvote⟩ := (hfol.rules P.toPlaces).exists_vote hcert
    exact Nat.zero_lt_of_lt ((hfol.rules P.toPlaces).below hh hvote)
  · rw [← hfol.round_of_certified P.toDated hcert, hp.rnd]
  · rw [← hfol.round_of_certified P.toDated hchild, hb.rnd]

theorem Follows.nilRounds (h : ProofOk (net.ctx T ν) (durable w) pf p b)
    (hn : Exact.Names T ν pf p b x way) (hlt : net.base.endHeight < b.height)
    (hrounds : pf.nilRounds = way.map (·.round) ++ [b.round]) :
    nilChain net.H net.base.epoch pf.nilRounds (x.hash, x.hash) = (p.hash, b.hash) := by
  obtain ⟨-, -, -, -, hcert, hchild⟩ := hfol.certs hF h
  have hreal := hfol.real_of_way hn.linked (.inr ⟨_, hcert⟩)
    (fun y hy => ⟨(hF.way hn hy).1, (hF.way hn hy).2, (hn.above y hy).2⟩) hn.anchor_le
  have hnil : ∀ y : BlockInfo, (net.ctx T ν).Known y → net.base.endHeight < y.height →
      P.real y.hash = false → y.hash = net.H.nilHash net.base.epoch y.parent y.round := by
    intro y hy hylt hyreal
    rcases hy with rfl | hv | ⟨-, h, -⟩
    · exact absurd hn.anchor_le (not_le.2 hylt)
    · exact absurd (hyreal.symm.trans (P.real_of_valid (hF.stored hv))) (by decide)
    · exact h
  have hb : b.hash = net.H.nilHash net.base.epoch p.hash b.round := by
    rw [← h.parent]
    refine hnil b h.inTree.2.1 hlt ?_
    by_contra hbreal
    have hle := hfol.hgt_le_of_real hchild (by simpa using hbreal)
    rw [hF.hgt h.inTree.2.1] at hle
    omega
  rw [hrounds, nilChain_of_linked hn.linked fun y hy => hnil y (hn.above y hy).1 (hn.above y hy).2
    (hreal y hy), ← hb]

variable (P) in
/-- The bytes are the header of the child, where a proof takes one. -/
def Exact.Attached (pf : CommitProof S) (hd : Bytes) : Prop :=
  pf.nilRounds = [] → net.H.keccak256 hd = pf.childQc.block ∧
    ∃ h, net.H.decodeHeader hd = some h ∧ h.number = P.hgt pf.childQc.block

/-- A proof verifies to the block it names. -/
theorem Follows.verify (hc : T.complete) (h : ProofOk (net.ctx T ν) (durable w) pf p b)
    (hn : Exact.Names T ν pf p b x way) {hd : Bytes} (ha : P.Attached pf hd) :
    ({ pf with childHeader := hd } : CommitProof S).verify net.H net.base.validators net.base.chainId
      net.base.anchor.hash = some x.hash := by
  obtain ⟨hblock, hpos, hround, hchildRound, -, -⟩ := hfol.certs hF h
  obtain ⟨hp, hb, -, hheight⟩ := hF.child h
  have hrounds := h.rounds
  have hqcHeight : pf.qc.height = p.height := by
    rw [← hF.placed h.qc.height, hblock, hF.hgt h.inTree.1.1]
  have hchildHeight : pf.childQc.height = b.height := by
    rw [← hF.placed h.childQc.height, h.child, hF.hgt h.inTree.2.1]
  have hepoch : pf.qc.epoch = net.base.epoch := h.qc.epoch
  have hqc : pf.qc.verify net.base.validators net.base.chainId net.base.epoch net.base.anchor.hash = true :=
    h.qc.verified hc hpos
  have hchild : pf.childQc.verify net.base.validators net.base.chainId net.base.epoch
      net.base.anchor.hash = true := h.childQc.verified hc (by omega)
  have hanchor : pf.qc.isAnchor = false := by
    rw [Qc.isAnchor, beq_false_of_ne hpos.ne', Bool.false_and]
  have hcerts : (pf.childQc.round == pf.qc.round + 1 && pf.childQc.height == pf.qc.height + 1
      && pf.childQc.epoch == pf.qc.epoch && !pf.qc.isAnchor
      && pf.qc.verify net.base.validators net.base.chainId pf.qc.epoch net.base.anchor.hash
      && pf.childQc.verify net.base.validators net.base.chainId pf.qc.epoch net.base.anchor.hash) = true := by
    rw [hepoch, hqc, hchild, hanchor, h.childQc.epoch]
    simp only [Bool.and_eq_true, beq_iff_eq, Bool.not_false, and_true]
    exact ⟨⟨by omega, by omega⟩, rfl⟩
  simp only [CommitProof.verify, hcerts, Bool.not_true, Bool.false_eq_true, if_false]
  rcases hn.rounds with ⟨-, hnone, rfl⟩ | ⟨hlt, hsome⟩
  · obtain ⟨hkeccak, hdr, hdecode, hnumber⟩ := ha hnone
    have hx : x.hash = p.hash := hn.linked
    have hparent : hdr.parentHash = pf.qc.block := by
      rw [← P.of_header hdecode, hkeccak, h.child, hb.par, h.parent, hblock]
    have hnumber : hdr.number = pf.qc.height + 1 := by
      rw [hnumber, h.child, hF.hgt h.inTree.2.1]
      omega
    have hcommitted : pf.committedHeight = pf.qc.height := by
      rw [hn.height, ← hF.hgt hn.inTree.1, hx, hF.hgt h.inTree.1.1, hqcHeight]
    simp [hnone, hdecode, hkeccak, hparent, hnumber, hcommitted, hn.committed, hx, hblock]
  · have hchain := hfol.nilRounds hF h hn hlt hsome
    have hlast : pf.nilRounds.getLastD 0 = b.round := by rw [hsome, List.getLastD_concat]
    have hlen : pf.nilRounds.length = way.length + 1 := by simp [hsome]
    have htop : P.hgt p.hash = P.hgt x.hash + way.length := by
      obtain ⟨hiter, -, hhgt⟩ := Exact.path_of_linked hn.linked fun y hy => (hF.way hn hy).1
      rw [← hhgt way.length le_rfl, hiter]
    rw [hF.hgt h.inTree.1.1, hF.hgt hn.inTree.1] at htop
    cases hr : pf.nilRounds with
    | nil => simp [hr] at hlen
    | cons r rs =>
      rw [hr] at hchain hlast hlen
      have hheights : pf.childQc.height = x.height + (r :: rs).length := by omega
      simp only [hn.committed, hepoch, hchain, h.child, hblock, hchildRound, hlast, hn.height, hheights,
        beq_self_eq_true, Bool.and_self, if_true]

end

/-- Inputs whose certificates name nobody twice and which name true heights and places. -/
def Heights.exactInputs {net : Net S ι} (P : net.Heights) (e : Engine S) (ev : Event S) : Prop :=
  cleanInputs e ev ∧ P.truePlaces e ev

theorem Heights.fits_exactInputs {net : Net S ι} (P : net.Heights)
    (hS : S.Complete ∧ net.base.validators.len ≤ 65536) :
    Fits net (P.terms True True False net.valid fun _ => hS) P.exactInputs where
  clean _ _ _ h := h.1
  stores h := h.2.2.1 _ rfl
  valid h := h
  imports h _ := h.2.2.2 _ rfl
  levels h := h.2.1.1
  votes h := h.2.1.2 _ rfl
  reports _ h := h.elim

variable {net : Net S ι} {w : ι → Node S} [DecidableEq ι]

/-- In every run whose inputs name true heights and places, an engine that ends its epoch ends it at the
last block, which the proof names, and votes for nil blocks from there on only. -/
theorem epoch_ends_at_last_block (P : net.Exact) (hrun : net.Run P.heights.truePlaces w) (ν : ι) :
    (∀ i r q k, (i, .vote net.base.chainId net.base.epoch r (net.H.nilHash net.base.epoch q k)) ∈ (w ν).signed →
      net.base.endHeight ≤ P.hgt q) ∧
    ∀ n ev e l, net.Delivers w ν ev → net.Promises (w ν).eng ev → P.heights.truePlaces (w ν).eng ev →
      (w ν).eng.on net.H n ev = some (e, l) → ∀ x pf, .act (.epochEnd x pf) ∈ l →
        x.height = net.base.endHeight ∧ x.hash = pf.committed ∧ e.finished = true := by
  have hF : P.Faithful (P.heights.terms False False False net.valid False.elim) := ⟨id, id⟩
  refine ⟨fun i r q k hsigned => ?_, fun n ev e l hdel hpr hok hon x pf hmem => ?_⟩
  · obtain ⟨g, gd, hnode⟩ := Run.nodeOk .trivial P.heights.fits_truePlaces hrun ν
    rw [← hnode.signed] at hsigned
    obtain ⟨-, p, hp, -, hhash⟩ := hnode.safe.votes i r _ hsigned
    have hchecked := hnode.safe.checked p hp
    have hlt : net.base.endHeight < p.block.height := by
      refine (hnode.safe.valid p hp).resolve_right fun hvalid => ?_
      have hreal := P.real_of_valid hvalid
      rw [hhash] at hreal
      exact absurd (hreal.symm.trans (P.real_of_nil q k)) (by decide)
    have hparent : p.block.parent = q := by
      rw [← (P.of_nil q k).1, ← hhash, hchecked.nil hlt]
      exact (P.of_nil _ _).1.symm
    have hheight : P.hgt q = p.qc.height := by
      rw [← hparent, hchecked.parent]
      exact hchecked.qc.height
    have hnext := hchecked.height
    omega
  · obtain ⟨w', -, -, hsound, hend⟩ := Run.on_says P.heights.fits_truePlaces hrun hdel hpr hok hon
    obtain ⟨hheight, hhash, -⟩ := hF.epochEnd (hsound _ hmem)
    exact ⟨hheight, hhash, hend (List.any_eq_true.2 ⟨_, hmem, rfl⟩)⟩

/-- In every run whose certificates name nobody twice and whose inputs name true heights and places, the
proofs an engine hands out verify to the last real block committed. -/
theorem proofs_verify (P : net.Exact) (hS : S.Complete) (hlen : net.base.validators.len ≤ 65536)
    (hrun : net.Run P.heights.exactInputs w) (ν : ι) (n : Nat) (ev : Event S) (e : Engine S)
    (l : List (Effect S)) (hdel : net.Delivers w ν ev) (hpr : net.Promises (w ν).eng ev)
    (hok : P.heights.exactInputs (w ν).eng ev) (hon : (w ν).eng.on net.H n ev = some (e, l)) :
    (∀ bs pf, .act (.commit bs pf) ∈ l → ∃ y, bs.getLast? = some y ∧ pf.committedHeight = y.height ∧
      ∀ hd, P.Attached pf hd → ({ pf with childHeader := hd } : CommitProof S).verify net.H
        net.base.validators net.base.chainId net.base.anchor.hash = some y.hash) ∧
    ∀ x pf, .act (.epochEnd x pf) ∈ l → pf.committedHeight = x.height ∧
      ∀ hd, P.Attached pf hd → ({ pf with childHeader := hd } : CommitProof S).verify net.H
        net.base.validators net.base.chainId net.base.anchor.hash = some x.hash := by
  have hF : P.Faithful (P.heights.terms True True False net.valid fun _ => ⟨hS, hlen⟩) := ⟨id, id⟩
  have hf := P.heights.fits_exactInputs ⟨hS, hlen⟩
  obtain ⟨w', hrun', hdisk, hsound, -⟩ := Run.on_says hf hrun hdel hpr hok hon
  obtain ⟨gd, hfol⟩ := Run.follows trivial hf hrun'
  refine ⟨fun bs pf hmem => ?_, fun x pf hmem => ?_⟩
  · obtain ⟨p, b, base, chain, hpf, hlinked, hchain, rfl, hne⟩ := hsound _ hmem
    obtain ⟨x, way, hn⟩ := hF.names hpf
    have hx : P.hgt x.hash ≤ net.base.endHeight := by
      rw [hF.hgt hn.inTree.1]
      exact hn.le
    have hplaced : ∀ z ∈ chain, P.Placed z ∧ P.hgt z.hash = z.height := fun z hz =>
      ⟨.of_known hF.stored (hchain z hz).1.1 (hchain z hz).2, hF.hgt (hchain z hz).1.1⟩
    obtain ⟨y, hlast, hy⟩ := Exact.last_of_linked hlinked hn.linked hplaced
      (fun y hy => ⟨(hF.way hn hy).1, (hF.way hn hy).2, (hn.above y hy).2⟩) hx hne
    have hymem : y ∈ chain := (List.mem_filter.1 (List.mem_of_getLast? hlast)).1
    refine ⟨y, hlast, ?_, fun hd ha => ?_⟩
    · rw [hn.height, ← hF.hgt hn.inTree.1, ← hy, (hplaced y hymem).2]
    · rw [hy]
      exact hfol.verify hF trivial (hpf.mono hdisk) hn ha
  · obtain ⟨-, hhash, hheight⟩ := hF.epochEnd (hsound _ hmem)
    obtain ⟨p, b, hpf, -⟩ := hsound _ hmem
    obtain ⟨x', way, hn⟩ := hF.names hpf
    refine ⟨hheight.symm, fun hd ha => ?_⟩
    rw [hhash.trans hn.committed]
    exact hfol.verify hF trivial (hpf.mono hdisk) hn ha

end Net

def epochEnds (l : List (Effect S)) : List BlockInfo :=
  l.filterMap fun
    | .act (.epochEnd x _) => some x
    | _ => none

def proofs (l : List (Effect S)) : List (List BlockInfo × CommitProof S) :=
  l.filterMap fun
    | .act (.commit bs pf) => some (bs, pf)
    | _ => none

theorem exists_of_mem_epochEnds {l : List (Effect S)} {x : BlockInfo} (h : x ∈ epochEnds l) :
    ∃ pf, .act (.epochEnd x pf) ∈ l := by
  obtain ⟨a, ha, heq⟩ := List.mem_filterMap.1 h
  split at heq
  · cases heq
    exact ⟨_, ha⟩
  · cases heq

theorem mem_of_mem_proofs {l : List (Effect S)} {y : List BlockInfo × CommitProof S} (h : y ∈ proofs l) :
    .act (.commit y.1 y.2) ∈ l := by
  obtain ⟨a, ha, heq⟩ := List.mem_filterMap.1 h
  split at heq
  · cases heq
    exact ha
  · cases heq

instance {net : Net MockScheme ι} [DecidablePred net.valid] (P : net.Heights) (e : Engine MockScheme)
    (ev : Event MockScheme) : Decidable (P.truePlaces e ev) := inferInstanceAs (Decidable (_ ∧ _ ∧ _))

instance {net : Net MockScheme ι} [DecidablePred net.valid] (P : net.Heights) (e : Engine MockScheme)
    (ev : Event MockScheme) : Decidable (P.exactInputs e ev) := inferInstanceAs (Decidable (_ ∧ _))

namespace Solo

/-- One honest member of weight 5 next to two of weight 1, one of which leads round 2. -/
def members : ValidatorSet := ⟨[5, 1, 1], [0, 0, 2, 0, 0, 0, 1]⟩

def base (last : Nat) : Config := ⟨7, 0, members, [], ⟨100, 0, 0, 0⟩, last, 1000⟩

def ledger : Ledger where
  blocks := [⟨1, 100, 1, 1⟩, ⟨2, 1, 2, 2⟩]
  fresh := by decide
  height := by decide

def net (last : Nat) : Net MockScheme Unit where
  H := ledger.hasher
  base := base last
  me _ := [0]
  U := MockScheme.unforgeable _
  valid b := b ∈ ledger.blocks
  imports := False
  byzantine := {1, 2}
  weight_lt := show members.fullTotal < 2 ^ 63 by decide
  disjoint _ _ := rfl
  honest_or := show ∀ i < members.len, (∃ _ : Unit, i ∈ [0]) ∨ i ∈ ({1, 2} : Finset Nat) by decide
  byzantine_lt := show 3 * members.mass {1, 2} < members.fullTotal by decide

instance (last : Nat) : DecidablePred (net last).valid := fun b => inferInstanceAs (Decidable (b ∈ ledger.blocks))

instance (last : Nat) : Decidable (net last).imports := inferInstanceAs (Decidable False)

theorem mem_nodes (μ : Unit) : μ ∈ [()] := List.mem_singleton.2 rfl

def exact (last : Nat) : (net last).Exact := ledger.exact (net last) rfl (fun h => h) rfl rfl rfl

def first (last : Nat) : Unit → Node MockScheme :=
  (net last).replay 20 (net last).initial
    [((), .start), ((), .proposed ⟨1, 100, 1, 1⟩ (Engine.anchorQc (base last)) none [])]

def qc (height : Nat) : Qc MockScheme := ⟨0, 1, 1, height, [1], some [(0, .vote 7 0 1 1)]⟩

/-- A block on block 1, proposed in round 2 with the certificate under the given height. -/
def proposal (hash : Hash) (height : Nat) : Event MockScheme :=
  .message (.proposal ⟨0, ⟨hash, 1, 2, height + 1⟩, qc height, none, 2, [], (2, .proposal 7 0 2 hash 0)⟩)

def nil (height : Nat) : Event MockScheme := proposal (ledger.hasher.nilHash 0 1 2) height

/-- The other members show the certificate under the given heights before block 2 is proposed. -/
def second (heights : List Nat) : Unit → Node MockScheme :=
  (net 50).replay 20 (first 50) (heights.map (fun height =>
    ((), .message (.timeout ⟨0, 2, qc height, 2, (2, .timeout 7 0 2 1), none⟩))) ++ [((), proposal 2 1)])

end Solo

/-- A certificate of block 1 under the height 50 makes an engine vote for a nil block on block 1 and
end the epoch there, far below its end. -/
theorem epoch_ends_early :
    (Solo.net 50).Run Net.cleanInputs ((Solo.net 50).replay 20 (Solo.first 50) [((), Solo.nil 50)]) ∧
      (Solo.exact 50).hgt 1 < (Solo.net 50).base.endHeight ∧
      ∃ e l pf, (Solo.first 50 ()).eng.on (Solo.net 50).H 20 (Solo.nil 50) = some (e, l) ∧
        (0, .vote 7 0 2 ((Solo.net 50).H.nilHash 0 1 2)) ∈ signs l ∧
        .act (.epochEnd ⟨1, 100, 1, 1⟩ pf) ∈ l := by
  have hrun : (Solo.net 50).Run Net.cleanInputs (Solo.first 50) :=
    Net.Run.replay [()] Solo.mem_nodes rfl .refl (by decide +kernel)
  have hout : (((Solo.first 50 ()).eng.on (Solo.net 50).H 20 (Solo.nil 50)).map fun x =>
      (decide ((0, .vote 7 0 2 ((Solo.net 50).H.nilHash 0 1 2)) ∈ signs x.2), epochEnds x.2)) =
        some (true, [⟨1, 100, 1, 1⟩]) := by decide +kernel
  obtain ⟨⟨e, l⟩, hon, hl⟩ := Option.map_eq_some_iff.1 hout
  obtain ⟨hsigns, hends⟩ := Prod.mk.inj hl
  obtain ⟨pf, hpf⟩ := exists_of_mem_epochEnds (l := l) (x := ⟨1, 100, 1, 1⟩) (by simp [hends])
  exact ⟨Net.Run.replay [()] Solo.mem_nodes rfl hrun (by decide +kernel), by decide +kernel, e, l, pf, hon,
    of_decide_eq_true hsigns, hpf⟩

theorem CommitProof.verify_eq_none {H : Hasher} {pf : CommitProof S} {set : ValidatorSet} {chainId : Nat}
    {anchor : Hash} (h : pf.childQc.height ≠ pf.qc.height + 1) : pf.verify H set chainId anchor = none := by
  unfold CommitProof.verify
  rw [beq_false_of_ne h]
  simp

/-- A certificate of block 1 kept under the height 7 goes into the proof of block 1, which nobody
accepts whatever the header. -/
theorem proof_refused :
    (Solo.net 50).Run Net.cleanInputs ((Solo.net 50).replay 20 (Solo.second [7]) [((), .validated 2 true)]) ∧
      ∃ e l pf, (Solo.second [7] ()).eng.on (Solo.net 50).H 20 (.validated 2 true) = some (e, l) ∧
        .act (.commit [⟨1, 100, 1, 1⟩] pf) ∈ l ∧
        ∀ hd, ({ pf with childHeader := hd } : CommitProof MockScheme).verify (Solo.net 50).H
          (Solo.net 50).base.validators 7 100 = none := by
  have hrun : (Solo.net 50).Run Net.cleanInputs (Solo.second [7]) :=
    Net.Run.replay [()] Solo.mem_nodes rfl
      (Net.Run.replay [()] Solo.mem_nodes rfl .refl (by decide +kernel)) (by decide +kernel)
  have hout : (((Solo.second [7] ()).eng.on (Solo.net 50).H 20 (.validated 2 true)).map fun x =>
      (proofs x.2).map fun y => (y.1, y.2.qc.height, y.2.childQc.height)) =
        some [([⟨1, 100, 1, 1⟩], 7, 2)] := by decide +kernel
  obtain ⟨⟨e, l⟩, hon, hl⟩ := Option.map_eq_some_iff.1 hout
  obtain ⟨⟨bs, pf⟩, hproofs, hy⟩ := List.map_eq_singleton_iff.1 hl
  simp only [Prod.mk.injEq] at hy
  obtain ⟨rfl, hqc, hchild⟩ := hy
  refine ⟨Net.Run.replay [()] Solo.mem_nodes rfl hrun (by decide +kernel), e, l, pf, hon,
    mem_of_mem_proofs (y := (_, pf)) (by simp [hproofs]), fun hd => CommitProof.verify_eq_none ?_⟩
  rw [hqc, hchild]
  decide

/-- Under its true height the proof of block 1 verifies with the header of block 2. -/
theorem proof_accepted :
    ∃ e l pf, (Solo.second [1] ()).eng.on (Solo.net 50).H 20 (.validated 2 true) = some (e, l) ∧
      .act (.commit [⟨1, 100, 1, 1⟩] pf) ∈ l ∧ pf.committedHeight = 1 ∧
      ({ pf with childHeader := [2] } : CommitProof MockScheme).verify (Solo.net 50).H
        (Solo.net 50).base.validators 7 100 = some 1 := by
  have hrun : (Solo.net 50).Run (Solo.exact 50).heights.exactInputs (Solo.second [1]) :=
    Net.Run.replay [()] Solo.mem_nodes rfl
      (Net.Run.replay [()] Solo.mem_nodes rfl .refl (by decide +kernel)) (by decide +kernel)
  have hout : (((Solo.second [1] ()).eng.on (Solo.net 50).H 20 (.validated 2 true)).map fun x =>
      (proofs x.2).map fun y => (y.1, y.2.childQc.block)) = some [([⟨1, 100, 1, 1⟩], 2)] := by
    decide +kernel
  obtain ⟨⟨e, l⟩, hon, hl⟩ := Option.map_eq_some_iff.1 hout
  obtain ⟨⟨bs, pf⟩, hproofs, hy⟩ := List.map_eq_singleton_iff.1 hl
  obtain ⟨rfl, hchild⟩ := Prod.mk.inj hy
  have hmem : .act (.commit [⟨1, 100, 1, 1⟩] pf) ∈ l :=
    mem_of_mem_proofs (y := (_, pf)) (by simp [hproofs])
  obtain ⟨y, hlast, hheight, hverify⟩ := (Net.proofs_verify (Solo.exact 50) MockScheme.complete (by decide) hrun ()
    20 (.validated 2 true) e l (Net.delivers_sound [()] Solo.mem_nodes rfl (by decide +kernel))
    (by decide +kernel) (by decide +kernel) hon).1 _ pf hmem
  obtain rfl : (⟨1, 100, 1, 1⟩ : BlockInfo) = y := by simpa using hlast
  refine ⟨e, l, pf, hon, hmem, hheight, hverify [2] fun _ => ⟨hchild.symm, ⟨1, 2⟩, by decide +kernel, ?_⟩⟩
  rw [show pf.childQc.block = 2 from hchild]
  decide +kernel

/-- With its last block at height 1 and the certificate under its true height the epoch ends there. -/
theorem epoch_ends_at_first_block :
    ∃ e l pf, (Solo.first 1 ()).eng.on (Solo.net 1).H 20 (Solo.nil 1) = some (e, l) ∧
      .act (.epochEnd ⟨1, 100, 1, 1⟩ pf) ∈ l ∧ pf.committed = 1 ∧ e.finished = true := by
  have hrun : (Solo.net 1).Run (Solo.exact 1).heights.truePlaces (Solo.first 1) :=
    Net.Run.replay [()] Solo.mem_nodes rfl .refl (by decide +kernel)
  have hout : (((Solo.first 1 ()).eng.on (Solo.net 1).H 20 (Solo.nil 1)).map fun x => epochEnds x.2) =
      some [⟨1, 100, 1, 1⟩] := by decide +kernel
  obtain ⟨⟨e, l⟩, hon, hl⟩ := Option.map_eq_some_iff.1 hout
  obtain ⟨pf, hpf⟩ := exists_of_mem_epochEnds (l := l) (x := ⟨1, 100, 1, 1⟩) (by simp [hl])
  obtain ⟨-, hhash, hfinished⟩ := (Net.epoch_ends_at_last_block (Solo.exact 1) hrun ()).2 20 (Solo.nil 1) e l
    (Net.delivers_sound [()] Solo.mem_nodes rfl (by decide +kernel)) trivial (by decide +kernel) hon _ pf hpf
  exact ⟨e, l, pf, hon, hpf, hhash.symm, hfinished⟩

end Boltchain.Consensus
