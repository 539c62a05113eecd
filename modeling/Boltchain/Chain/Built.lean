import Boltchain.Chain.OneEnvelope

namespace Boltchain.Chain

open Consensus (Bytes Hash)
open Lib.Action Lib.Journal

variable {W : World}

def Node.bare (tip : StoredBlock W) (below : List (StoredBlock W)) (state : W.State) : Node W :=
  { Node.opened W with tip, below, state }

/-- Chains of blocks that were verified one after the other, newest first, with the state after them. -/
inductive Built : List (StoredBlock W) → W.State → Prop where
  | genesis : Built [.genesis W] W.genesisState
  | push {tip : StoredBlock W} {below : List (StoredBlock W)} {state : W.State} {p : PendingBlock W}
      (h : Built (tip :: below) state)
      (hp : (Node.bare tip below state).verifyBlock p.header p.transactions p.certs = .ok p) :
      Built (p.stored tip.td :: tip :: below) (write state p.changes)

section

variable {tip : StoredBlock W} {below : List (StoredBlock W)} {state : W.State} {p : PendingBlock W}
  {header : Header} {txs : List W.Tx} {certs : Certs}

theorem verifyBlock_bare (h : (Node.bare tip below state).verifyBlock header txs certs = .ok p) :
    header.parentHash = W.hash tip.header ∧ tip.header.timestamp < header.timestamp ∧
      validGasLimit tip.header.gasLimit header.gasLimit = true ∧
      ∃ senders r, txs.mapM W.recoverSigner = some senders ∧
        ((Node.bare tip below state).viewOver []).executeOn (.of header) (txs.zip senders) (some header) certs =
          .ok r ∧ r.block = p := by
  obtain ⟨parent, senders, v, hparent, -, htime, hgas, -, hsenders, hview, r, hr, rfl⟩ :=
    Node.verifyBlock_ok rfl h
  unfold Node.view at hview
  cases hchain : (Node.bare tip below state).pendingChain header.parentHash with
  | error e => rw [hchain] at hview; cases hview
  | ok ancestors =>
    obtain ⟨hhead, rfl⟩ | ⟨q, hq, -⟩ := Node.pendingChain_ok hchain
    · rw [hchain] at hview
      cases hview
      rw [hhead, Node.headerOf_head] at hparent
      cases hparent
      exact ⟨hhead, htime, hgas, senders, r, hsenders, hr, rfl⟩
    · cases hq

theorem verifyBlock_bare_follows (h : (Node.bare tip below state).verifyBlock header txs certs = .ok p) :
    p.header.Follows W tip.header := by
  obtain ⟨-, -, -, senders, r, -, hr, rfl⟩ := verifyBlock_bare h
  exact View.executeOn_follows hr

theorem verifyBlock_bare_stateRoot (h : (Node.bare tip below state).verifyBlock header txs certs = .ok p) :
    W.stateRoot (write state p.changes) = p.header.stateRoot := by
  obtain ⟨-, -, -, senders, r, -, hr, rfl⟩ := verifyBlock_bare h
  exact (View.executeOn_stateRoot hr).symm

theorem verifyBlock_kept (h : (Node.bare tip below state).verifyBlock header txs certs = .ok p) :
    (Node.bare tip below state).verifyBlock p.header p.transactions p.certs = .ok p := by
  have hheader := Node.verifyBlock_header h
  obtain ⟨hparent, htime, hgas, senders, r, hsenders, hr, rfl⟩ := verifyBlock_bare h
  have hview : (Node.bare tip below state).view (W.hash tip.header) =
      .ok ((Node.bare tip below state).viewOver []) := Node.view_head (Node.bare tip below state)
  have hkind : ∀ kind, ((Node.bare tip below state).viewOver []).kindOf = .ok kind →
      ((Node.bare tip below state).viewOver []).checkKind (r.block.sealed r.block.header.nonce).header kind =
        .ok () := by
    intro kind hkind
    obtain ⟨kind', _, _, _, hk, hcheck, -, -, hexp, -⟩ := View.executeOn_ok hr
    obtain rfl : kind = kind' := Except.ok.inj (hkind.symm.trans hk)
    have hchecked := hcheck header rfl
    rw [hexp header rfl] at hchecked
    exact hchecked
  exact verifyBlock_again hr (recoverSigner_zip hsenders) hview (hheader ▸ htime) (hheader ▸ hgas) hkind rfl

end

namespace Built

variable {b c : StoredBlock W} {l l' : List (StoredBlock W)} {s s' : W.State}

theorem cons_inv (h : Built (b :: c :: l) s) :
    ∃ p s', Built (c :: l) s' ∧ (Node.bare c l s').verifyBlock p.header p.transactions p.certs = .ok p ∧
      b = p.stored c.td ∧ s = write s' p.changes := by
  cases h with
  | push h hp => exact ⟨_, _, h, hp, rfl, rfl⟩

theorem stateRoot (h : Built (b :: l) s) : W.stateRoot s = b.header.stateRoot := by
  cases h with
  | genesis => exact W.genesis_stateRoot.symm
  | push h hp => exact verifyBlock_bare_stateRoot hp

theorem unique (h : Built l s) (h' : Built l s') : s = s' := by
  cases l with
  | nil => cases h
  | cons b l => exact W.stateRoot_inj (h.stateRoot.trans h'.stateRoot.symm)

theorem suffix (h : Built l s) (hl : l' <:+ l) (hne : l' ≠ []) : ∃ s', Built l' s' := by
  induction h with
  | genesis =>
    rcases List.suffix_cons_iff.1 hl with rfl | hnil
    · exact ⟨_, .genesis⟩
    · exact absurd (List.suffix_nil.1 hnil) hne
  | push h hp ih =>
    rcases List.suffix_cons_iff.1 hl with rfl | hl
    · exact ⟨_, .push h hp⟩
    · exact ih hl

theorem linked (h : Built l s) : l.IsChain fun b c => b.header.Follows W c.header := by
  induction h with
  | genesis => exact List.isChain_singleton _
  | push h hp ih => exact List.isChain_cons_cons.2 ⟨verifyBlock_bare_follows hp, ih⟩

theorem root (h : Built l s) : ∀ b ∈ l.getLast?, b.header.number = 0 := by
  induction h with
  | genesis =>
    rintro b ⟨⟩
    exact W.genesis_number
  | push h hp ih => simpa using ih

end Built

namespace Node

variable {n : Node W} {header : Header} {txs : List W.Tx} {certs : Certs} {p : PendingBlock W}

theorem rooted_of_built (h : Built n.canonical n.state) : n.Rooted := ⟨h.linked, h.root⟩

theorem verifyBlock_eq_bare (h : Built n.canonical n.state) (hparent : header.parentHash = W.hash n.head)
    (hfresh : n.pendingBlock (W.hash header) = none) :
    n.verifyBlock header txs certs = (bare n.tip n.below n.state).verifyBlock header txs certs := by
  have hchain : ∀ k : Node W, k.head = n.head → k.pendingChain header.parentHash = .ok [] := by
    intro k hk
    unfold pendingChain pendingChainFrom
    rw [if_pos (by rw [hparent, hk])]
  have hsame : (bare n.tip n.below n.state).SameAncestors n header.parentHash :=
    ⟨rfl, rfl, (hchain n rfl).trans (hchain (bare n.tip n.below n.state) rfl).symm⟩
  have hrooted : (bare n.tip n.below n.state).Rooted := rooted_of_built h
  have hbare : (bare n.tip n.below n.state).headerOf header.parentHash = some n.head := by
    rw [hparent]
    exact (bare n.tip n.below n.state).headerOf_head
  have hn : n.headerOf header.parentHash = some n.head := by rw [hparent, headerOf_head]
  have hnone : (bare n.tip n.below n.state).pendingBlock (W.hash header) = none := rfl
  unfold verifyBlock
  rw [hfresh, hnone, hn, hbare, hsame.view_eq hrooted]

theorem built_push (h : Built n.canonical n.state) (hparent : header.parentHash = W.hash n.head)
    (hfresh : n.pendingBlock (W.hash header) = none) (hp : n.verifyBlock header txs certs = .ok p) :
    Built (n.push p).canonical (n.push p).state := by
  rw [verifyBlock_eq_bare h hparent hfresh] at hp
  exact .push h (verifyBlock_kept hp)

end Node

end Boltchain.Chain
