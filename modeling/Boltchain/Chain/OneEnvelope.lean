import Boltchain.Chain.Producer

namespace Boltchain.Chain

open Consensus (Bytes Hash)
open Lib.Action Lib.Journal Lib.Sift

variable {W : World}

theorem World.beacon_inj (W : World) : Function.Injective W.beacon := by
  intro a b h
  unfold World.beacon at h
  cases a with
  | nil =>
    cases b with
    | nil => rfl
    | cons y b => exact absurd h.symm (W.keccak_ne_zero _)
  | cons x a =>
    cases b with
    | nil => exact absurd h (W.keccak_ne_zero _)
    | cons y b => exact W.keccak_inj h

/-- Whether a certificate is an attestation or a verdict, which a block lists before the audits. -/
def World.isPanelCert (W : World) (bytes : Bytes) : Bool :=
  (W.decodeAttest bytes).isSome || (W.decodeVerdict bytes).isSome

def World.keptOrder (W : World) (audits : List Bytes) : List Bytes :=
  audits.filter (fun b => W.isPanelCert b) ++ audits.filter fun b => !W.isPanelCert b

variable {db : W.State} {number : Nat}

theorem judgePanel_pass_iff (p : Panels) (b : Bytes) :
    (!W.isPanelCert b) = true ↔ judgePanel W db number p b = .ok .pass := by
  rw [judgePanel_pass]
  simp [World.isPanelCert]

theorem judgeAudit_ne_pass {epoch : Nat} {states : List Nat} {keys : List W.bls.PublicKey}
    (results : List AuditResult) (b : Bytes) : judgeAudit W epoch states keys results b ≠ .ok .pass := by
  unfold judgeAudit
  split
  · simp
  · split <;> simp

theorem checkAudits_strict {certs : List Bytes} {c : CheckedAudits}
    (h : checkAudits W db number certs true = .ok c) : c.kept = W.keptOrder certs := by
  obtain ⟨s, hs, hrest⟩ := checkAudits_ok.1 h
  obtain ⟨hkept, hpassed⟩ := sift_strict hs fun p b => judgePanel_pass_iff p b
  simp only [Bool.not_not] at hkept
  obtain ⟨hnil, rfl⟩ | ⟨-, panel, states, keys, t, -, -, ht, rfl⟩ := hrest
  · rw [hpassed] at hnil
    simp [World.keptOrder, hkept, hnil]
  · have htkept : t.kept = s.passed := by
      have hall := (sift_strict ht (p := fun _ => false)
        fun results b => iff_of_false Bool.false_ne_true (judgeAudit_ne_pass results b)).1
      simpa using hall
    simp [World.keptOrder, hkept, htkept, hpassed]

theorem PendingBlock.root_eq_iff {p q : PendingBlock W} (h : p.header = q.header) :
    p.root = q.root ↔ p.parent = q.parent ∧ p.certs.audits = q.certs.audits := by
  have htxs : p.transactions = q.transactions :=
    W.transactionRoot_inj (by rw [← p.transactionsRoot_eq, ← q.transactionsRoot_eq, h])
  have hqc : p.certs.qc = q.certs.qc :=
    W.beacon_inj (Option.some.inj (by rw [← p.beacon_eq, ← q.beacon_eq, h]))
  unfold PendingBlock.root
  rw [W.cid_inj.eq_iff]
  unfold PendingBlock.envelope
  rw [Envelope.mk.injEq]
  simp [h, htxs, hqc]

namespace Node

variable {n m : Node W} {header : Header} {p q : PendingBlock W}

/-- The parent envelope and the panel certificates of the block a verification answers with: those it
is held under, if it is pending, and otherwise the head's envelope and the given certificates. -/
def answer (n : Node W) (header : Header) (certs : Certs) : Option Cid × List Bytes :=
  match n.pendingBlock (W.hash header) with
  | some held => (held.parent, held.certs.audits)
  | none => (some n.tip.root, W.keptOrder certs.audits)

theorem view_head (n : Node W) : n.view (W.hash n.head) = .ok (n.viewOver []) := by
  have hchain : n.pendingChain (W.hash n.head) = .ok [] := by
    unfold pendingChain pendingChainFrom
    rw [if_pos rfl]
  rw [view, hchain]
  rfl

theorem verifyBlock_answer {txs : List W.Tx} {certs : Certs} (hparent : header.parentHash = W.hash n.head)
    (h : n.verifyBlock header txs certs = .ok p) : n.answer header certs = (p.parent, p.certs.audits) := by
  unfold answer
  cases hp : n.pendingBlock (W.hash header) with
  | some held =>
    unfold verifyBlock at h
    rw [hp] at h
    cases h
    rfl
  | none =>
    obtain ⟨parent, senders, v, -, -, -, -, -, -, hview, r, hr, rfl⟩ := verifyBlock_ok hp h
    rw [hparent, view_head] at hview
    cases hview
    obtain ⟨kind, evm, audits, s, -, -, hstart, -, -, rfl⟩ := View.executeOn_ok hr
    obtain ⟨-, index, checked, evm₀, -, hchecked, -, -, rfl⟩ := View.start_ok.1 hstart
    have hkept := checkAudits_strict hchecked
    show (some n.tip.root, W.keptOrder certs.audits) = (some n.tip.root, checked.kept)
    rw [hkept]

theorem envelopes_push (h : m.envelopes = n.envelopes) (hheader : q.header = p.header) (hroot : q.root = p.root) :
    (m.push q).envelopes = (n.push p).envelopes := by
  show (q.header, q.root) :: m.envelopes = (p.header, p.root) :: n.envelopes
  rw [hheader, hroot, h]

theorem Rooted.push (h : n.Rooted) (hp : p.header.Follows W n.head) : (n.push p).Rooted where
  linked := List.isChain_cons_cons.2 ⟨hp, h.linked⟩
  root b hb := h.root b (by simpa [Node.push, canonical] using hb)

end Node

/-- Two successful verifications of one header, on nodes whose chains have the same headers and
envelopes up to its parent, give one envelope exactly if they answer with the same parent envelope and
the same panel certificates in the order a block keeps them. If they do, then after the block is
committed the nodes compute the same epoch index and judge every next block alike. -/
theorem one_header_one_envelope {n m : Node W} (hn : n.Rooted) (hpends : n.Pends) (hsame : m.envelopes = n.envelopes)
    {header : Header} (hparent : header.parentHash = W.hash n.head) {txs txs' : List W.Tx}
    {certs certs' : Certs} {p q : PendingBlock W} (hp : n.verifyBlock header txs certs = .ok p)
    (hq : m.verifyBlock header txs' certs' = .ok q) :
    (p.root = q.root ↔ n.answer header certs = m.answer header certs') ∧
    (p.root = q.root → W.stateRoot (write n.state p.changes) = header.stateRoot →
      W.stateRoot (write m.state q.changes) = header.stateRoot →
      (∀ number, ((m.push q).viewOver []).epochIndexBefore number =
        ((n.push p).viewOver []).epochIndexBefore number) ∧
      ∀ next txs certs, next.parentHash = W.hash header →
        (n.push p).pendingBlock (W.hash next) = none → (m.push q).pendingBlock (W.hash next) = none →
        (m.push q).verifyBlock next txs certs = (n.push p).verifyBlock next txs certs) := by
  have hhead : m.head = n.head := congrArg Prod.fst (List.cons.inj hsame).1
  have hpheader := Node.verifyBlock_header hp
  have hqheader := Node.verifyBlock_header hq
  refine ⟨?_, fun hroot hpstate hqstate => ?_⟩
  · rw [Node.verifyBlock_answer hparent hp, Node.verifyBlock_answer (hhead ▸ hparent) hq, Prod.mk.injEq]
    exact PendingBlock.root_eq_iff (hpheader.trans hqheader.symm)
  · have hpush : (m.push q).envelopes = (n.push p).envelopes :=
      Node.envelopes_push hsame (hqheader.trans hpheader.symm) hroot.symm
    have hstate : (m.push q).state = (n.push p).state := W.stateRoot_inj (hqstate.trans hpstate.symm)
    have hchain : ∀ k : Node W, k.head = header → k.pendingChain (W.hash header) = .ok [] := by
      rintro k rfl
      unfold Node.pendingChain Node.pendingChainFrom
      rw [if_pos rfl]
    have hsame' : (n.push p).SameAncestors (m.push q) (W.hash header) :=
      ⟨hpush, hstate, by rw [hchain (m.push q) hqheader, hchain (n.push p) hpheader]⟩
    obtain ⟨parent, hfollows⟩ := Node.verifyBlock_follows hpends hp
    obtain rfl : parent = n.head := W.hash_inj (by rw [← hfollows.1, hpheader, hparent])
    have hview := hsame'.view_eq (hn.push hfollows)
    refine ⟨fun number => ?_, fun next txs certs hnext hpfresh hqfresh => ?_⟩
    · have hpview := Node.view_head (n.push p)
      have hqview := Node.view_head (m.push q)
      rw [show (n.push p).head = header from hpheader] at hpview
      rw [show (m.push q).head = header from hqheader, hview, hpview] at hqview
      rw [Except.ok.inj hqview]
    · have hheaderOf : ∀ k : Node W, k.head = header → k.headerOf (W.hash header) = some header := by
        rintro k rfl
        exact k.headerOf_head
      unfold Node.verifyBlock
      rw [hpfresh, hqfresh, hnext, hview, hheaderOf (m.push q) hqheader, hheaderOf (n.push p) hpheader]

theorem Held.verified (n : Node Held.world) (audits : List Bytes)
    (h : (n.verifyBlock Held.header ([] : List Nat) ⟨[], audits⟩).toOption.map (·.certs.audits) = some audits) :
    ∃ p, n.verifyBlock Held.header ([] : List Nat) ⟨[], audits⟩ = .ok p ∧ p.certs.audits = audits := by
  cases hv : n.verifyBlock Held.header ([] : List Nat) ⟨[], audits⟩ with
  | error e => rw [hv] at h; cases h
  | ok p => rw [hv] at h; exact ⟨p, rfl, Option.some.inj h⟩

theorem two_envelopes_of_one_header :
    ∃ p q : PendingBlock Held.world,
      (Node.opened Held.world).verifyBlock Held.header ([] : List Nat) ⟨[], [[1]]⟩ = .ok p ∧
      (Node.opened Held.world).verifyBlock Held.header ([] : List Nat) ⟨[], [[1, 0]]⟩ = .ok q ∧
      p.root ≠ q.root := by
  obtain ⟨p, hp, hpaudits⟩ := Held.verified (Node.opened Held.world) [[1]] (by decide +kernel)
  obtain ⟨q, hq, hqaudits⟩ := Held.verified (Node.opened Held.world) [[1, 0]] (by decide +kernel)
  refine ⟨p, q, hp, hq, fun hroot => ?_⟩
  have hlists : p.certs.audits = q.certs.audits := congrArg Envelope.audits (Held.world.cid_inj hroot)
  rw [hpaudits, hqaudits] at hlists
  exact absurd hlists (by decide)

theorem one_envelope_of_same_certs :
    ∃ p q : PendingBlock Held.world,
      (Node.opened Held.world).verifyBlock Held.header ([] : List Nat) ⟨[], [[1]]⟩ = .ok p ∧
      Held.builder.verifyBlock Held.header ([] : List Nat) ⟨[], [[1]]⟩ = .ok q ∧ p.root = q.root := by
  have hrooted : (Node.opened Held.world).Rooted := ⟨List.isChain_singleton _, by rintro b ⟨⟩; rfl⟩
  obtain ⟨p, hp, -⟩ := Held.verified (Node.opened Held.world) [[1]] (by decide +kernel)
  obtain ⟨q, hq, -⟩ := Held.verified Held.builder [[1]] (by decide +kernel)
  have hiff := (one_header_one_envelope hrooted (fun p hp => by cases hp) rfl (by decide +kernel) hp hq).1
  exact ⟨p, q, hp, hq, hiff.2 rfl⟩

end Boltchain.Chain
