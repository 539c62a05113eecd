import Boltchain.Consensus.CertSoundness
import Boltchain.Consensus.Engine
import Boltchain.Lib.Quorum

namespace Boltchain.Consensus

variable {S : Scheme}

abbrev Knowledge := Set (Nat × SignMsg)

/-- Signatures that can be made by whoever knows the honest signatures in `K` (and holds every
other key), and that such values verify for an honest signer only if `K` has its signature. -/
structure Unforgeable (S : Scheme) (honest : Nat → Prop) where
  sig : Knowledge → S.Sig → Prop
  agg : Knowledge → S.Agg → Prop
  sig_mono : ∀ {K K' s}, K ⊆ K' → sig K s → sig K' s
  agg_mono : ∀ {K K' a}, K ⊆ K' → agg K a → agg K' a
  sign : ∀ {K i m}, (i, m) ∈ K → sig K (S.sign i m)
  aggregate : ∀ {K l a}, (∀ s ∈ l, sig K s) → S.aggregate l = some a → agg K a
  of_verify : ∀ {K i m s}, sig K s → S.verify i m s = true → honest i → (i, m) ∈ K
  of_verifyAggregate : ∀ {K l m a i}, agg K a → S.verifyAggregate l m a = true → i ∈ l →
    honest i → (i, m) ∈ K

namespace Proposal

def qcs (p : Proposal S) : List (Qc S) := p.qc :: p.tc.toList.map (·.highQc)

def tcSigs (tc : Option (Tc S)) : List S.Sig := tc.toList.flatMap fun tc => tc.entries.map (·.2.2)

end Proposal

def Message.qcs : Message S → List (Qc S)
  | .proposal p => p.qcs
  | .vote _ => []
  | .timeout t => t.highQc :: t.lastTc.toList.map (·.highQc)

def Message.sigs : Message S → List S.Sig
  | .proposal p => p.sig :: Proposal.tcSigs p.tc
  | .vote v => [v.sig]
  | .timeout t => t.sig :: Proposal.tcSigs t.lastTc

def Event.qcs : Event S → List (Qc S)
  | .message m => m.qcs
  | .proposed _ qc tc _ => qc :: tc.toList.map (·.highQc)
  | .externalCommit _ qc => [qc]
  | _ => []

def Event.sigs : Event S → List S.Sig
  | .message m => m.sigs
  | .proposed _ _ tc _ => Proposal.tcSigs tc
  | _ => []

def Qc.Clean (qc : Qc S) : Prop := (Bitmap.decode qc.signers).Nodup

instance (qc : Qc S) : Decidable qc.Clean := inferInstanceAs (Decidable (List.Nodup _))

namespace Unforgeable

variable {honest : Nat → Prop} (U : Unforgeable S honest)

def ofQc (K : Knowledge) (qc : Qc S) : Prop := ∀ a, qc.sig = some a → U.agg K a

def ofEvent (K : Knowledge) (ev : Event S) : Prop :=
  (∀ qc ∈ ev.qcs, U.ofQc K qc) ∧ ∀ s ∈ ev.sigs, U.sig K s

variable {U} in
theorem ofEvent.mono {K K' : Knowledge} {ev : Event S} (hK : K ⊆ K') (h : U.ofEvent K ev) :
    U.ofEvent K' ev :=
  ⟨fun qc hqc a ha => U.agg_mono hK (h.1 qc hqc a ha), fun s hs => U.sig_mono hK (h.2 s hs)⟩

end Unforgeable

variable {tc : Tc S}

theorem Tc.le_maxQcRound {e : Nat × Nat × S.Sig} (he : e ∈ tc.entries) :
    e.2.1 ≤ tc.maxQcRound := by
  have h : ∀ (l : List Nat) (a : Nat), a ∈ l → a ≤ l.foldr max 0 := by
    intro l a ha
    induction l with
    | nil => cases ha
    | cons b l ih =>
      rcases List.mem_cons.1 ha with rfl | ha
      · exact le_max_left _ _
      · exact (ih ha).trans (le_max_right _ _)
  exact h _ _ (List.mem_map_of_mem he)

theorem Tc.maxQcRound_le {k : Nat} (h : ∀ e ∈ tc.entries, e.2.1 ≤ k) : tc.maxQcRound ≤ k := by
  unfold Tc.maxQcRound
  revert h
  induction tc.entries with
  | nil => exact fun _ => Nat.zero_le k
  | cons x l ih =>
    intro h
    exact max_le (h x List.mem_cons_self) (ih fun e he => h e (List.mem_cons_of_mem _ he))

section

variable (cfg : Config) (honest : Nat → Prop)

/-- Members of more than 2/3 of the weight, the honest ones among which satisfy `P`. -/
def Backed (P : Nat → Prop) : Prop :=
  ∃ A : Finset Nat, (∀ i ∈ A, i < cfg.validators.len) ∧
    2 * cfg.validators.fullTotal < 3 * cfg.validators.mass A ∧ ∀ i ∈ A, honest i → P i

variable {P : Nat → Prop}

theorem Backed.mono {Q : Nat → Prop} (h : Backed cfg honest P) (hPQ : ∀ i, P i → Q i) :
    Backed cfg honest Q := by
  obtain ⟨A, hl, hq, hA⟩ := h
  exact ⟨A, hl, hq, fun i hi hh => hPQ i (hA i hi hh)⟩

theorem Backed.of_nodup {l : List Nat} (ht : cfg.validators.fullTotal < 2 ^ 63)
    (hd : l.Nodup) (hl : ∀ i ∈ l, i < cfg.validators.len)
    (hq : cfg.validators.isQuorum (cfg.validators.weightOf l) = true)
    (hP : ∀ i ∈ l, honest i → P i) : Backed cfg honest P := by
  refine ⟨l.toFinset, fun i hi => hl i (List.mem_toFinset.1 hi), ?_,
    fun i hi => hP i (List.mem_toFinset.1 hi)⟩
  have h1 := ValidatorSet.lt_of_isQuorum ht hq
  have h2 := cfg.validators.toNat_weightOf_le hd
  omega

def Voted (K : Knowledge) (round : Nat) (block : Hash) : Prop :=
  Backed cfg honest fun i => (i, .vote cfg.chainId cfg.epoch round block) ∈ K

/-- A quorum gave up on `round`, reporting certificates of rounds up to `q`. -/
def GaveUp (K : Knowledge) (round q : Nat) : Prop :=
  Backed cfg honest fun i => ∃ t ≤ q, (i, .timeout cfg.chainId cfg.epoch round t) ∈ K

end

/-- What a scheme gives besides: what `sign` makes verifies, and so does the aggregate of signatures
that verify. -/
structure Scheme.Complete (S : Scheme) : Prop where
  sign : ∀ i m, S.verify i m (S.sign i m) = true
  aggregate : ∀ {l sigs m a}, List.Forall₂ (fun i s => S.verify i m s = true) l sigs →
    S.aggregate sigs = some a → S.verifyAggregate l m a = true

/-- An engine's surroundings: what is known of the signatures, whether signer lists name nobody
twice (`strict`), whether the scheme accepts what it makes (`complete`), whether nobody's timeouts
of a round report less than before (`ordered`), which blocks the node's
check passes (`valid`), which ones enter the block tree (`stored`), the heights certificates and
blocks may come under (`placed`), whether the node proposes unasked and whether it imports final
blocks from elsewhere. -/
structure Ctx (S : Scheme) where
  H : Hasher
  cfg : Config
  honest : Nat → Prop
  U : Unforgeable S honest
  strict : Prop
  complete : Prop
  ordered : Prop
  valid : BlockInfo → Prop
  stored : BlockInfo → Prop
  placed : Hash → Nat → Prop
  unasked : Prop
  imports : Prop
  weight_lt : strict → cfg.validators.fullTotal < 2 ^ 63
  scheme : complete → S.Complete ∧ cfg.validators.len ≤ 65536
  placed_anchor : placed cfg.anchor.hash cfg.anchor.height
  placed_valid : ∀ {b}, valid b → placed b.hash b.height
  placed_nil : ∀ {p k} r, cfg.endHeight ≤ k → placed p k → placed (H.nilHash cfg.epoch p r) (k + 1)

namespace Ctx

variable (c : Ctx S)

def verifyQc (qc : Qc S) : Bool :=
  qc.verify c.cfg.validators c.cfg.chainId c.cfg.epoch c.cfg.anchor.hash

def verifyTc (tc : Tc S) : Bool :=
  tc.verify c.cfg.validators c.cfg.chainId c.cfg.epoch c.cfg.anchor.hash

end Ctx

variable (c : Ctx S)

/-- Those the signer bytes name did vote, and the block stands at the certificate's height. Where
signer lists are known to name nobody twice (`strict`), the certificate is the epoch's anchor or
stands for a quorum of votes. -/
structure QcOk (K : Knowledge) (qc : Qc S) : Prop where
  epoch : qc.epoch = c.cfg.epoch
  backed : c.strict → qc.round = 0 ∧ qc.block = c.cfg.anchor.hash ∨
    Voted c.cfg c.honest K qc.round qc.block
  signers : c.cfg.validators.len ≤ 65536 → qc.sig.isSome = true → ∀ i ∈ Bitmap.decode qc.signers,
    c.honest i → (i, .vote c.cfg.chainId c.cfg.epoch qc.round qc.block) ∈ K
  verified : c.complete → 0 < qc.round → c.verifyQc qc = true
  height : c.placed qc.block qc.height

structure TcOk (K : Knowledge) (tc : Tc S) : Prop where
  highQc : QcOk c K tc.highQc
  gaveUp : c.strict → GaveUp c.cfg c.honest K tc.round tc.maxQcRound
  signers : ∀ x ∈ tc.entries, c.honest x.1 →
    (x.1, .timeout c.cfg.chainId c.cfg.epoch tc.round x.2.1) ∈ K
  verified : c.complete → c.ordered → c.verifyTc tc = true

variable {c} {K K' : Knowledge}

variable {qc : Qc S}

theorem QcOk.mono (hK : K ⊆ K') (h : QcOk c K qc) : QcOk c K' qc :=
  { h with
    backed := fun hs => (h.backed hs).imp id fun h => h.mono _ _ fun _ hi => hK hi
    signers := fun hn hs i hi hh => hK (h.signers hn hs i hi hh) }

theorem TcOk.mono (hK : K ⊆ K') (h : TcOk c K tc) : TcOk c K' tc :=
  { h with
    highQc := h.highQc.mono hK
    gaveUp := fun hs => (h.gaveUp hs).mono _ _ fun _ ⟨t, ht, hi⟩ => ⟨t, ht, hK hi⟩
    signers := fun x hx hh => hK (h.signers x hx hh) }

theorem QcOk.of_verify (hc : c.strict → qc.Clean) (hU : c.U.ofQc K qc)
    (hp : c.placed qc.block qc.height) (h : c.verifyQc qc = true) : QcOk c K qc := by
  cases ha : qc.isAnchor with
  | true =>
    have ha' := ha
    simp only [Qc.isAnchor, Bool.and_eq_true, beq_iff_eq, Option.isNone_iff_eq_none] at ha'
    have hv := h
    unfold Ctx.verifyQc Qc.verify at hv
    rw [ha] at hv
    by_cases he : qc.epoch = c.cfg.epoch
    · simp only [he, ne_eq, not_true_eq_false, if_false, if_true, beq_iff_eq] at hv
      exact ⟨he, fun _ => .inl ⟨ha'.1, hv⟩, fun _ hs => by simp [ha'.2] at hs, fun _ _ => h, hp⟩
    · simp [he] at hv
  | false =>
    obtain ⟨he, -, a, hs, hq, hl, hv⟩ := Qc.verify_cases ha h
    rw [he] at hv
    have hK : ∀ i ∈ Bitmap.decode qc.signers, c.honest i →
        (i, .vote c.cfg.chainId c.cfg.epoch qc.round qc.block) ∈ K :=
      fun i hi hh => c.U.of_verifyAggregate (hU a hs) hv hi hh
    exact ⟨he, fun hs => .inr (Backed.of_nodup _ _ (c.weight_lt hs) (hc hs) hl hq hK), fun _ _ => hK,
      fun _ _ => h, hp⟩

theorem TcOk.of_verify (hqc : c.verifyQc tc.highQc = true → QcOk c K tc.highQc)
    (hs : ∀ e ∈ tc.entries, c.U.sig K e.2.2) (h : c.verifyTc tc = true) : TcOk c K tc := by
  have hv := h
  unfold Ctx.verifyTc Tc.verify at hv
  simp only [Bool.and_eq_true, List.all_eq_true, decide_eq_true_eq] at hv
  obtain ⟨⟨⟨⟨⟨-, hq⟩, hl⟩, he⟩, -⟩, hhigh⟩ := hv
  have hK : ∀ e ∈ tc.entries, c.honest e.1 →
      (e.1, .timeout c.cfg.chainId c.cfg.epoch tc.round e.2.1) ∈ K :=
    fun e hmem hh => c.U.of_verify (hs e hmem) (he e hmem).2 hh
  refine ⟨hqc hhigh, fun hst => ?_, hK, fun _ _ => h⟩
  refine Backed.of_nodup _ _ (c.weight_lt hst) (List.nodup_dedup _) hl hq fun i hi hh => ?_
  obtain ⟨e, hmem, rfl⟩ := List.mem_map.1 (List.mem_dedup.1 hi)
  exact ⟨e.2.1, Tc.le_maxQcRound hmem, hK e hmem hh⟩

end Boltchain.Consensus
