import Boltchain.Consensus.Bitmap
import Boltchain.Consensus.Panel
import Boltchain.Consensus.Weights

namespace Boltchain.Consensus

/-- What aggregation promises: an aggregate verifies for a list only if every
member of the list signed, and the members of a list, repeated or not, can make one. -/
structure AggregateLaws (S : Scheme) (signed : Nat → SignMsg → Prop) : Prop where
  signed_of_verify : ∀ {l m agg}, S.verifyAggregate l m agg = true → ∀ i ∈ l, signed i m
  exists_aggregate : ∀ {l m}, l ≠ [] → (∀ i ∈ l, signed i m) →
    ∃ agg, S.verifyAggregate l m agg = true

structure BlsLaws (B : Bls) (signed : B.PublicKey → PanelMsg → Prop) : Prop where
  signed_of_verify : ∀ {l m sig}, B.fastAggregateVerify l m sig = true → ∀ pk ∈ l, signed pk m
  exists_aggregate : ∀ {l m}, l ≠ [] → (∀ pk ∈ l, signed pk m) →
    ∃ sig, B.fastAggregateVerify l m sig = true

def QuorumSigned (set : ValidatorSet) (signed : Nat → SignMsg → Prop)
    (m : SignMsg) : Prop :=
  ∃ A : Finset Nat, (∀ i ∈ A, i < set.len ∧ signed i m) ∧ 2 * set.fullTotal < 3 * set.mass A

def PanelSigned {B : Bls} (panel : List B.PublicKey) (signed : B.PublicKey → PanelMsg → Prop)
    (m : PanelMsg) : Prop :=
  ∃ A : Finset Nat, (∀ i ∈ A, ∃ pk, panel[i]? = some pk ∧ signed pk m) ∧ 2 * panel.length < 3 * A.card

/-- Every certificate with signer bytes `b` that `Qc.verify` accepts as non-anchor is backed
by a quorum. -/
def QcSound (set : ValidatorSet) (b : Bytes) : Prop :=
  ∀ (S : Scheme) (signed : Nat → SignMsg → Prop), AggregateLaws S signed →
    ∀ (qc : Qc S) (chainId epoch : Nat) (anchor : Hash), qc.signers = b → qc.isAnchor = false →
      qc.verify set chainId epoch anchor = true →
        QuorumSigned set signed (.vote chainId qc.epoch qc.round qc.block)

def AuditSound (b : Bytes) : Prop :=
  ∀ (B : Bls) (signed : B.PublicKey → PanelMsg → Prop), BlsLaws B signed →
    ∀ (panel : List B.PublicKey) (c : AuditCert B) (chainId : Nat), c.signers = b →
      c.verify chainId panel = true →
        PanelSigned panel signed (.audit chainId c.epoch c.task c.passed)

def VerdictSound (b : Bytes) : Prop :=
  ∀ (B : Bls) (signed : B.PublicKey → PanelMsg → Prop), BlsLaws B signed →
    ∀ (panel : List B.PublicKey) (c : VerdictCert B) (chainId : Nat), c.signers = b →
      c.verify chainId panel = true →
        PanelSigned panel signed (.verdict chainId c.epoch c.job c.fault)

def AttestSound (b : Bytes) : Prop :=
  ∀ (B : Bls) (signed : B.PublicKey → PanelMsg → Prop), BlsLaws B signed →
    ∀ (panel : List B.PublicKey) (c : AttestCert B) (chainId : Nat), c.signers = b →
      c.verify chainId panel = true →
        PanelSigned panel signed (.attest chainId c.epoch c.request c.ok c.machine)

variable {set : ValidatorSet}

theorem Qc.verify_cases {S : Scheme} {qc : Qc S} {chainId epoch : Nat}
    {anchor : Hash} (ha : qc.isAnchor = false) (h : qc.verify set chainId epoch anchor = true) :
    qc.epoch = epoch ∧ 0 < qc.round ∧ ∃ sig, qc.sig = some sig ∧
      set.isQuorum (set.weightOf (Bitmap.decode qc.signers)) = true ∧
      (∀ i ∈ Bitmap.decode qc.signers, i < set.len) ∧
      S.verifyAggregate (Bitmap.decode qc.signers) (.vote chainId qc.epoch qc.round qc.block) sig
        = true := by
  unfold Qc.verify at h
  by_cases he : qc.epoch = epoch
  · cases hs : qc.sig with
    | none => simp [he, ha, hs] at h
    | some sig =>
      simp only [he, ne_eq, not_true_eq_false, if_false, ha, Bool.false_eq_true, hs,
        Bool.and_eq_true, decide_eq_true_eq, List.all_eq_true] at h
      obtain ⟨⟨⟨hr, hq⟩, hl⟩, hv⟩ := h
      exact ⟨he, hr, sig, rfl, hq, hl, by rw [he]; exact hv⟩
  · simp [he] at h

variable {b : Bytes}

theorem qcSound_of_nodup (ht : set.fullTotal < 2 ^ 63)
    (hb : (Bitmap.decode b).Nodup) : QcSound set b := by
  intro S signed laws qc chainId epoch anchor hqb ha hv
  subst hqb
  obtain ⟨-, -, sig, -, hq, hl, hagg⟩ := Qc.verify_cases ha hv
  refine ⟨(Bitmap.decode qc.signers).toFinset, ?_, ?_⟩
  · intro i hi
    rw [List.mem_toFinset] at hi
    exact ⟨hl i hi, laws.signed_of_verify hagg i hi⟩
  · have h1 := ValidatorSet.lt_of_isQuorum ht hq
    have h2 := set.toNat_weightOf_le hb
    omega

theorem panelSigned_of_nodup {B : Bls} {signed : B.PublicKey → PanelMsg → Prop}
    (laws : BlsLaws B signed) {panel : List B.PublicKey} {m : PanelMsg}
    {sig : B.Signature} (hb : (Bitmap.decode b).Nodup) (hv : panelVerify B panel b m sig = true) :
    PanelSigned panel signed m := by
  unfold panelVerify at hv
  dsimp only at hv
  split at hv
  case isTrue => cases hv
  case isFalse h =>
    simp only [Bool.or_eq_true, decide_eq_true_eq, List.any_eq_true, not_or, not_le, not_exists,
      not_and] at h
    obtain ⟨hq, hl⟩ := h
    refine ⟨(Bitmap.decode b).toFinset, ?_, ?_⟩
    · intro i hi
      rw [List.mem_toFinset] at hi
      have hpk : panel[i]? = some (panel.get ⟨i, hl i hi⟩) := List.getElem?_eq_getElem (hl i hi)
      exact ⟨_, hpk, laws.signed_of_verify hv _ (List.mem_filterMap.2 ⟨i, hi, hpk⟩)⟩
    · rw [List.toFinset_card_of_nodup hb]
      omega

theorem auditSound_of_nodup (hb : (Bitmap.decode b).Nodup) : AuditSound b := by
  rintro B signed laws panel c chainId rfl hv
  exact panelSigned_of_nodup laws hb hv

theorem verdictSound_of_nodup (hb : (Bitmap.decode b).Nodup) : VerdictSound b := by
  rintro B signed laws panel c chainId rfl hv
  exact panelSigned_of_nodup laws hb hv

theorem attestSound_of_nodup (hb : (Bitmap.decode b).Nodup) : AttestSound b := by
  rintro B signed laws panel c chainId rfl hv
  unfold AttestCert.verify at hv
  by_cases hm : c.machine.length = 32
  · simp only [machine32, hm, if_true] at hv
    exact panelSigned_of_nodup laws hb hv
  · simp [machine32, hm] at hv

/-- The scheme with nothing but the two laws: an aggregate is a bare token. -/
def Scheme.ideal (signed : Nat → SignMsg → Bool) : Scheme where
  Sig := Unit
  Agg := Unit
  sign _ _ := ()
  verify i m _ := signed i m
  aggregate _ := some ()
  verifyAggregate l m _ := l.all (signed · m)

theorem Scheme.ideal_laws (signed : Nat → SignMsg → Bool) :
    AggregateLaws (Scheme.ideal signed) (fun i m => signed i m = true) :=
  ⟨fun h => List.all_eq_true.1 h, fun _ h => ⟨(), List.all_eq_true.2 h⟩⟩

abbrev Bls.ideal (signed : Nat → PanelMsg → Bool) : Bls where
  PublicKey := Nat
  Signature := Unit
  fastAggregateVerify l m _ := l.all (signed · m)

theorem Bls.ideal_laws (signed : Nat → PanelMsg → Bool) :
    BlsLaws (Bls.ideal signed) (fun pk m => signed pk m = true) :=
  ⟨fun h => List.all_eq_true.1 h, fun _ h => ⟨(), List.all_eq_true.2 h⟩⟩

theorem not_qcSound_of_mass
    (hl : ∀ i ∈ Bitmap.decode b, i < set.len)
    (hq : set.isQuorum (set.weightOf (Bitmap.decode b)) = true)
    (hw : 3 * set.mass (Bitmap.decode b).toFinset ≤ 2 * set.fullTotal) : ¬ QcSound set b := by
  intro h
  let S := Scheme.ideal fun i _ => decide (i ∈ Bitmap.decode b)
  let qc : Qc S := ⟨0, 1, 0, 0, b, some ()⟩
  have hagg : S.verifyAggregate (Bitmap.decode b) (.vote 0 0 1 0) () = true :=
    List.all_eq_true.2 fun i hi => decide_eq_true hi
  have hlen : (Bitmap.decode b).all (· < set.len) = true :=
    List.all_eq_true.2 fun i hi => decide_eq_true (hl i hi)
  have hv : qc.verify set 0 0 0 = true := by simp [Qc.verify, qc, Qc.isAnchor, hq, hlen, hagg]
  obtain ⟨A, hA, hm⟩ := h S _ (Scheme.ideal_laws _) qc 0 0 0 rfl rfl hv
  have hsub : A ⊆ (Bitmap.decode b).toFinset :=
    fun i hi => List.mem_toFinset.2 (of_decide_eq_true (hA i hi).2)
  have hle : set.mass A ≤ set.mass (Bitmap.decode b).toFinset := Finset.sum_le_sum_of_subset hsub
  omega

def pairSet (i : Nat) : ValidatorSet :=
  ⟨(List.range 65537).map fun j => if j = i ∨ j = 65536 then 1 else 0, []⟩

theorem pairSet_len (i : Nat) : (pairSet i).len = 65537 := by
  simp [pairSet, ValidatorSet.len]

variable {i : Nat}

theorem pairSet_weight {j : Nat} (hj : j < 65536) :
    (pairSet i).weight j = if j = i then 1 else 0 := by
  have hlt : j < 65537 := by omega
  have hne : j ≠ 65536 := by omega
  simp [ValidatorSet.weight, pairSet, hlt, hne]

theorem pairSet_fullTotal (hi : i < 65536) : (pairSet i).fullTotal = 2 := by
  have h : ∀ j : Nat, (if j = i ∨ j = 65536 then (1 : UInt64) else 0).toNat =
      (if j = i then 1 else 0) + (if j = 65536 then 1 else 0) := by
    intro j
    by_cases hj : j = i
    · have hne : i ≠ 65536 := by omega
      simp [hj, hne]
    · by_cases hk : j = 65536 <;> simp [hj, hk]
      omega
  have hsum : (pairSet i).fullTotal =
      ∑ j ∈ Finset.range 65537, ((if j = i then 1 else 0) + if j = 65536 then 1 else 0) := by
    rw [← Finset.sum_congr rfl fun j _ => h j]
    rw [ValidatorSet.fullTotal, pairSet, List.map_map]
    rfl
  have hi' : i < 65537 := by omega
  rw [hsum, Finset.sum_add_distrib, Finset.sum_ite_eq', Finset.sum_ite_eq']
  simp [hi']

theorem pairSet_weightOf (i : Nat) {l : List Nat} (hl : ∀ j ∈ l, j < 65536) :
    (pairSet i).weightOf l = UInt64.ofNat (l.count i) := by
  induction l with
  | nil => rfl
  | cons j l ih =>
    have ih := ih fun k hk => hl k (List.mem_cons_of_mem _ hk)
    have hj := pairSet_weight (i := i) (hl j List.mem_cons_self)
    rw [ValidatorSet.weightOf] at ih ⊢
    rw [List.map_cons, List.sum_cons, ih, hj, List.count_cons]
    by_cases h : j = i
    · simp [h, UInt64.ofNat_add, UInt64.add_comm]
    · simp [h]

/-- A member counted twice outweighs an equal one that did not sign. -/
theorem not_qcSound_of_not_nodup (hb : b.length < 2 ^ 64)
    (hd : ¬ (Bitmap.decode b).Nodup) :
    ∃ set : ValidatorSet, set.fullTotal < 2 ^ 63 ∧ ¬ QcSound set b := by
  obtain ⟨i, hi⟩ : ∃ i, 1 < (Bitmap.decode b).count i := by
    by_contra h
    exact hd (List.nodup_iff_count_le_one.2 fun i => not_lt.1 fun hlt => h ⟨i, hlt⟩)
  have hmem : i ∈ Bitmap.decode b := List.count_pos_iff.1 (by omega)
  have hlt := Bitmap.decode_lt hmem
  have hc := Bitmap.count_decode_le b i
  refine ⟨pairSet i, by rw [pairSet_fullTotal hlt]; decide, not_qcSound_of_mass ?_ ?_ ?_⟩
  · intro j hj
    have hj := Bitmap.decode_lt hj
    rw [pairSet_len]
    omega
  · have htot := pairSet_fullTotal hlt
    have hcount : (Bitmap.decode b).count i * 3 < 2 ^ 64 := by omega
    rw [ValidatorSet.isQuorum_eq (by omega), pairSet_weightOf i fun j hj => Bitmap.decode_lt hj,
      htot, UInt64.toNat_ofNat', decide_eq_true_eq,
      Nat.mod_eq_of_lt (by omega : (Bitmap.decode b).count i < 2 ^ 64), Nat.mod_eq_of_lt hcount]
    omega
  · have hmass : (pairSet i).mass (Bitmap.decode b).toFinset = 1 := by
      have hw : ∀ j ∈ (Bitmap.decode b).toFinset,
          ((pairSet i).weight j).toNat = if j = i then 1 else 0 := by
        intro j hj
        rw [pairSet_weight (Bitmap.decode_lt (List.mem_toFinset.1 hj))]
        split <;> rfl
      rw [ValidatorSet.mass, Finset.sum_congr rfl hw, Finset.sum_ite_eq',
        if_pos (List.mem_toFinset.2 hmem)]
    rw [hmass, pairSet_fullTotal hlt]
    decide

theorem panelVerify_wrapped (m : PanelMsg) :
    panelVerify (Bls.ideal fun pk _ => pk == 0) [0, 1] (Bitmap.twoBits 8191) m () = true := by
  simp [panelVerify, Bitmap.decode_twoBits_wrapped, Bls.ideal]

theorem not_panelSigned_wrapped (m : PanelMsg) :
    ¬ PanelSigned (B := Bls.ideal fun pk _ => pk == 0) [0, 1] (fun pk _ => (pk == 0) = true) m := by
  rintro ⟨A, hA, hm⟩
  have hsub : A ⊆ {0} := by
    intro i hi
    obtain ⟨pk, hpk, h0⟩ := hA i hi
    match i with
    | 0 => simp
    | 1 => simp_all
    | i + 2 => simp at hpk
  have hle := Finset.card_le_card hsub
  simp at hm hle
  omega

theorem not_auditSound_wrapped : ¬ AuditSound (Bitmap.twoBits 8191) := fun h =>
  not_panelSigned_wrapped _
    (h _ _ (Bls.ideal_laws fun pk _ => pk == 0) [0, 1] ⟨0, 0, true, Bitmap.twoBits 8191, ()⟩ 0 rfl (panelVerify_wrapped _))

theorem not_verdictSound_wrapped : ¬ VerdictSound (Bitmap.twoBits 8191) := fun h =>
  not_panelSigned_wrapped _
    (h _ _ (Bls.ideal_laws fun pk _ => pk == 0) [0, 1] ⟨0, 0, true, Bitmap.twoBits 8191, ()⟩ 0 rfl (panelVerify_wrapped _))

theorem not_attestSound_wrapped : ¬ AttestSound (Bitmap.twoBits 8191) := by
  intro h
  let c : AttestCert (Bls.ideal fun pk _ => pk == 0) :=
    ⟨0, 0, true, List.replicate 32 0, Bitmap.twoBits 8191, ()⟩
  have hm : machine32 c.machine = some c.machine := if_pos rfl
  have hv : c.verify 0 [0, 1] = true := by
    rw [AttestCert.verify, hm]
    exact panelVerify_wrapped _
  exact not_panelSigned_wrapped _ (h _ _ (Bls.ideal_laws fun pk _ => pk == 0) [0, 1] c 0 rfl hv)

theorem not_qcSound_wrapped : ¬ QcSound ⟨[1, 1], []⟩ (Bitmap.twoBits 8191) := by
  apply not_qcSound_of_mass
  · rw [Bitmap.decode_twoBits_wrapped]
    decide
  · rw [Bitmap.decode_twoBits_wrapped]
    decide
  · rw [Bitmap.decode_twoBits_wrapped]
    decide

theorem not_qcSound_overflow : ¬ QcSound ⟨[6148914691236517205, 3074457345618258603], []⟩ [1] := by
  apply not_qcSound_of_mass <;> decide

theorem forall_le_iff {α : Type} {size : α → Nat} {Q : α → Prop} {k : Nat} {a : α}
    (hok : ∀ x, size x ≤ k → Q x) (ha : size a = k + 1) (hbad : ¬ Q a) (n : Nat) :
    (∀ x, size x ≤ n → Q x) ↔ n ≤ k := by
  constructor
  · intro h
    by_contra hn
    exact hbad (h a (by omega))
  · intro hn x hx
    exact hok x (hx.trans hn)

/-- Signer bytes of any length a `usize` can count are sound for every committee of total weight
below `2 ^ 63` exactly if no index comes up twice, which up to 8192 bytes none can; that bound on
the weight is exact as well. For panels 8192 bytes are the exact bound. -/
theorem certificates_sound_iff (b : Bytes) (n t : Nat) :
    (b.length < 2 ^ 64 →
      ((∀ set : ValidatorSet, set.fullTotal < 2 ^ 63 → QcSound set b) ↔ (Bitmap.decode b).Nodup)) ∧
    ((∀ b : Bytes, b.length ≤ n → ∀ set : ValidatorSet, set.fullTotal < 2 ^ 63 → QcSound set b) ↔
      n ≤ 8192) ∧
    ((∀ set : ValidatorSet, set.fullTotal ≤ t → ∀ b : Bytes, b.length ≤ 8192 → QcSound set b) ↔
      t ≤ 2 ^ 63 - 1) ∧
    ((∀ b : Bytes, b.length ≤ n → AuditSound b) ↔ n ≤ 8192) ∧
    ((∀ b : Bytes, b.length ≤ n → VerdictSound b) ↔ n ≤ 8192) ∧
    ((∀ b : Bytes, b.length ≤ n → AttestSound b) ↔ n ≤ 8192) := by
  refine ⟨?_, ?_, ?_, ?_, ?_, ?_⟩
  · intro hb
    refine ⟨fun h => ?_, fun h set ht => qcSound_of_nodup ht h⟩
    by_contra hd
    obtain ⟨set, ht, hn⟩ := not_qcSound_of_not_nodup hb hd
    exact hn (h set ht)
  · refine forall_le_iff ?_ (Bitmap.twoBits_length 8191) ?_ n
    · exact fun b hb set ht => qcSound_of_nodup ht (Bitmap.decode_nodup hb)
    · exact fun h => not_qcSound_wrapped (h _ (by decide))
  · refine forall_le_iff ?_ (a := ⟨[6148914691236517205, 3074457345618258603], []⟩) ?_ ?_ t
    · exact fun set ht b hb => qcSound_of_nodup (by omega) (Bitmap.decode_nodup hb)
    · decide
    · exact fun h => not_qcSound_overflow (h [1] (by decide))
  · refine forall_le_iff ?_ (Bitmap.twoBits_length 8191) not_auditSound_wrapped n
    exact fun b hb => auditSound_of_nodup (Bitmap.decode_nodup hb)
  · refine forall_le_iff ?_ (Bitmap.twoBits_length 8191) not_verdictSound_wrapped n
    exact fun b hb => verdictSound_of_nodup (Bitmap.decode_nodup hb)
  · refine forall_le_iff ?_ (Bitmap.twoBits_length 8191) not_attestSound_wrapped n
    exact fun b hb => attestSound_of_nodup (Bitmap.decode_nodup hb)

/-- Two members of weight 1: the first signs alone, and its index is counted twice. -/
theorem qc_accepts_one_signer_of_two :
    Bitmap.decode (Bitmap.twoBits 8191) = [0, 0] ∧
      ¬ QcSound ⟨[1, 1], []⟩ (Bitmap.twoBits 8191) ∧ ¬ AuditSound (Bitmap.twoBits 8191) :=
  ⟨Bitmap.decode_twoBits_wrapped, not_qcSound_wrapped, not_auditSound_wrapped⟩

end Boltchain.Consensus
