import Boltchain.Consensus.Micro

namespace Boltchain.Consensus

open Lib.Assoc

variable {S : Scheme} {c : Ctx S} {K : Knowledge} {round : Nat} {block : Hash}

variable {height : Nat}

theorem VoteSetOk.empty (h : c.placed block height) :
    VoteSetOk c K (round, block) ⟨height, [], [], false⟩ :=
  ⟨List.nodup_nil, by simp [keys], by simp, by simp, h⟩

theorem nodup_insert {A B A' B' : List Nat} {k : Nat} (h : (A ++ B).Nodup) (hA : A'.Sublist A)
    (hB : B'.Sublist B) (hkA : k ∉ A') (hkB : k ∉ B') :
    (k :: A' ++ B').Nodup ∧ (A' ++ k :: B').Nodup := by
  have hsub : (A' ++ B').Nodup := h.sublist (hA.append hB)
  have hk : (k :: (A' ++ B')).Nodup := List.nodup_cons.2 ⟨by simp [hkA, hkB], hsub⟩
  exact ⟨hk, (List.perm_middle.nodup_iff).2 hk⟩

variable {set set' : VoteSet S} {v : Vote S} {msg : SignMsg}

theorem VoteSetOk.add (h : VoteSetOk c K (round, block) set)
    (hmsg : msg = .vote c.cfg.chainId c.cfg.epoch round block) (hlt : v.signer < c.cfg.validators.len)
    (hsig : c.U.sig K v.sig) (hadd : set.add v msg = some set') :
    VoteSetOk c K (round, block) set' := by
  subst hmsg
  have hdelP := keys_del_sublist set.pending v.signer
  have hdelS := keys_del_sublist set.sigs v.signer
  have hpend : ∀ x ∈ del set.pending v.signer, c.U.sig K x.2 := fun x hx => h.pending x (mem_del hx).1
  unfold VoteSet.add at hadd
  split at hadd
  case isTrue => cases hadd
  case isFalse hcond =>
    simp only [Bool.or_eq_true, not_or, Bool.not_eq_true, Option.isSome_eq_false_iff,
      Option.isNone_iff_eq_none] at hcond
    have hS := not_mem_keys_of_lookup hcond.2
    split at hadd
    case h_1 _ s hs =>
      split at hadd
      case isTrue => cases hadd
      case isFalse =>
        dsimp only at hadd
        split at hadd
        case h_1 _ sig hfind =>
          cases hadd
          have hsig' : c.U.sig K sig := by
            rcases List.mem_pair.1 (List.mem_of_find?_eq_some hfind) with rfl | rfl
            · exact h.pending _ (mem_of_lookup hs)
            · exact hsig
          refine ⟨(nodup_insert h.nodup hdelS hdelP not_mem_keys_del not_mem_keys_del).1, ?_, ?_, hpend,
            h.height⟩
          · intro i hi
            rcases List.mem_append.1 hi with hi | hi
            · rcases List.mem_cons.1 hi with rfl | hi
              · exact hlt
              · exact h.lt i (List.mem_append_left _ (hdelS.subset hi))
            · exact h.lt i (List.mem_append_right _ (hdelP.subset hi))
          · intro x hx
            rcases mem_put hx with rfl | hx
            · exact ⟨hsig', by simpa using List.find?_some hfind⟩
            · exact h.sigs x hx
        case h_2 =>
          cases hadd
          exact ⟨h.nodup.sublist ((List.Sublist.refl _).append hdelP),
            fun i hi => h.lt i (((List.Sublist.refl _).append hdelP).subset hi), h.sigs, hpend, h.height⟩
    case h_2 hs =>
      cases hadd
      refine ⟨(nodup_insert h.nodup (List.Sublist.refl _) hdelP hS not_mem_keys_del).2, ?_, h.sigs, ?_,
        h.height⟩
      · intro i hi
        rcases List.mem_append.1 hi with hi | hi
        · exact h.lt i (List.mem_append_left _ hi)
        · rcases List.mem_cons.1 hi with rfl | hi
          · exact hlt
          · exact h.lt i (List.mem_append_right _ (hdelP.subset hi))
      · intro x hx
        rcases mem_put hx with rfl | hx
        · exact hsig
        · exact h.pending x hx

theorem VoteSetOk.check (h : VoteSetOk c K (round, block) set)
    (hmsg : msg = .vote c.cfg.chainId c.cfg.epoch round block) :
    VoteSetOk c K (round, block) (set.check msg) := by
  subst hmsg
  have hkeys : keys (set.check (.vote c.cfg.chainId c.cfg.epoch round block)).sigs =
      keys (set.pending.filter fun x => S.verify x.1 (.vote c.cfg.chainId c.cfg.epoch round block) x.2) ++
        keys set.sigs := List.map_append
  have hsub : (keys (set.pending.filter fun x =>
      S.verify x.1 (.vote c.cfg.chainId c.cfg.epoch round block) x.2)).Sublist (keys set.pending) :=
    List.filter_sublist.map _
  refine ⟨?_, ?_, ?_, by simp [VoteSet.check], h.height⟩
  · rw [hkeys]
    have hperm : (keys set.pending ++ keys set.sigs).Nodup := List.perm_append_comm.nodup_iff.1 h.nodup
    simpa [VoteSet.check, keys] using hperm.sublist (hsub.append (List.Sublist.refl _))
  · rw [hkeys]
    intro i hi
    simp only [List.mem_append, VoteSet.check, keys, List.map_nil, List.not_mem_nil, or_false] at hi
    rcases hi with hi | hi
    · exact h.lt i (List.mem_append_right _ (hsub.subset hi))
    · exact h.lt i (List.mem_append_left _ hi)
  · intro x hx
    rcases List.mem_append.1 hx with hx | hx
    · have hx := List.mem_filter.1 hx
      exact ⟨h.pending x hx.1, hx.2⟩
    · exact h.sigs x hx

/-- The signers and the aggregate of a certificate: distinct members of a quorum in ascending order,
all of which voted. -/
structure Certifies (c : Ctx S) (K : Knowledge) (round : Nat) (block : Hash) (l : List Nat) (a : S.Agg) :
    Prop where
  sorted : l.Pairwise (· < ·)
  lt : ∀ i ∈ l, i < c.cfg.validators.len
  quorum : c.cfg.validators.isQuorum (c.cfg.validators.weightOf l) = true
  voted : ∀ i ∈ l, c.honest i → (i, .vote c.cfg.chainId c.cfg.epoch round block) ∈ K
  verified : c.complete → S.verifyAggregate l (.vote c.cfg.chainId c.cfg.epoch round block) a = true

theorem mem_signers {i : Nat} : i ∈ set.signers ↔ i ∈ keys set.sigs ++ keys set.pending :=
  (List.perm_insertionSort _ _).mem_iff

theorem VoteSetOk.sorted_signers (h : VoteSetOk c K (round, block) set) :
    set.signers.Pairwise (· < ·) := by
  have hsorted : set.signers.Pairwise (· ≤ ·) := List.pairwise_insertionSort _ _
  have hnodup : set.signers.Nodup := (List.perm_insertionSort _ _).nodup_iff.2 h.nodup
  exact (hsorted.and hnodup).imp fun h => lt_of_le_of_ne h.1 h.2

theorem forall₂_filterMap {α β : Type} {R : α → β → Prop} {f : α → Option β} {l : List α}
    (h : ∀ i ∈ l, ∃ s, f i = some s ∧ R i s) : List.Forall₂ R l (l.filterMap f) := by
  induction l with
  | nil => exact .nil
  | cons i l ih =>
    obtain ⟨s, hs, hR⟩ := h i List.mem_cons_self
    rw [List.filterMap_cons_some hs]
    exact .cons hR (ih fun j hj => h j (List.mem_cons_of_mem _ hj))

theorem VoteSetOk.sig_sigOf (h : VoteSetOk c K (round, block) set) :
    ∀ s ∈ set.signers.filterMap set.sigOf, c.U.sig K s := by
  intro s hs
  obtain ⟨i, -, hi⟩ := List.mem_filterMap.1 hs
  rw [VoteSet.sigOf, Option.or_eq_some_iff] at hi
  rcases hi with hi | ⟨-, hi⟩
  · exact (h.sigs _ (mem_of_lookup hi)).1
  · exact h.pending _ (mem_of_lookup hi)

variable {a : S.Agg}

theorem VoteSetOk.certifies (h : VoteSetOk c K (round, block) set)
    (hq : c.cfg.validators.isQuorum (c.cfg.validators.weightOf set.signers) = true)
    (hagg : S.aggregate (set.signers.filterMap set.sigOf) = some a)
    (hv : S.verifyAggregate set.signers (.vote c.cfg.chainId c.cfg.epoch round block) a = true) :
    Certifies c K round block set.signers a :=
  ⟨h.sorted_signers, fun i hi => h.lt i (mem_signers.1 hi), hq,
    fun _ hi hh => c.U.of_verifyAggregate (c.U.aggregate h.sig_sigOf hagg) hv hi hh, fun _ => hv⟩

theorem VoteSetOk.certifies_of_checked (h : VoteSetOk c K (round, block) set)
    (hp : set.pending = []) (hq : c.cfg.validators.isQuorum (c.cfg.validators.weightOf set.signers) = true)
    (hagg : S.aggregate (set.signers.filterMap set.sigOf) = some a) :
    Certifies c K round block set.signers a := by
  have hsig : ∀ i ∈ set.signers, ∃ s, set.sigOf i = some s ∧ c.U.sig K s ∧
      S.verify i (.vote c.cfg.chainId c.cfg.epoch round block) s = true := by
    intro i hi
    rw [mem_signers, hp, keys, keys, List.map_nil, List.append_nil] at hi
    obtain ⟨s, hs⟩ := lookup_of_mem_keys (m := set.sigs) hi
    exact ⟨s, by rw [VoteSet.sigOf, hs, Option.some_or], h.sigs _ (mem_of_lookup hs)⟩
  refine ⟨h.sorted_signers, fun i hi => h.lt i (mem_signers.1 hi), hq, fun i hi hh => ?_, fun hc => ?_⟩
  · obtain ⟨s, -, hs, hv⟩ := hsig i hi
    exact c.U.of_verify hs hv hh
  · refine (c.scheme hc).1.aggregate (forall₂_filterMap fun i hi => ?_) hagg
    obtain ⟨s, hs, -, hv⟩ := hsig i hi
    exact ⟨s, hs, hv⟩

theorem VoteSetOk.certify {cert : Option (List Nat × S.Agg)} (h : VoteSetOk c K (round, block) set)
    (hmsg : msg = .vote c.cfg.chainId c.cfg.epoch round block)
    (hc : set.certify c.cfg.validators msg = (set', cert)) :
    VoteSetOk c K (round, block) set' ∧ ∀ l a, cert = some (l, a) → Certifies c K round block l a := by
  unfold VoteSet.certify at hc
  split at hc
  case isTrue =>
    cases hc
    exact ⟨h, by simp⟩
  case isFalse hq =>
    rw [Bool.not_eq_true', Bool.not_eq_false] at hq
    dsimp only at hc
    split at hc
    case h_1 _ a hagg =>
      cases hc
      refine ⟨⟨h.nodup, h.lt, h.sigs, h.pending, h.height⟩, ?_⟩
      rintro l a' ⟨⟩
      obtain ⟨hsome, hv⟩ := Option.filter_eq_some_iff.1 hagg
      rcases Bool.or_eq_true_iff.1 hv with hp | hv
      · exact h.certifies_of_checked (List.isEmpty_iff.1 hp) hq hsome
      · subst hmsg
        exact h.certifies hq hsome hv
    case h_2 =>
      have h' := h.check hmsg
      split at hc
      case isTrue =>
        cases hc
        exact ⟨h', by simp⟩
      case isFalse hq' =>
        rw [Bool.not_eq_true', Bool.not_eq_false] at hq'
        split at hc
        case h_1 _ a hagg =>
          cases hc
          refine ⟨⟨h'.nodup, h'.lt, h'.sigs, h'.pending, h'.height⟩, ?_⟩
          rintro l a' ⟨⟩
          exact h'.certifies_of_checked rfl hq' hagg
        case h_2 =>
          cases hc
          exact ⟨h', by simp⟩

theorem Certifies.qcOk {l : List Nat} (h : Certifies c K round block l a)
    (hp : c.placed block height) :
    QcOk c K ⟨c.cfg.epoch, round, block, height, Bitmap.encode l c.cfg.validators.len, some a⟩ where
  epoch := rfl
  backed hs := .inr (Backed.of_nodup _ _ (c.weight_lt hs) (h.sorted.imp Nat.ne_of_lt) h.lt h.quorum h.voted)
  signers hn _ i hi hh := h.voted i (Bitmap.mem_of_mem_decode_encode hn hi) hh
  verified hc hr := by
    have hdecode := Bitmap.decode_encode (c.scheme hc).2 h.lt h.sorted
    simp only [Ctx.verifyQc, Qc.verify, Qc.isAnchor, hdecode, h.quorum, h.verified hc]
    simpa [hr] using h.lt
  height := hp

end Boltchain.Consensus
