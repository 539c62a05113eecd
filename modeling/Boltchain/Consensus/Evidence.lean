import Boltchain.Consensus.Types

namespace Boltchain.Consensus

def toBeBytes : Nat → Nat → Bytes
  | 0, _ => []
  | k + 1, n => toBeBytes k (n / 256) ++ [UInt8.ofNat n]

def ofBeBytes (bs : Bytes) : Nat := bs.foldl (fun n b => n * 256 + b.toNat) 0

@[simp]
theorem toBeBytes_length (k n : Nat) : (toBeBytes k n).length = k := by
  induction k generalizing n with
  | zero => rfl
  | succ k ih => rw [toBeBytes, List.length_append, ih, List.length_singleton]

theorem ofBeBytes_toBeBytes (k n : Nat) : ofBeBytes (toBeBytes k n) = n % 256 ^ k := by
  induction k generalizing n with
  | zero => simp [toBeBytes, ofBeBytes, Nat.mod_one]
  | succ k ih =>
    have hlast : (UInt8.ofNat n).toNat = n % 256 := UInt8.toNat_ofNat'
    have hinit : List.foldl (fun n (b : UInt8) => n * 256 + b.toNat) 0 (toBeBytes k (n / 256)) =
        n / 256 % 256 ^ k := ih (n / 256)
    rw [ofBeBytes, toBeBytes, List.foldl_append, List.foldl_cons, List.foldl_nil, hinit, hlast,
      pow_succ, mul_comm (256 ^ k), Nat.mod_mul]
    omega

theorem toBeBytes_inj {k m n : Nat} (hm : m < 256 ^ k) (hn : n < 256 ^ k)
    (h : toBeBytes k m = toBeBytes k n) : m = n := by
  have h' := congrArg ofBeBytes h
  rwa [ofBeBytes_toBeBytes, ofBeBytes_toBeBytes, Nat.mod_eq_of_lt hm, Nat.mod_eq_of_lt hn] at h'

theorem toBeBytes_ofBeBytes (bs : Bytes) : toBeBytes bs.length (ofBeBytes bs) = bs := by
  induction bs using List.reverseRecOn with
  | nil => rfl
  | append_singleton bs b ih =>
    have hlast : ofBeBytes (bs ++ [b]) = ofBeBytes bs * 256 + b.toNat := by
      simp only [ofBeBytes, List.foldl_append, List.foldl_cons, List.foldl_nil]
    have hlt : b.toNat < 256 := UInt8.toNat_lt b
    have hdiv : (ofBeBytes bs * 256 + b.toNat) / 256 = ofBeBytes bs := by omega
    have hmod : UInt8.ofNat (ofBeBytes bs * 256 + b.toNat) = b := by
      apply UInt8.toNat_inj.1
      rw [UInt8.toNat_ofNat']
      omega
    rw [List.length_append, List.length_singleton, toBeBytes, hlast, hdiv, hmod, ih]

def ascii (s : List Char) : Bytes := s.map fun c => UInt8.ofNat c.toNat

def voteTag : Bytes := ascii "boltchain/vote/v2".toList
def timeoutTag : Bytes := ascii "boltchain/timeout/v2".toList
def proposalTag : Bytes := ascii "boltchain/proposal/v2".toList

theorem voteTag_length : voteTag.length = 17 := by decide

theorem timeoutTag_length : timeoutTag.length = 20 := by decide

theorem proposalTag_length : proposalTag.length = 21 := by decide

/-- The chain, epoch and round of a signed message, as they stand after its tag. -/
def placeBytes (chainId epoch round : Nat) : Bytes :=
  toBeBytes 8 chainId ++ (toBeBytes 8 epoch ++ toBeBytes 8 round)

def domainMsg (tag : Bytes) (chainId epoch round : Nat) (extra : Bytes) : Bytes :=
  tag ++ (placeBytes chainId epoch round ++ extra)

namespace SignMsg

def encode : SignMsg → Bytes
  | .vote chainId epoch round block => domainMsg voteTag chainId epoch round (toBeBytes 32 block)
  | .timeout chainId epoch round highQcRound =>
    domainMsg timeoutTag chainId epoch round (toBeBytes 8 highQcRound)
  | .proposal chainId epoch round block payloadHash =>
    domainMsg proposalTag chainId epoch round (toBeBytes 32 block ++ toBeBytes 32 payloadHash)

def Fits : SignMsg → Prop
  | .vote c e r _ => c < 256 ^ 8 ∧ e < 256 ^ 8 ∧ r < 256 ^ 8
  | .timeout c e r _ => c < 256 ^ 8 ∧ e < 256 ^ 8 ∧ r < 256 ^ 8
  | .proposal c e r _ _ => c < 256 ^ 8 ∧ e < 256 ^ 8 ∧ r < 256 ^ 8

instance : ∀ m : SignMsg, Decidable m.Fits
  | .vote _ _ _ _ => inferInstanceAs (Decidable (_ ∧ _))
  | .timeout _ _ _ _ => inferInstanceAs (Decidable (_ ∧ _))
  | .proposal _ _ _ _ _ => inferInstanceAs (Decidable (_ ∧ _))

end SignMsg

/-- The length of the tag, if both are votes or both are proposals. -/
def tagLen (a b : Bytes) : Option Nat :=
  if a.length = 17 + 24 + 32 ∧ a.take 17 = voteTag ∧ b.take 17 = voteTag then some 17
  else if a.length = 21 + 24 + 64 ∧ a.take 21 = proposalTag ∧ b.take 21 = proposalTag then some 21
  else none

/-- `ConsensusRegistry._conflict`: the epoch and round of two signed messages that contradict
each other; `none` if it reverts. -/
def conflict (keccak256 : Bytes → Hash) (chainid : Nat) (a b : Bytes) : Option (Nat × Nat) :=
  if a.length ≠ b.length ∨ keccak256 a = keccak256 b then none
  else
    match tagLen a b with
    | none => none
    | some t =>
      if keccak256 ((a.drop t).take 24) ≠ keccak256 ((b.drop t).take 24) then none
      else if ofBeBytes ((a.drop t).take 8) ≠ chainid then none
      else some (ofBeBytes ((a.drop (t + 8)).take 8), ofBeBytes ((a.drop (t + 16)).take 8))

theorem placeBytes_length (c e r : Nat) : (placeBytes c e r).length = 24 := by
  simp [placeBytes]

theorem drop_domainMsg (tag : Bytes) (c e r : Nat) (extra : Bytes) :
    (domainMsg tag c e r extra).drop tag.length = placeBytes c e r ++ extra :=
  List.drop_left

theorem place_domainMsg (tag : Bytes) (c e r : Nat) (extra : Bytes) :
    ((domainMsg tag c e r extra).drop tag.length).take 24 = placeBytes c e r := by
  rw [drop_domainMsg, List.take_left' (placeBytes_length c e r)]

theorem chain_domainMsg (tag : Bytes) (c e r : Nat) (extra : Bytes) :
    ofBeBytes (((domainMsg tag c e r extra).drop tag.length).take 8) = c % 256 ^ 8 := by
  rw [drop_domainMsg, placeBytes, List.append_assoc, List.take_left' (toBeBytes_length 8 c),
    ofBeBytes_toBeBytes]

theorem epoch_domainMsg (tag : Bytes) (c e r : Nat) (extra : Bytes) :
    ofBeBytes (((domainMsg tag c e r extra).drop (tag.length + 8)).take 8) = e % 256 ^ 8 := by
  rw [← List.drop_drop, drop_domainMsg, placeBytes, List.append_assoc, List.append_assoc,
    List.drop_left' (toBeBytes_length 8 c), List.take_left' (toBeBytes_length 8 e), ofBeBytes_toBeBytes]

theorem round_domainMsg (tag : Bytes) (c e r : Nat) (extra : Bytes) :
    ofBeBytes (((domainMsg tag c e r extra).drop (tag.length + 16)).take 8) = r % 256 ^ 8 := by
  have hlen : (toBeBytes 8 c ++ toBeBytes 8 e).length = 16 := by simp
  rw [← List.drop_drop, drop_domainMsg, placeBytes, ← List.append_assoc, List.append_assoc,
    List.drop_left' hlen, List.take_left' (toBeBytes_length 8 r), ofBeBytes_toBeBytes]

theorem placeBytes_inj {c e r c' e' r' : Nat} (h : c < 256 ^ 8 ∧ e < 256 ^ 8 ∧ r < 256 ^ 8)
    (h' : c' < 256 ^ 8 ∧ e' < 256 ^ 8 ∧ r' < 256 ^ 8) (heq : placeBytes c e r = placeBytes c' e' r') :
    c = c' ∧ e = e' ∧ r = r' := by
  obtain ⟨hc, hrest⟩ := List.append_inj heq (by simp)
  obtain ⟨he, hr⟩ := List.append_inj hrest (by simp)
  exact ⟨toBeBytes_inj h.1 h'.1 hc, toBeBytes_inj h.2.1 h'.2.1 he, toBeBytes_inj h.2.2 h'.2.2 hr⟩

theorem tagLen_vote (c e r c' e' r' : Nat) (b b' : Hash) :
    tagLen (SignMsg.vote c e r b).encode (SignMsg.vote c' e' r' b').encode = some voteTag.length := by
  have hlen : (SignMsg.vote c e r b).encode.length = 17 + 24 + 32 := by
    simp [SignMsg.encode, domainMsg, placeBytes, voteTag_length]
  have htag : ∀ c e r b, (SignMsg.vote c e r b).encode.take 17 = voteTag :=
    fun _ _ _ _ => List.take_left' voteTag_length
  rw [tagLen, if_pos ⟨hlen, htag _ _ _ _, htag _ _ _ _⟩, voteTag_length]

theorem tagLen_proposal (c e r c' e' r' : Nat) (b p b' p' : Hash) :
    tagLen (SignMsg.proposal c e r b p).encode (SignMsg.proposal c' e' r' b' p').encode =
      some proposalTag.length := by
  have hlen : (SignMsg.proposal c e r b p).encode.length = 21 + 24 + 64 := by
    simp [SignMsg.encode, domainMsg, placeBytes, proposalTag_length]
  have htag : ∀ c e r b p, (SignMsg.proposal c e r b p).encode.take 21 = proposalTag :=
    fun _ _ _ _ _ => List.take_left' proposalTag_length
  rw [tagLen, if_neg fun h => absurd (hlen.symm.trans h.1) (by decide), if_pos ⟨hlen, htag _ _ _ _ _, htag _ _ _ _ _⟩, proposalTag_length]

section

variable {keccak256 : Bytes → Hash}
  (hinj : ∀ x y : Bytes, x.length = 24 → y.length = 24 → keccak256 x = keccak256 y → x = y)

include hinj

theorem conflict_domainMsg {chainid ep rd : Nat} {tag x y : Bytes} {c e r c' e' r' : Nat}
    (hf : c < 256 ^ 8 ∧ e < 256 ^ 8 ∧ r < 256 ^ 8) (hf' : c' < 256 ^ 8 ∧ e' < 256 ^ 8 ∧ r' < 256 ^ 8)
    (htag : tagLen (domainMsg tag c e r x) (domainMsg tag c' e' r' y) = some tag.length)
    (h : conflict keccak256 chainid (domainMsg tag c e r x) (domainMsg tag c' e' r' y) = some (ep, rd)) :
    (c = chainid ∧ e = ep ∧ r = rd) ∧ (c' = chainid ∧ e' = ep ∧ r' = rd) ∧ x ≠ y := by
  unfold conflict at h
  rw [htag] at h
  dsimp only at h
  rw [place_domainMsg, place_domainMsg, chain_domainMsg, epoch_domainMsg, round_domainMsg,
    Nat.mod_eq_of_lt hf.1, Nat.mod_eq_of_lt hf.2.1, Nat.mod_eq_of_lt hf.2.2] at h
  obtain ⟨hne, h₁⟩ := Option.ite_none_left_eq_some.1 h
  obtain ⟨hplace, h₂⟩ := Option.ite_none_left_eq_some.1 h₁
  obtain ⟨hchain, h₃⟩ := Option.ite_none_left_eq_some.1 h₂
  obtain ⟨rfl, rfl, rfl⟩ := placeBytes_inj hf hf'
    (hinj _ _ (placeBytes_length _ _ _) (placeBytes_length _ _ _) (not_not.1 hplace))
  have hown : c = chainid ∧ e = ep ∧ r = rd := ⟨not_not.1 hchain, Prod.mk.inj (Option.some.inj h₃)⟩
  refine ⟨hown, hown, fun hxy => hne (.inr ?_)⟩
  rw [hxy]

end

end Boltchain.Consensus
