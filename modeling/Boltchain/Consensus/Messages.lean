import Boltchain.Consensus.Evidence
import Boltchain.Lib.Checked

namespace Boltchain.Consensus

abbrev Word64 := Fin (2 ^ 64)

abbrev Word256 := Fin (2 ^ 256)

inductive Signable where
  | vote (chainId epoch round : Word64) (block : Word256)
  | timeout (chainId epoch round highQcRound : Word64)
  | proposal (chainId epoch round : Word64) (block : Word256) (payload : Bytes)
  | randao (chainId height : Word64)
  | audit (chainId epoch : Word64) (task : Fin (2 ^ 16)) (passed : Bool)
  | verdict (chainId epoch job : Word64) (atFault : Bool)
  | attest (chainId epoch request : Word64) (ok : Bool) (machine : Word256)

def randaoTag : Bytes := ascii "boltchain/randao/v1".toList
def auditTag : Bytes := ascii "boltchain/audit/v1".toList
def verdictTag : Bytes := ascii "boltchain/verdict/v1".toList
def attestTag : Bytes := ascii "boltchain/attest/v1".toList

def boolByte (b : Bool) : UInt8 := if b then 1 else 0

def voteMsg (chainId epoch round : Word64) (block : Word256) : Bytes :=
  domainMsg voteTag chainId epoch round (toBeBytes 32 block)

def timeoutMsg (chainId epoch round highQcRound : Word64) : Bytes :=
  domainMsg timeoutTag chainId epoch round (toBeBytes 8 highQcRound)

def proposalOf (chainId epoch round : Word64) (block payloadHash : Word256) : Bytes :=
  domainMsg proposalTag chainId epoch round (toBeBytes 32 block ++ toBeBytes 32 payloadHash)

def proposalMsg (keccak256 : Bytes → Word256) (chainId epoch round : Word64) (block : Word256) (payload : Bytes) : Bytes :=
  proposalOf chainId epoch round block (keccak256 payload)

def randaoMsg (chainId height : Word64) : Bytes := randaoTag ++ (toBeBytes 8 chainId ++ toBeBytes 8 height)

def auditMsg (chainId epoch : Word64) (task : Fin (2 ^ 16)) (passed : Bool) : Bytes :=
  auditTag ++ (toBeBytes 8 chainId ++ (toBeBytes 8 epoch ++ (toBeBytes 2 task ++ [boolByte passed])))

def verdictMsg (chainId epoch job : Word64) (atFault : Bool) : Bytes :=
  verdictTag ++ (toBeBytes 8 chainId ++ (toBeBytes 8 epoch ++ (toBeBytes 8 job ++ [boolByte atFault])))

def attestMsg (chainId epoch request : Word64) (ok : Bool) (machine : Word256) : Bytes :=
  attestTag ++ (toBeBytes 8 chainId ++ (toBeBytes 8 epoch ++ (toBeBytes 8 request ++
    (boolByte ok :: toBeBytes 32 machine))))

def Signable.encode (keccak256 : Bytes → Word256) : Signable → Bytes
  | .vote chainId epoch round block => voteMsg chainId epoch round block
  | .timeout chainId epoch round highQcRound => timeoutMsg chainId epoch round highQcRound
  | .proposal chainId epoch round block payload => proposalMsg keccak256 chainId epoch round block payload
  | .randao chainId height => randaoMsg chainId height
  | .audit chainId epoch task passed => auditMsg chainId epoch task passed
  | .verdict chainId epoch job atFault => verdictMsg chainId epoch job atFault
  | .attest chainId epoch request ok machine => attestMsg chainId epoch request ok machine

/-- The bytes of a message that are hashed before they are signed. -/
def Signable.hashed : Signable → Set Bytes
  | .proposal _ _ _ _ payload => {payload}
  | _ => ∅

section Lengths

theorem domainMsg_length (tag : Bytes) (c e r : Nat) (extra : Bytes) :
    (domainMsg tag c e r extra).length = tag.length + 24 + extra.length := by
  simp only [domainMsg, List.length_append, placeBytes_length]
  omega

def Signable.size : Signable → Nat
  | .vote .. => 73
  | .timeout .. => 52
  | .proposal .. => 109
  | .randao .. => 35
  | .audit .. => 37
  | .verdict .. => 45
  | .attest .. => 76

theorem Signable.length_encode (x : Signable) (keccak256 : Bytes → Word256) : (x.encode keccak256).length = x.size := by
  cases x with
  | vote c e r b => simp [encode, voteMsg, domainMsg_length, voteTag_length, size]
  | timeout c e r q => simp [encode, timeoutMsg, domainMsg_length, timeoutTag_length, size]
  | proposal c e r b p => simp [encode, proposalMsg, proposalOf, domainMsg_length, proposalTag_length, size]
  | randao c h =>
    have htag : randaoTag.length = 19 := by decide
    simp [encode, randaoMsg, htag, size]
  | audit c e t p =>
    have htag : auditTag.length = 18 := by decide
    simp [encode, auditMsg, htag, size]
  | verdict c e j f =>
    have htag : verdictTag.length = 20 := by decide
    simp [encode, verdictMsg, htag, size]
  | attest c e q o m =>
    have htag : attestTag.length = 19 := by decide
    simp [encode, attestMsg, htag, size]

end Lengths

section Injective

theorem word64_inj {m n : Word64} (h : toBeBytes 8 m = toBeBytes 8 n) : m = n :=
  Fin.ext (toBeBytes_inj (m.isLt.trans_eq (by norm_num)) (n.isLt.trans_eq (by norm_num)) h)

theorem word256_inj {m n : Word256} (h : toBeBytes 32 m = toBeBytes 32 n) : m = n :=
  Fin.ext (toBeBytes_inj (m.isLt.trans_eq (by norm_num)) (n.isLt.trans_eq (by norm_num)) h)

theorem boolByte_inj {a b : Bool} (h : boolByte a = boolByte b) : a = b := by
  revert a b
  decide

theorem word64_fits (c e r : Word64) : c.val < 256 ^ 8 ∧ e.val < 256 ^ 8 ∧ r.val < 256 ^ 8 :=
  ⟨c.isLt.trans_eq (by norm_num), e.isLt.trans_eq (by norm_num), r.isLt.trans_eq (by norm_num)⟩

theorem domainMsg_inj {tag x y : Bytes} {c e r c' e' r' : Word64}
    (h : domainMsg tag c e r x = domainMsg tag c' e' r' y) : c = c' ∧ e = e' ∧ r = r' ∧ x = y := by
  obtain ⟨hplace, hextra⟩ := List.append_inj (List.append_cancel_left h) (by simp [placeBytes_length])
  obtain ⟨hc, he, hr⟩ := placeBytes_inj (word64_fits c e r) (word64_fits c' e' r') hplace
  exact ⟨Fin.ext hc, Fin.ext he, Fin.ext hr, hextra⟩

variable {keccak256 : Bytes → Word256}

/-- Equal bytes are of one kind and have the same fields, unless two payloads have one hash. -/
theorem Signable.encode_inj {x y : Signable} (hk : Set.InjOn keccak256 (x.hashed ∪ y.hashed))
    (h : x.encode keccak256 = y.encode keccak256) : x = y := by
  have hsize : x.size = y.size := by rw [← x.length_encode keccak256, ← y.length_encode keccak256, h]
  cases x with
  | vote c e r b =>
    cases y with
    | vote c' e' r' b' =>
      obtain ⟨rfl, rfl, rfl, hb⟩ := domainMsg_inj h
      rw [word256_inj hb]
    | _ => cases hsize
  | timeout c e r q =>
    cases y with
    | timeout c' e' r' q' =>
      obtain ⟨rfl, rfl, rfl, hq⟩ := domainMsg_inj h
      rw [word64_inj hq]
    | _ => cases hsize
  | proposal c e r b p =>
    cases y with
    | proposal c' e' r' b' p' =>
      obtain ⟨rfl, rfl, rfl, hrest⟩ := domainMsg_inj h
      obtain ⟨hb, hp⟩ := List.append_inj hrest (by simp)
      rw [word256_inj hb, hk (.inl rfl) (.inr rfl) (word256_inj hp)]
    | _ => cases hsize
  | randao c n =>
    cases y with
    | randao c' n' =>
      obtain ⟨hc, hn⟩ := List.append_inj (List.append_cancel_left h) (by simp)
      rw [word64_inj hc, word64_inj hn]
    | _ => cases hsize
  | audit c e t p =>
    cases y with
    | audit c' e' t' p' =>
      obtain ⟨hc, hrest⟩ := List.append_inj (List.append_cancel_left h) (by simp)
      obtain ⟨he, hrest⟩ := List.append_inj hrest (by simp)
      obtain ⟨ht, hp⟩ := List.append_inj hrest (by simp)
      have ht : t = t' :=
        Fin.ext (toBeBytes_inj (t.isLt.trans_eq (by norm_num)) (t'.isLt.trans_eq (by norm_num)) ht)
      rw [word64_inj hc, word64_inj he, ht, boolByte_inj (List.singleton_inj.1 hp)]
    | _ => cases hsize
  | verdict c e j f =>
    cases y with
    | verdict c' e' j' f' =>
      obtain ⟨hc, hrest⟩ := List.append_inj (List.append_cancel_left h) (by simp)
      obtain ⟨he, hrest⟩ := List.append_inj hrest (by simp)
      obtain ⟨hj, hf⟩ := List.append_inj hrest (by simp)
      rw [word64_inj hc, word64_inj he, word64_inj hj, boolByte_inj (List.singleton_inj.1 hf)]
    | _ => cases hsize
  | attest c e q o m =>
    cases y with
    | attest c' e' q' o' m' =>
      obtain ⟨hc, hrest⟩ := List.append_inj (List.append_cancel_left h) (by simp)
      obtain ⟨he, hrest⟩ := List.append_inj hrest (by simp)
      obtain ⟨hq, hrest⟩ := List.append_inj hrest (by simp)
      obtain ⟨ho, hm⟩ := List.cons.inj hrest
      rw [word64_inj hc, word64_inj he, word64_inj hq, boolByte_inj ho, word256_inj hm]
    | _ => cases hsize

end Injective

section Evidence

theorem ofBeBytes_lt (bs : Bytes) : ofBeBytes bs < 256 ^ bs.length := by
  have h := ofBeBytes_toBeBytes bs.length (ofBeBytes bs)
  rw [toBeBytes_ofBeBytes] at h
  rw [h]
  exact Nat.mod_lt _ (by positivity)

variable {bs : Bytes}

theorem exists_word64 (h : bs.length = 8) : ∃ n : Word64, bs = toBeBytes 8 n := by
  have hlt := ofBeBytes_lt bs
  rw [h] at hlt
  refine ⟨⟨ofBeBytes bs, hlt.trans_eq (by norm_num)⟩, ?_⟩
  have hback := toBeBytes_ofBeBytes bs
  rw [h] at hback
  exact hback.symm

theorem exists_word256 (h : bs.length = 32) : ∃ n : Word256, bs = toBeBytes 32 n := by
  have hlt := ofBeBytes_lt bs
  rw [h] at hlt
  refine ⟨⟨ofBeBytes bs, hlt.trans_eq (by norm_num)⟩, ?_⟩
  have hback := toBeBytes_ofBeBytes bs
  rw [h] at hback
  exact hback.symm

variable {a : Bytes}

theorem exists_domainMsg {tag : Bytes} {k : Nat} (hlen : a.length = tag.length + 24 + k)
    (htag : a.take tag.length = tag) :
    ∃ (c e r : Word64) (x : Bytes), x.length = k ∧ a = domainMsg tag c e r x := by
  obtain ⟨rest, rfl⟩ : ∃ rest, a = tag ++ rest := ⟨a.drop tag.length, by
    conv_lhs => rw [← List.take_append_drop tag.length a, htag]⟩
  have hrest : rest.length = 24 + k := by
    rw [List.length_append] at hlen
    omega
  obtain ⟨c, hc⟩ := exists_word64 (show (rest.take 8).length = 8 by simp; omega)
  obtain ⟨e, he⟩ := exists_word64 (show ((rest.drop 8).take 8).length = 8 by simp; omega)
  obtain ⟨r, hr⟩ := exists_word64 (show ((rest.drop 16).take 8).length = 8 by simp; omega)
  refine ⟨c, e, r, rest.drop 24, by simp; omega, ?_⟩
  rw [domainMsg, placeBytes, ← hc, ← he, ← hr]
  congr 1
  have h₁ : (rest.drop 8).drop 8 = rest.drop 16 := by rw [List.drop_drop]
  have h₂ : (rest.drop 16).drop 8 = rest.drop 24 := by rw [List.drop_drop]
  rw [← h₂, List.append_assoc, List.append_assoc, List.take_append_drop, ← h₁, List.take_append_drop,
    List.take_append_drop]

variable {keccak256 : Bytes → Word256} {known : Set Bytes}

/-- What the contract hashes: the two messages, and their chain, epoch and round. -/
def Hashed (a b : Bytes) : Set Bytes := {x | x = a ∨ x = b ∨ x.length = 24}

variable {c e r : Word64} {chainid ep rd : Nat}

theorem conflict_domainMsg_iff {tag x y : Bytes} {c' e' r' : Word64}
    (hk : Set.InjOn keccak256 (Hashed (domainMsg tag c e r x) (domainMsg tag c' e' r' y)))
    (hxy : x.length = y.length)
    (htag : tagLen (domainMsg tag c e r x) (domainMsg tag c' e' r' y) = some tag.length) :
    conflict (fun bs => (keccak256 bs).val) chainid (domainMsg tag c e r x) (domainMsg tag c' e' r' y) = some (ep, rd) ↔
      (c = c' ∧ e = e' ∧ r = r') ∧ (c.val = chainid ∧ e.val = ep ∧ r.val = rd) ∧ x ≠ y := by
  constructor
  · intro h
    obtain ⟨hown, hother, hne⟩ := conflict_domainMsg
      (fun u v hu hv huv => hk (.inr (.inr hu)) (.inr (.inr hv)) (Fin.ext huv)) (word64_fits c e r)
      (word64_fits c' e' r') htag h
    refine ⟨⟨Fin.ext ?_, Fin.ext ?_, Fin.ext ?_⟩, hown, hne⟩
    · exact hown.1.trans hother.1.symm
    · exact hown.2.1.trans hother.2.1.symm
    · exact hown.2.2.trans hother.2.2.symm
  · rintro ⟨⟨rfl, rfl, rfl⟩, ⟨rfl, rfl, rfl⟩, hne⟩
    have hlen : (domainMsg tag c e r x).length = (domainMsg tag c e r y).length := by
      rw [domainMsg_length, domainMsg_length, hxy]
    have hdiff : (keccak256 (domainMsg tag c e r x)).val ≠ (keccak256 (domainMsg tag c e r y)).val := fun heq =>
      hne (domainMsg_inj (hk (.inl rfl) (.inr (.inl rfl)) (Fin.ext heq))).2.2.2
    obtain ⟨hc, he, hr⟩ := word64_fits c e r
    rw [conflict, if_neg (by rw [not_or]; exact ⟨not_not.2 hlen, hdiff⟩), htag]
    simp only
    rw [place_domainMsg, place_domainMsg, chain_domainMsg, epoch_domainMsg, round_domainMsg, Nat.mod_eq_of_lt hc,
      Nat.mod_eq_of_lt he, Nat.mod_eq_of_lt hr, if_neg (by simp), if_neg (by simp)]

variable {b : Bytes}

theorem tagLen_some {t : Nat} (h : tagLen a b = some t) :
    (t = 17 ∧ a.length = 17 + 24 + 32 ∧ a.take 17 = voteTag ∧ b.take 17 = voteTag) ∨
      (t = 21 ∧ a.length = 21 + 24 + 64 ∧ a.take 21 = proposalTag ∧ b.take 21 = proposalTag) := by
  unfold tagLen at h
  split at h
  · rename_i hv
    cases h
    exact .inl ⟨rfl, hv⟩
  · split at h
    · rename_i hp
      cases h
      exact .inr ⟨rfl, hp⟩
    · cases h

def VotesConflict (chainid ep rd : Nat) (a b : Bytes) : Prop :=
  ∃ (c e r : Word64) (block block' : Word256), c.val = chainid ∧ e.val = ep ∧ r.val = rd ∧
    a = voteMsg c e r block ∧ b = voteMsg c e r block' ∧ block ≠ block'

/-- Two proposals of a chain, epoch and round with different blocks or payload hashes. -/
def ProposalsConflict (chainid ep rd : Nat) (a b : Bytes) : Prop :=
  ∃ (c e r : Word64) (block block' hash hash' : Word256), c.val = chainid ∧ e.val = ep ∧ r.val = rd ∧
    a = proposalOf c e r block hash ∧ b = proposalOf c e r block' hash' ∧ (block, hash) ≠ (block', hash')

/-- The contract accepts exactly two conflicting votes or two conflicting proposals. -/
theorem conflict_iff (hk : Set.InjOn keccak256 (Hashed a b)) :
    conflict (fun bs => (keccak256 bs).val) chainid a b = some (ep, rd) ↔
      VotesConflict chainid ep rd a b ∨ ProposalsConflict chainid ep rd a b := by
  constructor
  · intro h
    have hlen : a.length = b.length := by
      by_contra hne
      rw [conflict, if_pos (.inl hne)] at h
      cases h
    obtain ⟨t, ht⟩ : ∃ t, tagLen a b = some t := by
      cases ht : tagLen a b with
      | none =>
        simp only [conflict, ht] at h
        split at h <;> cases h
      | some t => exact ⟨t, rfl⟩
    rcases tagLen_some ht with ⟨rfl, hla, hta, htb⟩ | ⟨rfl, hla, hta, htb⟩
    · rw [← voteTag_length] at ht hla hta htb
      obtain ⟨c, e, r, x, hx, rfl⟩ := exists_domainMsg hla hta
      obtain ⟨c', e', r', y, hy, rfl⟩ := exists_domainMsg (hlen ▸ hla) htb
      obtain ⟨⟨rfl, rfl, rfl⟩, ⟨hc, he, hr⟩, hne⟩ := (conflict_domainMsg_iff hk (hx.trans hy.symm) ht).1 h
      obtain ⟨block, hblock⟩ := exists_word256 hx
      obtain ⟨block', hblock'⟩ := exists_word256 hy
      refine .inl ⟨c, e, r, block, block', hc, he, hr, ?_, ?_, fun heq => hne ?_⟩
      · rw [voteMsg, hblock]
      · rw [voteMsg, hblock']
      · rw [hblock, hblock', heq]
    · rw [← proposalTag_length] at ht hla hta htb
      obtain ⟨c, e, r, x, hx, rfl⟩ := exists_domainMsg hla hta
      obtain ⟨c', e', r', y, hy, rfl⟩ := exists_domainMsg (hlen ▸ hla) htb
      obtain ⟨⟨rfl, rfl, rfl⟩, ⟨hc, he, hr⟩, hne⟩ := (conflict_domainMsg_iff hk (hx.trans hy.symm) ht).1 h
      have hsplit : ∀ z : Bytes, z.length = 64 → ∃ block hash : Word256, z = toBeBytes 32 block ++ toBeBytes 32 hash := by
        intro z hz
        obtain ⟨block, hblock⟩ := exists_word256 (show (z.take 32).length = 32 by simp; omega)
        obtain ⟨hash, hhash⟩ := exists_word256 (show (z.drop 32).length = 32 by simp; omega)
        exact ⟨block, hash, by rw [← hblock, ← hhash, List.take_append_drop]⟩
      obtain ⟨block, hash, hx'⟩ := hsplit x hx
      obtain ⟨block', hash', hy'⟩ := hsplit y hy
      refine .inr ⟨c, e, r, block, block', hash, hash', hc, he, hr, ?_, ?_, fun heq => hne ?_⟩
      · rw [proposalOf, hx']
      · rw [proposalOf, hy']
      · rw [hx', hy', (Prod.mk.inj heq).1, (Prod.mk.inj heq).2]
  · rintro (⟨c, e, r, block, block', hc, he, hr, rfl, rfl, hne⟩ | ⟨c, e, r, block, block', hash, hash', hc, he, hr, rfl, rfl, hne⟩)
    · refine (conflict_domainMsg_iff hk (by simp) (tagLen_vote _ _ _ _ _ _ _ _)).2 ⟨⟨rfl, rfl, rfl⟩, ⟨hc, he, hr⟩, ?_⟩
      exact fun heq => hne (word256_inj heq)
    · refine (conflict_domainMsg_iff hk (by simp) (tagLen_proposal _ _ _ _ _ _ _ _ _ _)).2
        ⟨⟨rfl, rfl, rfl⟩, ⟨hc, he, hr⟩, fun heq => hne ?_⟩
      obtain ⟨hb, hh⟩ := List.append_inj heq (by simp)
      rw [word256_inj hb, word256_inj hh]

/-- Two votes, or two proposals, of a chain, epoch and round that differ in the rest. -/
def Signable.Conflicts (chainid ep rd : Nat) : Signable → Signable → Prop
  | .vote c e r block, .vote c' e' r' block' =>
    (c = c' ∧ e = e' ∧ r = r') ∧ (c.val = chainid ∧ e.val = ep ∧ r.val = rd) ∧ block ≠ block'
  | .proposal c e r block payload, .proposal c' e' r' block' payload' =>
    (c = c' ∧ e = e' ∧ r = r') ∧ (c.val = chainid ∧ e.val = ep ∧ r.val = rd) ∧ (block, payload) ≠ (block', payload')
  | _, _ => False

def Signable.place : Signable → Option (Nat × Nat × Nat)
  | .vote c e r _ => some (c, e, r)
  | .proposal c e r _ _ => some (c, e, r)
  | _ => none

variable {block : Word256} {x : Signable}

theorem Signable.eq_vote
    (h : x.encode keccak256 = voteMsg c e r block) : x = .vote c e r block := by
  have hsize : x.size = 73 := by
    rw [← x.length_encode keccak256, h]
    exact (Signable.vote c e r block).length_encode keccak256
  cases x with
  | vote c' e' r' block' =>
    obtain ⟨rfl, rfl, rfl, hblock⟩ := domainMsg_inj h
    rw [word256_inj hblock]
  | _ => cases hsize

theorem Signable.eq_proposal {hash : Word256}
    (h : x.encode keccak256 = proposalOf c e r block hash) :
    ∃ payload, x = .proposal c e r block payload ∧ keccak256 payload = hash := by
  have hsize : x.size = 109 := by
    rw [← x.length_encode keccak256, h, proposalOf, domainMsg_length, proposalTag_length]
    simp
  cases x with
  | proposal c' e' r' block' payload =>
    obtain ⟨rfl, rfl, rfl, hrest⟩ := domainMsg_inj h
    obtain ⟨hb, hh⟩ := List.append_inj hrest (by simp)
    exact ⟨payload, by rw [word256_inj hb], word256_inj hh⟩
  | _ => cases hsize

theorem Signable.place_of_conflict
    (hx : x.encode keccak256 = a ∨ x.encode keccak256 = b)
    (h : VotesConflict chainid ep rd a b ∨ ProposalsConflict chainid ep rd a b) : x.place = some (chainid, ep, rd) := by
  rcases h with ⟨c, e, r, block, block', rfl, rfl, rfl, rfl, rfl, -⟩ | ⟨c, e, r, block, block', hash, hash', rfl, rfl, rfl, rfl, rfl, -⟩
  · rcases hx with hx | hx
    · rw [eq_vote hx]
      rfl
    · rw [eq_vote hx]
      rfl
  · rcases hx with hx | hx
    · obtain ⟨payload, rfl, -⟩ := eq_proposal hx
      rfl
    · obtain ⟨payload, rfl, -⟩ := eq_proposal hx
      rfl

theorem Signable.conflicts_iff {y : Signable} (hk : Set.InjOn keccak256 (x.hashed ∪ y.hashed)) :
    VotesConflict chainid ep rd (x.encode keccak256) (y.encode keccak256) ∨
        ProposalsConflict chainid ep rd (x.encode keccak256) (y.encode keccak256) ↔
      x.Conflicts chainid ep rd y := by
  constructor
  · rintro (⟨c, e, r, block, block', hc, he, hr, hx, hy, hne⟩ | ⟨c, e, r, block, block', hash, hash', hc, he, hr, hx, hy, hne⟩)
    · rw [eq_vote hx, eq_vote hy]
      exact ⟨⟨rfl, rfl, rfl⟩, ⟨hc, he, hr⟩, hne⟩
    · obtain ⟨payload, rfl, rfl⟩ := eq_proposal hx
      obtain ⟨payload', rfl, rfl⟩ := eq_proposal hy
      refine ⟨⟨rfl, rfl, rfl⟩, ⟨hc, he, hr⟩, fun heq => hne ?_⟩
      rw [(Prod.mk.inj heq).1, (Prod.mk.inj heq).2]
  · intro h
    cases x with
    | vote c e r block =>
      cases y with
      | vote c' e' r' block' =>
        obtain ⟨⟨rfl, rfl, rfl⟩, ⟨hc, he, hr⟩, hne⟩ := h
        exact .inl ⟨c, e, r, block, block', hc, he, hr, rfl, rfl, hne⟩
      | _ => exact h.elim
    | proposal c e r block payload =>
      cases y with
      | proposal c' e' r' block' payload' =>
        obtain ⟨⟨rfl, rfl, rfl⟩, ⟨hc, he, hr⟩, hne⟩ := h
        refine .inr ⟨c, e, r, block, block', keccak256 payload, keccak256 payload', hc, he, hr, rfl, rfl, fun heq => hne ?_⟩
        rw [(Prod.mk.inj heq).1, hk (.inl rfl) (.inr rfl) (Prod.mk.inj heq).2]
      | _ => exact h.elim
    | _ => exact h.elim

theorem exists_conflicts (hsurj : Function.Surjective keccak256)
    (h : VotesConflict chainid ep rd a b ∨ ProposalsConflict chainid ep rd a b) :
    ∃ x y : Signable, x.encode keccak256 = a ∧ y.encode keccak256 = b ∧ x.Conflicts chainid ep rd y := by
  rcases h with ⟨c, e, r, block, block', hc, he, hr, rfl, rfl, hne⟩ | ⟨c, e, r, block, block', hash, hash', hc, he, hr, rfl, rfl, hne⟩
  · exact ⟨.vote c e r block, .vote c e r block', rfl, rfl, ⟨rfl, rfl, rfl⟩, ⟨hc, he, hr⟩, hne⟩
  · obtain ⟨payload, rfl⟩ := hsurj hash
    obtain ⟨payload', rfl⟩ := hsurj hash'
    refine ⟨.proposal c e r block payload, .proposal c e r block' payload', rfl, rfl, ⟨rfl, rfl, rfl⟩, ⟨hc, he, hr⟩,
      fun heq => hne ?_⟩
    rw [(Prod.mk.inj heq).1, (Prod.mk.inj heq).2]

end Evidence

/-- Where the hash has no collisions: equal signed bytes are of one message; the contract accepts exactly two votes or
two proposals of its chain, of one epoch and round and with different rests, and gives that epoch and round; a message
of any kind is half of accepted evidence only as a vote or proposal of that place. -/
theorem signed_messages_and_evidence (keccak256 : Bytes → Word256) (known : Set Bytes) (hk : Set.InjOn keccak256 known)
    (hplaces : ∀ x : Bytes, x.length = 24 → x ∈ known) (chainid : Nat) :
    (∀ x y : Signable, x.hashed ⊆ known → y.hashed ⊆ known → x.encode keccak256 = y.encode keccak256 → x = y) ∧
    (∀ a ∈ known, ∀ b ∈ known, ∀ ep rd, conflict (fun bs => (keccak256 bs).val) chainid a b = some (ep, rd) ↔
      VotesConflict chainid ep rd a b ∨ ProposalsConflict chainid ep rd a b) ∧
    (Function.Surjective keccak256 → ∀ a ∈ known, ∀ b ∈ known, ∀ ep rd,
      conflict (fun bs => (keccak256 bs).val) chainid a b = some (ep, rd) →
        ∃ x y : Signable, x.encode keccak256 = a ∧ y.encode keccak256 = b ∧ x.Conflicts chainid ep rd y) ∧
    (∀ x y : Signable, x.hashed ⊆ known → y.hashed ⊆ known → x.encode keccak256 ∈ known → y.encode keccak256 ∈ known →
      ∀ ep rd, conflict (fun bs => (keccak256 bs).val) chainid (x.encode keccak256) (y.encode keccak256) = some (ep, rd) ↔
        x.Conflicts chainid ep rd y) ∧
    ∀ x : Signable, x.encode keccak256 ∈ known → ∀ b ∈ known, ∀ ep rd,
      conflict (fun bs => (keccak256 bs).val) chainid (x.encode keccak256) b = some (ep, rd) ∨
        conflict (fun bs => (keccak256 bs).val) chainid b (x.encode keccak256) = some (ep, rd) →
      x.place = some (chainid, ep, rd) := by
  have hiff : ∀ a ∈ known, ∀ b ∈ known, ∀ ep rd, conflict (fun bs => (keccak256 bs).val) chainid a b = some (ep, rd) ↔
      VotesConflict chainid ep rd a b ∨ ProposalsConflict chainid ep rd a b := by
    intro a ha b hb ep rd
    refine conflict_iff (hk.mono ?_)
    rintro x (rfl | rfl | hx)
    · exact ha
    · exact hb
    · exact hplaces x hx
  refine ⟨fun x y hx hy heq => ?_, hiff, fun hsurj a ha b hb ep rd h => ?_, fun x y hx hy hex hey ep rd => ?_,
    fun x hx b hb ep rd h => ?_⟩
  · exact Signable.encode_inj (hk.mono (Set.union_subset hx hy)) heq
  · exact exists_conflicts hsurj ((hiff a ha b hb ep rd).1 h)
  · rw [hiff _ hex _ hey]
    exact Signable.conflicts_iff (hk.mono (Set.union_subset hx hy))
  · rcases h with h | h
    · exact Signable.place_of_conflict (.inl rfl) ((hiff _ hx b hb ep rd).1 h)
    · exact Signable.place_of_conflict (.inr rfl) ((hiff b hb _ hx ep rd).1 h)

section Mock

def firstVote : Signable := .vote 7 0 1 1

def secondVote : Signable := .vote 7 0 1 2

def pairKeccak (bs : Bytes) : Word256 :=
  if bs.length = 24 then ⟨ofBeBytes bs % 256 ^ 24 + 2, by omega⟩ else if bs = voteMsg 7 0 1 1 then 0 else 1

theorem pairKeccak_injOn : Set.InjOn pairKeccak {x | x = voteMsg 7 0 1 1 ∨ x = voteMsg 7 0 1 2 ∨ x.length = 24} := by
  have hlong : ∀ block, (voteMsg 7 0 1 block).length ≠ 24 := by
    intro block h
    rw [voteMsg, domainMsg_length, voteTag_length] at h
    omega
  have hfirst : pairKeccak (voteMsg 7 0 1 1) = 0 := by
    rw [pairKeccak, if_neg (hlong 1), if_pos rfl]
  have hne : voteMsg 7 0 1 2 ≠ voteMsg 7 0 1 1 := fun h =>
    absurd (word256_inj (domainMsg_inj h).2.2.2) (by decide)
  have hsecond : pairKeccak (voteMsg 7 0 1 2) = 1 := by
    rw [pairKeccak, if_neg (hlong 2), if_neg hne]
  have hplace : ∀ x : Bytes, x.length = 24 → (pairKeccak x).val = ofBeBytes x + 2 := by
    intro x hx
    have hlt := ofBeBytes_lt x
    rw [hx] at hlt
    rw [pairKeccak, if_pos hx]
    show ofBeBytes x % 256 ^ 24 + 2 = _
    rw [Nat.mod_eq_of_lt hlt]
  have hsmall : ∀ x : Bytes, x.length = 24 → pairKeccak x ≠ 0 ∧ pairKeccak x ≠ 1 := by
    intro x hx
    have hval := hplace x hx
    constructor
    · intro h
      rw [h] at hval
      have : (0 : Word256).val = 0 := rfl
      omega
    · intro h
      rw [h] at hval
      have : (1 : Word256).val = 1 := rfl
      omega
  rintro x (rfl | rfl | hx) y (rfl | rfl | hy) hxy
  · rfl
  · rw [hfirst, hsecond] at hxy
    exact absurd hxy (by decide)
  · rw [hfirst] at hxy
    exact absurd hxy.symm (hsmall y hy).1
  · rw [hfirst, hsecond] at hxy
    exact absurd hxy (by decide)
  · rfl
  · rw [hsecond] at hxy
    exact absurd hxy.symm (hsmall y hy).2
  · rw [hfirst] at hxy
    exact absurd hxy (hsmall x hx).1
  · rw [hsecond] at hxy
    exact absurd hxy (hsmall x hx).2
  · have hval : ofBeBytes x = ofBeBytes y := by
      have := congrArg Fin.val hxy
      rw [hplace x hx, hplace y hy] at this
      omega
    rw [← toBeBytes_ofBeBytes x, ← toBeBytes_ofBeBytes y, hx, hy, hval]

end Mock

/-- Two votes of one round are evidence. -/
theorem votes_are_evidence :
    conflict (fun bs => (pairKeccak bs).val) 7 (firstVote.encode pairKeccak) (secondVote.encode pairKeccak) = some (0, 1) :=
  ((signed_messages_and_evidence pairKeccak _ pairKeccak_injOn (fun _ hx => .inr (.inr hx)) 7).2.2.2.1 firstVote secondVote
    (Set.empty_subset _) (Set.empty_subset _) (.inl rfl) (.inr (.inl rfl)) 0 1).2
    ⟨⟨rfl, rfl, rfl⟩, ⟨rfl, rfl, rfl⟩, by decide⟩

end Boltchain.Consensus
