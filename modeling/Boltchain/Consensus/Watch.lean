import Boltchain.Consensus.Evidence
import Boltchain.Consensus.MockScheme

namespace Boltchain.Consensus

/-- Public keys and signatures as the node decodes them, and the pairing check on decoded points. -/
structure VoteKeys (S : Scheme) where
  PublicKey : Type
  pubkeyPoint : PublicKey → Option Bytes
  signaturePoint : S.Sig → Option Bytes
  pairing : Bytes → Bytes → Bytes → Bool

/-- The committee of an epoch: the ids of its members and their keys, by index. -/
structure EpochCommittee {S : Scheme} (B : VoteKeys S) where
  members : List Nat
  pubkeys : List B.PublicKey
  nodup : members.Nodup
  length_eq : pubkeys.length = members.length

structure EvidenceCall where
  id : Nat
  pubkeyPoint : Bytes
  msgA : Bytes
  sigA : Bytes
  msgB : Bytes
  sigB : Bytes
  deriving DecidableEq

structure Report where
  data : EvidenceCall
  validator : Nat
  epoch : Nat
  round : Nat
  deriving DecidableEq

variable {S : Scheme} {B : VoteKeys S}

namespace VoteKeys

def verify (B : VoteKeys S) (pk : B.PublicKey) (msg : Bytes) (sig : S.Sig) : Bool :=
  match B.pubkeyPoint pk, B.signaturePoint sig with
  | some p, some s => B.pairing p msg s
  | _, _ => false

def submitEvidenceCalldata (B : VoteKeys S) (id : Nat) (pk : B.PublicKey) (msgA : Bytes) (sigA : S.Sig) (msgB : Bytes)
    (sigB : S.Sig) : Option EvidenceCall := do
  let p ← B.pubkeyPoint pk
  let a ← B.signaturePoint sigA
  let b ← B.signaturePoint sigB
  return ⟨id, p, msgA, a, msgB, b⟩

end VoteKeys

def voteBytes (chainId epoch round : Nat) (block : Hash) : Bytes := (SignMsg.vote chainId epoch round block).encode

abbrev SeenVotes (S : Scheme) := List ((Nat × Nat × Nat) × (Hash × S.Sig))

structure WatchCtx {S : Scheme} (B : VoteKeys S) where
  chainId : Nat
  epoch : Nat
  committee : EpochCommittee B

def Vote.key (v : Vote S) : Nat × Nat × Nat := (v.epoch, v.round, v.signer)

namespace WatchCtx

variable (ctx : WatchCtx B)

def accuse (v : Vote S) (block : Hash) (sig : S.Sig) : Option Report :=
  match ctx.committee.pubkeys[v.signer]?, ctx.committee.members[v.signer]? with
  | some pk, some id =>
    let ma := voteBytes ctx.chainId v.epoch v.round block
    let mb := voteBytes ctx.chainId v.epoch v.round v.block
    if !B.verify pk ma sig || !B.verify pk mb v.sig then none
    else (B.submitEvidenceCalldata id pk ma sig mb v.sig).map fun data => ⟨data, id, v.epoch, v.round⟩
  | _, _ => none

def watchVote (seen : SeenVotes S) (v : Vote S) : SeenVotes S × Option Report :=
  if v.epoch ≠ ctx.epoch then (seen, none)
  else
    match seen.lookup v.key with
    | none => (Lib.Assoc.put (if 100000 < seen.length then [] else seen) v.key (v.block, v.sig), none)
    | some (block, sig) => if block ≠ v.block then (seen, ctx.accuse v block sig) else (seen, none)

def watchEquivocation (seen : SeenVotes S) : Message S → SeenVotes S × Option Report
  | .vote v => ctx.watchVote seen v
  | _ => (seen, none)

def watchAll : SeenVotes S → List (Message S) → List Report
  | _, [] => []
  | seen, m :: ms => (ctx.watchEquivocation seen m).2.toList ++ watchAll (ctx.watchEquivocation seen m).1 ms

def validVote (v : Vote S) : Bool :=
  (ctx.committee.pubkeys[v.signer]?).any fun pk => B.verify pk (voteBytes ctx.chainId v.epoch v.round v.block) v.sig

end WatchCtx

/-- The evidence that was written shows two votes of one round for different blocks, both verified. -/
def Report.Verified (ctx : WatchCtx B) (r : Report) : Prop :=
  r.data.id = r.validator ∧ B.pairing r.data.pubkeyPoint r.data.msgA r.data.sigA = true ∧
    B.pairing r.data.pubkeyPoint r.data.msgB r.data.sigB = true ∧
    ∃ a b, a ≠ b ∧ r.data.msgA = voteBytes ctx.chainId r.epoch r.round a ∧
      r.data.msgB = voteBytes ctx.chainId r.epoch r.round b

def votesOf (epoch : Nat) (ms : List (Message S)) : List (Vote S) :=
  ms.filterMap fun
    | .vote v => if v.epoch = epoch then some v else none
    | _ => none

def firstUnder (epoch : Nat) (ms : List (Message S)) (key : Nat × Nat × Nat) : Option (Vote S) :=
  (votesOf epoch ms).find? fun v => v.key = key

def voteKeys (epoch : Nat) (ms : List (Message S)) : List (Nat × Nat × Nat) := ((votesOf epoch ms).map Vote.key).dedup

section

variable {ctx : WatchCtx B} {seen : SeenVotes S} {v w : Vote S} {ms : List (Message S)} {r : Report}

variable {pk : B.PublicKey} {sig : S.Sig}

theorem exists_point_of_verify {msg : Bytes} (h : B.verify pk msg sig = true) :
    (∃ p, B.pubkeyPoint pk = some p) ∧ ∃ s, B.signaturePoint sig = some s := by
  rw [VoteKeys.verify] at h
  split at h
  case h_1 p s hp hs => exact ⟨⟨p, hp⟩, s, hs⟩
  case h_2 => cases h

theorem exists_member (ctx : WatchCtx B) {i : Nat} (h : ctx.committee.pubkeys[i]? = some pk) :
    ∃ id, ctx.committee.members[i]? = some id := by
  obtain ⟨hi, -⟩ := List.getElem?_eq_some_iff.1 h
  exact ⟨_, List.getElem?_eq_getElem (ctx.committee.length_eq ▸ hi)⟩

theorem accuse_isSome (hkey : w.key = v.key) :
    (∃ r, ctx.accuse v w.block w.sig = some r) ↔ ctx.validVote w = true ∧ ctx.validVote v = true := by
  obtain ⟨hepoch, hround, hsigner⟩ : w.epoch = v.epoch ∧ w.round = v.round ∧ w.signer = v.signer := by
    simpa [Vote.key] using hkey
  rw [WatchCtx.validVote, WatchCtx.validVote, WatchCtx.accuse, hepoch, hround, hsigner]
  cases hpk : ctx.committee.pubkeys[v.signer]? with
  | none => simp
  | some pk =>
    obtain ⟨id, hid⟩ := exists_member ctx hpk
    simp only [hid, Option.any_some]
    split
    case isTrue hbad =>
      simp only [reduceCtorEq, exists_false, false_iff, not_and, Bool.not_eq_true]
      intro hw
      simpa [hw] using hbad
    case isFalse hgood =>
      simp only [Bool.or_eq_true, Bool.not_eq_true', not_or, Bool.not_eq_false] at hgood
      refine iff_of_true ?_ hgood
      obtain ⟨⟨p, hp⟩, a, ha⟩ := exists_point_of_verify hgood.1
      obtain ⟨-, b, hb⟩ := exists_point_of_verify hgood.2
      exact ⟨_, by rw [VoteKeys.submitEvidenceCalldata, hp, ha, hb]; rfl⟩

theorem accuse_eq_some {block : Hash} (h : ctx.accuse v block sig = some r) :
    ctx.committee.members[v.signer]? = some r.validator ∧ r.epoch = v.epoch ∧ r.round = v.round ∧
      (block ≠ v.block → r.Verified ctx) := by
  rw [WatchCtx.accuse] at h
  split at h
  case h_1 pk id hpk hid =>
    simp only at h
    split at h
    case isTrue => cases h
    case isFalse hgood =>
      obtain ⟨data, hdata, rfl⟩ := Option.map_eq_some_iff.1 h
      simp only [VoteKeys.submitEvidenceCalldata, bind, Option.bind_eq_some_iff] at hdata
      obtain ⟨p, hp, a, ha, b, hb, heq⟩ := hdata
      cases heq
      simp only [VoteKeys.verify, hp, ha, hb, Bool.or_eq_true, Bool.not_eq_true', not_or, Bool.not_eq_false] at hgood
      exact ⟨hid, rfl, rfl, fun hne => ⟨rfl, hgood.1, hgood.2, block, v.block, hne, rfl, rfl⟩⟩
  case h_2 => cases h

theorem votesOf_append (epoch : Nat) (ms ms' : List (Message S)) :
    votesOf epoch (ms ++ ms') = votesOf epoch ms ++ votesOf epoch ms' := List.filterMap_append

variable {epoch : Nat}

theorem votesOf_vote (h : v.epoch = epoch) : votesOf epoch [.vote v] = [v] := by
  simp [votesOf, h]

/-- The node remembers the first vote under each key of the epoch, and nothing else. -/
structure Recorded (epoch : Nat) (ps : List (Message S)) (seen : SeenVotes S) : Prop where
  lookup : ∀ key, seen.lookup key = (firstUnder epoch ps key).map fun w => (w.block, w.sig)
  length : seen.length = (voteKeys epoch ps).length

theorem Recorded.nil (epoch : Nat) : Recorded epoch ([] : List (Message S)) [] := ⟨fun _ => rfl, rfl⟩

variable {key : Nat × Nat × Nat}

theorem firstUnder_eq_none :
    firstUnder epoch ms key = none ↔ key ∉ voteKeys epoch ms := by
  simp [firstUnder, voteKeys, List.find?_eq_none]

theorem Recorded.fresh (h : Recorded epoch ms seen) (hv : v.epoch = epoch)
    (hnone : seen.lookup v.key = none) (hfew : seen.length ≤ 100000) :
    Recorded epoch (ms ++ [.vote v])
      (Lib.Assoc.put (if 100000 < seen.length then [] else seen) v.key (v.block, v.sig)) := by
  have hfirst : firstUnder epoch ms v.key = none := by
    rw [h.lookup] at hnone
    exact Option.map_eq_none_iff.1 hnone
  rw [if_neg (by omega)]
  constructor
  · intro key
    rw [firstUnder, votesOf_append, votesOf_vote hv, List.find?_append, ← firstUnder]
    by_cases hkey : key = v.key
    · subst hkey
      rw [Lib.Assoc.lookup_put_self, hfirst]
      simp
    · rw [Lib.Assoc.lookup_put_of_ne hkey, h.lookup]
      have hne : ¬v.key = key := fun heq => hkey heq.symm
      simp [hne]
  · have hnew : v.key ∉ voteKeys epoch ms := firstUnder_eq_none.1 hfirst
    have hall : seen.filter (·.1 ≠ v.key) = seen := by
      rw [List.filter_eq_self]
      intro x hx
      have hkeys := Lib.Assoc.not_mem_keys_of_lookup hnone
      exact decide_eq_true fun heq => hkeys (heq ▸ List.mem_map_of_mem hx)
    have hcount : (voteKeys epoch (ms ++ [.vote v])).length = (voteKeys epoch ms).length + 1 := by
      rw [voteKeys, votesOf_append, votesOf_vote hv, List.map_append, List.map_singleton, ← List.card_toFinset,
        List.toFinset_append, voteKeys, ← List.card_toFinset, List.toFinset_cons, List.toFinset_nil,
        Finset.union_comm, Finset.insert_union, Finset.empty_union, Finset.card_insert_of_notMem]
      simpa [voteKeys] using hnew
    rw [Lib.Assoc.put, hall, List.length_cons, h.length, hcount]

theorem Recorded.known (h : Recorded epoch ms seen) (hv : v.epoch = epoch) {x : Hash × S.Sig}
    (hsome : seen.lookup v.key = some x) : Recorded epoch (ms ++ [.vote v]) seen := by
  rw [h.lookup] at hsome
  obtain ⟨w, hw, -⟩ := Option.map_eq_some_iff.1 hsome
  have hmem : v.key ∈ voteKeys epoch ms := by
    by_contra hnot
    rw [firstUnder_eq_none.2 hnot] at hw
    cases hw
  constructor
  · intro key
    rw [h.lookup, firstUnder, firstUnder, votesOf_append, votesOf_vote hv, List.find?_append, ← firstUnder]
    by_cases hkey : v.key = key
    · rw [← hkey, hw]
      rfl
    · simp [hkey]
  · rw [h.length, voteKeys, voteKeys, votesOf_append, votesOf_vote hv, List.map_append, List.map_singleton,
      ← List.card_toFinset, ← List.card_toFinset, List.toFinset_append, List.toFinset_cons, List.toFinset_nil,
      Finset.union_comm, Finset.insert_union, Finset.empty_union, Finset.insert_eq_of_mem]
    simpa [voteKeys] using hmem

variable {m : Message S}

theorem Recorded.ignored (h : Recorded epoch ms seen) (hm : votesOf epoch [m] = []) :
    Recorded epoch (ms ++ [m]) seen := by
  have heq : votesOf epoch (ms ++ [m]) = votesOf epoch ms := by rw [votesOf_append, hm, List.append_nil]
  exact ⟨fun key => by rw [h.lookup, firstUnder, firstUnder, heq], by rw [h.length, voteKeys, voteKeys, heq]⟩

theorem Recorded.step (h : Recorded ctx.epoch ms seen) (hfew : (voteKeys ctx.epoch ms).length ≤ 100000) :
    Recorded ctx.epoch (ms ++ [m]) (ctx.watchEquivocation seen m).1 := by
  cases m with
  | proposal p => exact h.ignored rfl
  | timeout t => exact h.ignored rfl
  | vote v =>
    rw [WatchCtx.watchEquivocation, WatchCtx.watchVote]
    by_cases hv : v.epoch = ctx.epoch
    · rw [if_neg (not_not.2 hv)]
      cases hlook : seen.lookup v.key with
      | none => exact h.fresh hv hlook (h.length ▸ hfew)
      | some x =>
        simp only
        split <;> exact h.known hv hlook
    · rw [if_pos hv]
      exact h.ignored (by simp [votesOf, hv])

theorem watchEquivocation_reports (h : Recorded ctx.epoch ms seen) :
    (ctx.watchEquivocation seen m).2 = some r ↔ ∃ v w, m = .vote v ∧ v.epoch = ctx.epoch ∧
      firstUnder ctx.epoch ms v.key = some w ∧ w.block ≠ v.block ∧ ctx.accuse v w.block w.sig = some r := by
  cases m with
  | proposal p => simp [WatchCtx.watchEquivocation]
  | timeout t => simp [WatchCtx.watchEquivocation]
  | vote v =>
    rw [WatchCtx.watchEquivocation, WatchCtx.watchVote]
    by_cases hv : v.epoch = ctx.epoch
    · rw [if_neg (not_not.2 hv), h.lookup]
      cases hfirst : firstUnder ctx.epoch ms v.key with
      | none => simp [hfirst]
      | some w =>
        by_cases hblock : w.block = v.block
        · simp [hfirst, hblock]
        · simp [hfirst, hblock, hv]
    · simp [hv]

theorem mem_watchAll {ps : List (Message S)} (h : Recorded ctx.epoch ps seen)
    (hfew : (voteKeys ctx.epoch (ps ++ ms)).length ≤ 100000) : r ∈ ctx.watchAll seen ms ↔
      ∃ v w pre post, ms = pre ++ .vote v :: post ∧ v.epoch = ctx.epoch ∧
        firstUnder ctx.epoch (ps ++ pre) v.key = some w ∧ w.block ≠ v.block ∧ ctx.accuse v w.block w.sig = some r := by
  induction ms generalizing ps seen with
  | nil => simp [WatchCtx.watchAll]
  | cons m ms ih =>
    have hmono : (voteKeys ctx.epoch ps).length ≤ (voteKeys ctx.epoch (ps ++ m :: ms)).length := by
      rw [voteKeys, voteKeys, ← List.card_toFinset, ← List.card_toFinset, votesOf_append, List.map_append,
        List.toFinset_append]
      exact Finset.card_le_card Finset.subset_union_left
    have hnext := h.step (m := m) (hmono.trans hfew)
    rw [WatchCtx.watchAll, List.mem_append, Option.mem_toList, watchEquivocation_reports h,
      ih hnext (by rwa [List.append_assoc])]
    constructor
    · rintro (⟨v, w, rfl, hv, hfirst, hrest⟩ | ⟨v, w, pre, post, rfl, hv, hfirst, hrest⟩)
      · exact ⟨v, w, [], ms, rfl, hv, by rwa [List.append_nil], hrest⟩
      · exact ⟨v, w, m :: pre, post, rfl, hv, by rwa [List.append_assoc] at hfirst, hrest⟩
    · rintro ⟨v, w, pre, post, heq, hv, hfirst, hrest⟩
      cases pre with
      | nil =>
        cases heq
        exact .inl ⟨v, w, rfl, hv, by rwa [List.append_nil] at hfirst, hrest⟩
      | cons m' pre =>
        cases heq
        exact .inr ⟨v, w, pre, post, rfl, hv, by rwa [List.append_assoc], hrest⟩

theorem firstUnder_append (ms' : List (Message S))
    (h : firstUnder epoch ms key = some w) : firstUnder epoch (ms ++ ms') key = some w := by
  rw [firstUnder, votesOf_append, List.find?_append, ← firstUnder, h]
  rfl

/-- An equivocation that was received is reported exactly when the first vote under its key is a valid one. -/
theorem equivocation_reported_iff {v' : Vote S} {id : Nat} (hfew : (voteKeys ctx.epoch ms).length < 100000)
    (hv : .vote v ∈ ms) (hv' : .vote v' ∈ ms) (hepoch : v.epoch = ctx.epoch) (hkey : v'.key = v.key)
    (hblock : v'.block ≠ v.block) (hvalid : ctx.validVote v = true) (hvalid' : ctx.validVote v' = true)
    (hid : ctx.committee.members[v.signer]? = some id) :
    (∃ r ∈ ctx.watchAll [] ms, r.validator = id ∧ r.epoch = v.epoch ∧ r.round = v.round ∧ r.Verified ctx) ↔
      ∃ w, firstUnder ctx.epoch ms v.key = some w ∧ ctx.validVote w = true := by
  have hreports : ∀ r, r ∈ ctx.watchAll [] ms ↔ ∃ v w pre post, ms = pre ++ .vote v :: post ∧ v.epoch = ctx.epoch ∧
      firstUnder ctx.epoch pre v.key = some w ∧ w.block ≠ v.block ∧ ctx.accuse v w.block w.sig = some r :=
    fun r => mem_watchAll (Recorded.nil ctx.epoch) (by simpa using hfew.le)
  constructor
  · rintro ⟨r, hr, hval, hep, hround, -⟩
    obtain ⟨u, w, pre, post, rfl, hu, hfirst, -, hacc⟩ := (hreports r).1 hr
    obtain ⟨hmember, hre, hrr, -⟩ := accuse_eq_some hacc
    have hsigner : u.signer = v.signer := by
      obtain ⟨hi, hui⟩ := List.getElem?_eq_some_iff.1 hmember
      obtain ⟨hj, hvj⟩ := List.getElem?_eq_some_iff.1 hid
      exact (List.Nodup.getElem_inj_iff ctx.committee.nodup).1 (by rw [hui, hvj, hval])
    have hkeys : u.key = v.key := by
      simp only [Vote.key, Prod.mk.injEq]
      exact ⟨hre.symm.trans hep, hrr.symm.trans hround, hsigner⟩
    have hw : w.key = u.key := by simpa using List.find?_some hfirst
    refine ⟨w, ?_, ((accuse_isSome hw).1 ⟨r, hacc⟩).1⟩
    rw [← hkeys]
    exact firstUnder_append _ hfirst
  · rintro ⟨w, hfirst, hw⟩
    -- one of the two votes is not for the block of the first
    obtain ⟨u, hu, hukey, hublock, huvalid⟩ : ∃ u, .vote u ∈ ms ∧ u.key = v.key ∧ w.block ≠ u.block ∧
        ctx.validVote u = true := by
      by_cases hwv : w.block = v.block
      · exact ⟨v', hv', hkey, fun h => hblock (h.symm.trans hwv), hvalid'⟩
      · exact ⟨v, hv, rfl, hwv, hvalid⟩
    obtain ⟨pre, post, rfl⟩ := List.append_of_mem hu
    have huepoch : u.epoch = ctx.epoch := (congrArg (fun k : Nat × Nat × Nat => k.1) hukey).trans hepoch
    have hpre : firstUnder ctx.epoch pre u.key = some w := by
      cases hnone : firstUnder ctx.epoch pre u.key with
      | some w' =>
        have := firstUnder_append (.vote u :: post) hnone
        rw [hukey, hfirst] at this
        exact this.symm
      | none =>
        rw [← hukey, List.append_cons, firstUnder, votesOf_append, votesOf_append, votesOf_vote huepoch,
          List.find?_append, List.find?_append, ← firstUnder, hnone] at hfirst
        simp only [List.find?_singleton, decide_true, if_true, Option.none_or, Option.some_or, Option.some.injEq] at hfirst
        exact absurd (congrArg Vote.block hfirst.symm) hublock
    have hwkey : w.key = u.key := by simpa using List.find?_some hpre
    obtain ⟨r, hr⟩ := (accuse_isSome hwkey).2 ⟨hw, huvalid⟩
    obtain ⟨hmember, hre, hrr, hver⟩ := accuse_eq_some hr
    simp only [Vote.key, Prod.mk.injEq] at hukey
    rw [hukey.2.2, hid] at hmember
    refine ⟨r, (hreports r).2 ⟨u, w, pre, post, rfl, huepoch, hpre, hublock, hr⟩, (Option.some.inj hmember).symm, ?_, ?_,
      hver hublock⟩
    · rw [hre, hukey.1]
    · rw [hrr, hukey.2.1]

end

/-- Keys of the simulator's scheme: a signature is what was signed, under the number of its signer. -/
abbrev mockKeys : VoteKeys MockScheme where
  PublicKey := Nat
  pubkeyPoint pk := some [UInt8.ofNat pk]
  signaturePoint s := some (UInt8.ofNat s.1 :: s.2.encode)
  pairing p msg s := p ++ msg == s

def mockWatch : WatchCtx mockKeys := ⟨1, 0, ⟨[10, 11], ([0, 1] : List Nat), by decide, rfl⟩⟩

def voteOf (signer block : Nat) (sig : SignMsg) : Vote MockScheme := ⟨0, 1, block, 1, signer, (signer, sig)⟩

def honestVote (signer block : Nat) : Vote MockScheme := voteOf signer block (.vote 1 0 1 block)

theorem equivocation_reported_iff_two : mockWatch.validVote (honestVote 1 5) = true ∧
    ∃ r ∈ mockWatch.watchAll [] [.vote (honestVote 1 5), .vote (honestVote 1 6)], r.validator = 11 := by
  refine ⟨by decide +kernel, ?_⟩
  have hfirst : ∃ w, firstUnder mockWatch.epoch [.vote (honestVote 1 5), .vote (honestVote 1 6)]
      (honestVote 1 5).key = some w ∧ mockWatch.validVote w = true := ⟨honestVote 1 5, rfl, by decide +kernel⟩
  have hmem : .vote (honestVote 1 5) ∈ [Message.vote (honestVote 1 5), .vote (honestVote 1 6)] := by simp
  have hmem' : .vote (honestVote 1 6) ∈ [Message.vote (honestVote 1 5), .vote (honestVote 1 6)] := by simp
  obtain ⟨r, hr, hid, -⟩ := (equivocation_reported_iff (by decide) hmem hmem' rfl rfl (by decide)
    (by decide +kernel) (by decide +kernel) rfl).2 hfirst
  exact ⟨r, hr, hid⟩

/-- A forged vote that comes first hides two valid ones. -/
theorem forged_vote_hides_equivocation : mockWatch.validVote (honestVote 1 5) = true ∧
    mockWatch.validVote (honestVote 1 6) = true ∧ mockWatch.watchAll []
      [.vote (voteOf 1 7 (.vote 1 0 9 9)), .vote (honestVote 1 5), .vote (honestVote 1 6)] = [] := by
  decide +kernel

end Boltchain.Consensus
