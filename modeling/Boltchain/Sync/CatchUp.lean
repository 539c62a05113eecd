import Boltchain.Ipld.Blocks
import Boltchain.Lib.Assoc

namespace Boltchain.Sync

open Ipld

inductive SyncError where
  | ipld (err : IpldError)
  | net
  | fork (head : Nat)
  | notFinal
  deriving DecidableEq

inductive Verdict where
  | final
  | notFinal
  | unknown
  deriving DecidableEq

structure Announce where
  height : U64
  root : Cid
  envelope : Bytes
  header : Bytes
  proof : Bytes

/-- What a follower works with while it handles one announcement: its head and the root of its head's envelope,
the parser of envelopes, the check of finality proofs on consensus networks, and what peers answer for a CID. -/
structure Follower (Tx : Type) where
  lib : Libraries Tx
  parse : Bytes → Option Envelope
  finality : Option (U64 → B256 → Bytes → Verdict)
  head : U64
  ours : Option Cid
  fetch : Cid → Except SyncError (Option Bytes)

/-- The blockstore, and the CIDs that were fetched and put there. -/
structure Held where
  store : List (Cid × Bytes)
  fetched : List Cid

/-- How far an announcement gets before bodies are fetched and blocks imported. The collected envelopes are in
the order in which they are imported. -/
inductive Stage where
  | known
  | mined
  | collected (chain : List (Cid × Envelope))
  deriving DecidableEq

def blockHashOf (cid : Cid) : Option B256 :=
  if h : cid.codec = ethBlock ∧ cid.hash.code = keccak256Code ∧ cid.hash.digest.length = 32 then
    some ⟨cid.hash.digest, h.2.2⟩
  else none

namespace Follower

variable {Tx : Type} (f : Follower Tx)

def decodeEnvelope (bytes : Bytes) : Except IpldError Envelope := do
  let e ← okOr (f.parse bytes) (.malformed "envelope")
  if e.v ≠ envelopeVersion then .error (.malformed "envelope version") else .ok e

def obtain (held : Held) (parent : Cid) : Except SyncError Bytes × Held :=
  match held.store.lookup parent with
  | some b => (.ok b, held)
  | none =>
    match f.fetch parent with
    | .error e => (.error e, held)
    | .ok none => (.error (.fork f.head), held)
    | .ok (some b) => (.ok b, ⟨(parent, b) :: held.store, parent :: held.fetched⟩)

def turn (last : Cid × Envelope) (held : Held) : Option (Except SyncError (Cid × Envelope) × Held) :=
  if last.2.height.val ≤ f.head.val + 1 then none
  else
    match last.2.parent with
    | none => some (.error (.fork f.head), held)
    | some parent =>
      match f.obtain held parent with
      | (.error e, held) => some (.error e, held)
      | (.ok bytes, held) => some (((f.decodeEnvelope bytes).mapError .ipld).map fun env => (parent, env), held)

/-- The loop, for at most `n` parents; `none` if it is not over by then. -/
def walk : Nat → List (Cid × Envelope) → Cid × Envelope → Held →
    Option (Except SyncError (List (Cid × Envelope)) × Held)
  | 0, newer, last, held =>
    match f.turn last held with
    | none => some (.ok (last :: newer), held)
    | some (.error e, held) => some (.error e, held)
    | some (.ok _, _) => none
  | n + 1, newer, last, held =>
    match f.turn last held with
    | none => some (.ok (last :: newer), held)
    | some (.error e, held) => some (.error e, held)
    | some (.ok x, held) => walk n (last :: newer) x held

def connect (chain : List (Cid × Envelope)) : Except SyncError Stage :=
  if (chain.head?.bind fun x => x.2.parent) ≠ f.ours then .error (.fork f.head) else .ok (.collected chain)

def receive (a : Announce) : Except SyncError (Stage ⊕ Envelope) := do
  let inIpld {α : Type} (r : Except IpldError α) : Except SyncError α := r.mapError .ipld
  inIpld (verify f.lib a.root a.envelope)
  let envelope ← inIpld (f.decodeEnvelope a.envelope)
  if envelope.height ≠ a.height then .error (.ipld (.malformed "announce height"))
  else do
    inIpld (verify f.lib envelope.header a.header)
    let tipHash ← inIpld (okOr (blockHashOf envelope.header) (.malformed "header cid"))
    let (header, _) ← inIpld (okOr (Header.decode a.header) (.malformed "header"))
    if 0 < header.difficulty.val && f.finality.isSome then .ok (.inl .mined)
    else if a.height ≤ f.head then .ok (.inl .known)
    else
      match f.finality with
      | some check =>
        if check a.height tipHash a.proof = .notFinal then .error .notFinal else .ok (.inr envelope)
      | none => .ok (.inr envelope)

def handleAnnounce (n : Nat) (a : Announce) (store : List (Cid × Bytes)) : Option (Except SyncError Stage × Held) :=
  match f.receive a with
  | .error e => some (.error e, ⟨store, []⟩)
  | .ok (.inl stage) => some (.ok stage, ⟨store, []⟩)
  | .ok (.inr envelope) => (f.walk n [] (a.root, envelope) ⟨store, []⟩).map fun x => (x.1 >>= f.connect, x.2)

def content (store : List (Cid × Bytes)) (c : Cid) : Option Bytes :=
  match store.lookup c with
  | some b => some b
  | none => (f.fetch c).toOption.join

def remote (store : List (Cid × Bytes)) (c : Cid) : Bool :=
  (store.lookup c).isNone && (f.fetch c).toOption.join.isSome

def parentOf (store : List (Cid × Bytes)) (e : Envelope) : Option (Cid × Envelope) := do
  let c ← e.parent
  let b ← f.content store c
  let env ← (f.decodeEnvelope b).toOption
  return (c, env)

/-- The links lead from an envelope over those of the list to the last one, which is the first that claims a
height of at most one above the head, or the first whose parent cannot be had. -/
inductive Descends (store : List (Cid × Bytes)) : Envelope → List (Cid × Envelope) → Envelope → Prop
  | low {e : Envelope} (h : e.height.val ≤ f.head.val + 1) : Descends store e [] e
  | stuck {e : Envelope} (h : f.head.val + 1 < e.height.val) (hnone : f.parentOf store e = none) : Descends store e [] e
  | step {e z : Envelope} {x : Cid × Envelope} {l : List (Cid × Envelope)} (h : f.head.val + 1 < e.height.val)
      (hnext : f.parentOf store e = some x) (hrest : Descends store x.2 l z) : Descends store e (x :: l) z

def asked : Envelope → List (Cid × Envelope) → List Cid
  | e, [] => if f.head.val + 1 < e.height.val then e.parent.toList else []
  | _, x :: l => x.1 :: asked x.2 l

def heights (chain : List (Cid × Envelope)) : List Nat := chain.map fun x => x.2.height.val

variable {f} {store : List (Cid × Bytes)} {held held' : Held} {e z : Envelope} {l newer : List (Cid × Envelope)}
  {last : Cid × Envelope} {c : Cid} {n : Nat}

/-- The blockstore holds what it held before and what was fetched. -/
structure Grown (f : Follower Tx) (store : List (Cid × Bytes)) (held : Held) : Prop where
  lookup : ∀ c, held.store.lookup c = if c ∈ held.fetched then f.content store c else store.lookup c
  nodup : held.fetched.Nodup
  remote : ∀ c ∈ held.fetched, f.remote store c = true

theorem Grown.start : Grown f store ⟨store, []⟩ := ⟨by simp, List.nodup_nil, by simp⟩

theorem Grown.fetch {b : Bytes} (h : Grown f store held) (hnone : held.store.lookup c = none)
    (hfetch : f.fetch c = .ok (some b)) : f.content store c = some b ∧ f.remote store c = true ∧
      Grown f store ⟨(c, b) :: held.store, c :: held.fetched⟩ := by
  have hlook := h.lookup c
  rw [hnone] at hlook
  have hnew : c ∉ held.fetched := by
    intro hmem
    rw [if_pos hmem] at hlook
    have hremote := h.remote c hmem
    simp only [Follower.remote, Bool.and_eq_true, Option.isNone_iff_eq_none] at hremote
    have hjoin : none = (f.fetch c).toOption.join := by
      rwa [content, hremote.1] at hlook
    rw [← hjoin] at hremote
    cases hremote.2
  rw [if_neg hnew] at hlook
  have hcontent : f.content store c = some b := by
    rw [content, ← hlook, hfetch]
    rfl
  have hremote : f.remote store c = true := by
    rw [Follower.remote, ← hlook, hfetch]
    rfl
  refine ⟨hcontent, hremote, ?_, List.nodup_cons.2 ⟨hnew, h.nodup⟩, ?_⟩
  · intro x
    rw [List.lookup_cons]
    by_cases hx : x = c
    · subst hx
      simp [hcontent]
    · rw [beq_eq_false_iff_ne.2 hx, h.lookup x]
      simp [hx]
  · intro x hx
    rcases List.mem_cons.1 hx with rfl | hx
    · exact hremote
    · exact h.remote x hx

/-- An envelope is obtained whenever it is held or peers have it; only in the second case it is fetched. -/
theorem obtain_cases (h : Grown f store held) (c : Cid) :
    (f.content store c = none ∧ f.remote store c = false ∧ ∃ err, f.obtain held c = (.error err, held)) ∨
      ∃ b held', f.content store c = some b ∧ f.obtain held c = (.ok b, held') ∧ Grown f store held' ∧
        ∀ x, x ∈ held'.fetched ↔ x ∈ held.fetched ∨ x = c ∧ f.remote store x = true := by
  cases hlook : held.store.lookup c with
  | some b =>
    have hstore := h.lookup c
    rw [hlook] at hstore
    refine .inr ⟨b, held, ?_, by rw [obtain, hlook], h, fun x => ?_⟩
    · by_cases hmem : c ∈ held.fetched
      · rw [hstore, if_pos hmem]
      · rw [if_neg hmem] at hstore
        rw [content, ← hstore]
    · refine ⟨.inl, ?_⟩
      rintro (hx | ⟨rfl, hremote⟩)
      · exact hx
      · by_contra hmem
        rw [if_neg hmem] at hstore
        rw [remote, ← hstore] at hremote
        cases hremote
  | none =>
    have hstore := h.lookup c
    rw [hlook] at hstore
    have hfail : ∀ err, (f.fetch c).toOption.join = none → f.obtain held c = (.error err, held) →
        f.content store c = none ∧ f.remote store c = false ∧ ∃ err, f.obtain held c = (.error err, held) := by
      intro err hnone hobtain
      have hremote : f.remote store c = false := by rw [remote, hnone]; simp
      refine ⟨?_, hremote, err, hobtain⟩
      have hmem : c ∉ held.fetched := fun hmem => by rw [h.remote c hmem] at hremote; cases hremote
      rw [if_neg hmem] at hstore
      rw [content, ← hstore]
      exact hnone
    cases hfetch : f.fetch c with
    | error err => exact .inl (hfail err (by rw [hfetch]; rfl) (by rw [obtain, hlook, hfetch]))
    | ok o =>
      cases o with
      | none => exact .inl (hfail _ (by rw [hfetch]; rfl) (by rw [obtain, hlook, hfetch]))
      | some b =>
        obtain ⟨hcontent, hremote, hgrown⟩ := h.fetch hlook hfetch
        refine .inr ⟨b, _, hcontent, by rw [obtain, hlook, hfetch], hgrown, fun x => ?_⟩
        rw [List.mem_cons, or_comm]
        refine or_congr_right ⟨?_, And.left⟩
        rintro rfl
        exact ⟨rfl, hremote⟩

theorem turn_cases (h : Grown f store held) (last : Cid × Envelope) :
    (last.2.height.val ≤ f.head.val + 1 ∧ f.turn last held = none) ∨
      f.head.val + 1 < last.2.height.val ∧ ∃ res held', f.turn last held = some (res, held') ∧
        Grown f store held' ∧
        (∀ x, x ∈ held'.fetched ↔ x ∈ held.fetched ∨ x ∈ last.2.parent.toList ∧ f.remote store x = true) ∧
        match f.parentOf store last.2 with
        | none => ∃ err, res = .error err
        | some x => last.2.parent = some x.1 ∧ res = .ok x := by
  by_cases hlow : last.2.height.val ≤ f.head.val + 1
  · exact .inl ⟨hlow, if_pos hlow⟩
  · refine .inr ⟨by omega, ?_⟩
    rw [turn, if_neg hlow]
    cases hparent : last.2.parent with
    | none => exact ⟨_, held, rfl, h, by simp, by simp [parentOf, hparent]⟩
    | some c =>
      obtain ⟨hnone, hremote, err, hobtain⟩ | ⟨b, held', hcontent, hobtain, hgrown, hfetched⟩ := obtain_cases h c
      · refine ⟨.error err, held, by simp only [hobtain], h, fun x => ?_, by simp [parentOf, hparent, hnone]⟩
        refine ⟨.inl, ?_⟩
        rintro (hx | ⟨hx, hrem⟩)
        · exact hx
        · obtain rfl : x = c := by simpa using hx
          rw [hremote] at hrem
          cases hrem
      · simp only [hobtain]
        refine ⟨_, held', rfl, hgrown, fun x => ?_, ?_⟩
        · rw [hfetched x, Option.mem_toList, Option.some_inj, eq_comm]
        · cases hdec : f.decodeEnvelope b with
          | error err => simp [parentOf, hparent, hcontent, hdec, Except.toOption, Except.map, Except.mapError]
          | ok env => simp [parentOf, hparent, hcontent, hdec, Except.toOption, Except.map, Except.mapError]

theorem walk_of_over (h : f.turn last held = none) : f.walk n newer last held = some (.ok (last :: newer), held) := by
  cases n <;> simp [walk, h]

theorem walk_of_error {err : SyncError} (h : f.turn last held = some (.error err, held')) :
    f.walk n newer last held = some (.error err, held') := by
  cases n <;> simp [walk, h]

variable {x : Cid × Envelope}

theorem walk_zero (h : f.turn last held = some (.ok x, held')) :
    f.walk 0 newer last held = none := by
  simp [walk, h]

theorem walk_succ (h : f.turn last held = some (.ok x, held')) :
    f.walk (n + 1) newer last held = f.walk n (last :: newer) x held' := by
  rw [walk, h]

/-- What a walk that is over went along. -/
theorem walk_eq_some {res : Except SyncError (List (Cid × Envelope))} (h : Grown f store held)
    (hw : f.walk n newer last held = some (res, held')) : ∃ l z, f.Descends store last.2 l z ∧ Grown f store held' ∧
      (∀ x, x ∈ held'.fetched ↔ x ∈ held.fetched ∨ x ∈ f.asked last.2 l ∧ f.remote store x = true) ∧
      (z.height.val ≤ f.head.val + 1 ∧ res = .ok (l.reverse ++ last :: newer) ∨
        f.head.val + 1 < z.height.val ∧ ∃ err, res = .error err) := by
  induction n generalizing newer last held with
  | zero =>
    obtain ⟨hlow, hturn⟩ | ⟨hhigh, turned, held₁, hturn, hgrown, hfetched, hcase⟩ := turn_cases h last
    · rw [walk_of_over hturn] at hw
      cases hw
      exact ⟨[], last.2, .low hlow, h, fun x => by simp [asked, Nat.not_lt.2 hlow], .inl ⟨hlow, rfl⟩⟩
    · cases hparent : f.parentOf store last.2 with
      | none =>
        obtain ⟨err, rfl⟩ : ∃ err, turned = .error err := by rwa [hparent] at hcase
        rw [walk_of_error hturn] at hw
        cases hw
        exact ⟨[], last.2, .stuck hhigh hparent, hgrown, fun x => by rw [hfetched, asked, if_pos hhigh],
          .inr ⟨hhigh, err, rfl⟩⟩
      | some x =>
        obtain ⟨-, rfl⟩ : last.2.parent = some x.1 ∧ turned = .ok x := by rwa [hparent] at hcase
        rw [walk_zero hturn] at hw
        cases hw
  | succ n ih =>
    obtain ⟨hlow, hturn⟩ | ⟨hhigh, turned, held₁, hturn, hgrown, hfetched, hcase⟩ := turn_cases h last
    · rw [walk_of_over hturn] at hw
      cases hw
      exact ⟨[], last.2, .low hlow, h, fun x => by simp [asked, Nat.not_lt.2 hlow], .inl ⟨hlow, rfl⟩⟩
    · cases hparent : f.parentOf store last.2 with
      | none =>
        obtain ⟨err, rfl⟩ : ∃ err, turned = .error err := by rwa [hparent] at hcase
        rw [walk_of_error hturn] at hw
        cases hw
        exact ⟨[], last.2, .stuck hhigh hparent, hgrown, fun x => by rw [hfetched, asked, if_pos hhigh],
          .inr ⟨hhigh, err, rfl⟩⟩
      | some x =>
        obtain ⟨hlink, rfl⟩ : last.2.parent = some x.1 ∧ turned = .ok x := by rwa [hparent] at hcase
        rw [walk_succ hturn] at hw
        obtain ⟨l, z, hd, hgrown', hfetched', hend⟩ := ih hgrown hw
        refine ⟨x :: l, z, .step hhigh hparent hd, hgrown', fun y => ?_, ?_⟩
        · rw [hfetched', hfetched, hlink, asked, Option.toList_some, List.mem_singleton, List.mem_cons]
          tauto
        · simpa using hend

theorem exists_walk (h : Grown f store held) (hd : f.Descends store last.2 l z) :
    ∃ res held', f.walk l.length newer last held = some (res, held') := by
  generalize he : last.2 = e at hd
  induction hd generalizing newer last held with
  | low hlow =>
    subst he
    obtain ⟨-, hturn⟩ | ⟨hhigh, -⟩ := turn_cases h last
    · exact ⟨_, _, walk_of_over hturn⟩
    · omega
  | stuck hhigh hnone =>
    subst he
    obtain ⟨hlow, -⟩ | ⟨-, turned, held₁, hturn, -, -, hcase⟩ := turn_cases h last
    · omega
    · obtain ⟨err, rfl⟩ : ∃ err, turned = .error err := by rwa [hnone] at hcase
      exact ⟨_, _, walk_of_error hturn⟩
  | step hhigh hnext _ ih =>
    subst he
    obtain ⟨hlow, -⟩ | ⟨-, turned, held₁, hturn, hgrown, -, hcase⟩ := turn_cases h last
    · omega
    · obtain ⟨-, rfl⟩ := by rwa [hnext] at hcase
      rw [List.length_cons, walk_succ hturn]
      exact ih hgrown rfl

theorem Descends.unique {z' : Envelope} {l' : List (Cid × Envelope)} (h : f.Descends store e l z)
    (h' : f.Descends store e l' z') : l = l' ∧ z = z' := by
  induction h generalizing l' with
  | low hlow =>
    cases h' with
    | low => exact ⟨rfl, rfl⟩
    | stuck hhigh => omega
    | step hhigh => omega
  | stuck hhigh hnone =>
    cases h' with
    | low hlow => omega
    | stuck => exact ⟨rfl, rfl⟩
    | step _ hnext =>
      rw [hnone] at hnext
      cases hnext
  | step hhigh hnext _ ih =>
    cases h' with
    | low hlow => omega
    | stuck _ hnone =>
      rw [hnext] at hnone
      cases hnone
    | step _ hnext' hrest' =>
      rw [hnext] at hnext'
      cases hnext'
      obtain ⟨rfl, rfl⟩ := ih hrest'
      exact ⟨rfl, rfl⟩

theorem Descends.head (h : f.Descends store e l z) (c : Cid) :
    (l.reverse ++ [(c, e)]).head?.map Prod.snd = some z := by
  induction h generalizing c with
  | low => rfl
  | stuck => rfl
  | step _ _ _ ih =>
    rw [List.reverse_cons, List.head?_append, Option.or_of_isSome, ih]
    simp

theorem connect_eq (h : f.Descends store e l z) (c : Cid) : f.connect (l.reverse ++ [(c, e)]) =
    if z.parent ≠ f.ours then .error (.fork f.head) else .ok (.collected (l.reverse ++ [(c, e)])) := by
  obtain ⟨x, hx, rfl⟩ := Option.map_eq_some_iff.1 (h.head c)
  rw [connect, hx]
  rfl

def remoteCount (f : Follower Tx) (store : List (Cid × Bytes)) (e : Envelope) (l : List (Cid × Envelope)) : Nat :=
  ((f.asked e l).filter (f.remote store)).dedup.length

/-- A collected chain has each height above the head up to the announced one, once. -/
def Consecutive (f : Follower Tx) (height : U64) (chain : List (Cid × Envelope)) : Prop :=
  heights chain = List.range' (f.head.val + 1) (height.val - f.head.val)

/-- Catching up fetches no more envelopes than the announced distance, comes to an end, and collects every height
once. -/
def BoundedCatchUp (f : Follower Tx) (a : Announce) (store : List (Cid × Bytes)) : Prop :=
  ∃ n res held, f.handleAnnounce n a store = some (res, held) ∧
    held.fetched.length ≤ a.height.val - f.head.val - 1 ∧ ∀ chain, res = .ok (.collected chain) → f.Consecutive a.height chain

theorem length_fetched (hg : Grown f store held)
    (hmem : ∀ x, x ∈ held.fetched ↔ x ∈ ([] : List Cid) ∨ x ∈ f.asked e l ∧ f.remote store x = true) :
    held.fetched.length = f.remoteCount store e l := by
  refine List.Perm.length_eq ((List.perm_ext_iff_of_nodup hg.nodup (List.nodup_dedup _)).2 fun x => ?_)
  rw [hmem, List.mem_dedup, List.mem_filter]
  simp

theorem asked_of_low (h : f.Descends store e l z) (hlow : z.height.val ≤ f.head.val + 1) : f.asked e l = l.map Prod.fst := by
  induction h with
  | low h => rw [asked, if_neg (by omega), List.map_nil]
  | stuck h => omega
  | step _ _ _ ih => rw [asked, ih hlow, List.map_cons]

theorem Consecutive.remoteCount_le {a : Announce} (hd : f.Descends store e l z)
    (h : f.Consecutive a.height (l.reverse ++ [(a.root, e)])) :
    f.remoteCount store e l ≤ a.height.val - f.head.val - 1 := by
  have hlen := congrArg List.length h
  rw [heights, List.length_map, List.length_append, List.length_reverse, List.length_singleton,
    List.length_range'] at hlen
  have hlow : z.height.val ≤ f.head.val + 1 := by
    obtain ⟨x, hx, hz⟩ := Option.map_eq_some_iff.1 (hd.head a.root)
    have hfirst := congrArg List.head? h
    rw [heights, List.head?_map, hx, ← hlen, List.range'_succ, List.head?_cons, Option.map_some,
      Option.some_inj, hz] at hfirst
    omega
  calc f.remoteCount store e l ≤ (f.asked e l).length :=
        ((List.dedup_sublist _).trans List.filter_sublist).length_le
    _ = l.length := by rw [asked_of_low hd hlow, List.length_map]
    _ ≤ a.height.val - f.head.val - 1 := by omega

/-- Catching up is bounded by the announced distance exactly when the links from the announced envelope go down
by one height each, or else break off, or end in an envelope that is not on our head, after no more than that
many envelopes that had to be fetched. -/
theorem catch_up_bounded_iff {a : Announce} (hbegin : f.receive a = .ok (.inr e)) :
    f.BoundedCatchUp a store ↔ ∃ l z, f.Descends store e l z ∧
      (f.Consecutive a.height (l.reverse ++ [(a.root, e)]) ∨
        f.remoteCount store e l ≤ a.height.val - f.head.val - 1 ∧
          (f.head.val + 1 < z.height.val ∨ z.parent ≠ f.ours)) := by
  have hrun : ∀ n, f.handleAnnounce n a store =
      (f.walk n [] (a.root, e) ⟨store, []⟩).map fun x => (x.1 >>= f.connect, x.2) := by
    intro n
    rw [handleAnnounce, hbegin]
  constructor
  · rintro ⟨n, res, held, hres, hcount, hchain⟩
    rw [hrun] at hres
    obtain ⟨⟨r, held'⟩, hw, heq⟩ := Option.map_eq_some_iff.1 hres
    cases heq
    obtain ⟨l, z, hd, hgrown, hfetched, hend⟩ := walk_eq_some Grown.start hw
    refine ⟨l, z, hd, ?_⟩
    rw [length_fetched hgrown hfetched] at hcount
    obtain ⟨-, rfl⟩ | ⟨hhigh, -⟩ := hend
    · by_cases hours : z.parent = f.ours
      · have hconnect := connect_eq hd a.root
        rw [if_neg (not_not.2 hours)] at hconnect
        exact .inl (hchain _ hconnect)
      · exact .inr ⟨hcount, .inr hours⟩
    · exact .inr ⟨hcount, .inl hhigh⟩
  · rintro ⟨l, z, hd, hcond⟩
    obtain ⟨r, held, hw⟩ : ∃ r held, f.walk l.length [] (a.root, e) ⟨store, []⟩ = some (r, held) :=
      exists_walk Grown.start hd
    obtain ⟨l', z', hd', hgrown, hfetched, hend⟩ := walk_eq_some Grown.start hw
    obtain ⟨rfl, rfl⟩ := hd.unique hd'
    refine ⟨l.length, r >>= f.connect, held, by rw [hrun, hw]; rfl, ?_, fun chain hchain => ?_⟩
    · rw [length_fetched hgrown hfetched]
      exact hcond.elim (fun h => h.remoteCount_le hd) And.left
    · obtain ⟨hlow, rfl⟩ | ⟨-, err, rfl⟩ := hend
      · change f.connect (l.reverse ++ [(a.root, e)]) = _ at hchain
        rw [connect_eq hd] at hchain
        split at hchain
        case isTrue => cases hchain
        case isFalse hours =>
          cases hchain
          refine hcond.resolve_right fun h => ?_
          exact h.2.elim (fun hhigh => by omega) hours
      · cases hchain

end Follower

def parseByte (es : List Envelope) : Bytes → Option Envelope
  | [i] => es[i.toNat]?
  | _ => none

def byteCid (i : UInt8) : Cid := sha256Cid byteLibraries dagCbor [i]

/-- An envelope of the all-zero header that claims a height and links to the envelope at a place. -/
def claims (height : U64) (parent : Option Cid) : Envelope :=
  ⟨envelopeVersion, height, headerCid (sumHash zeroHeader.encode), parent, [], [], []⟩

/-- A follower at height 0; peers have the envelopes of a list under their places. -/
def followerOf (es : List Envelope) : Follower UInt8 where
  lib := byteLibraries
  parse := parseByte es
  finality := none
  head := ⟨0, u64_pos⟩
  ours := none
  fetch c := .ok (([1, 2, 3].find? fun i => byteCid i = c).map fun i => [i])

def announceTwo : Announce := ⟨⟨2, by decide⟩, byteCid 0, [0], zeroHeader.encode, []⟩

def honestEnvelopes : List Envelope := [claims ⟨2, by decide⟩ (some (byteCid 1)), claims ⟨1, by decide⟩ none]

/-- The parent claims to be higher than its child, and so does the parent of that. -/
def liarEnvelopes : List Envelope :=
  [claims ⟨2, by decide⟩ (some (byteCid 1)), claims ⟨9, by decide⟩ (some (byteCid 2)),
    claims ⟨9, by decide⟩ (some (byteCid 3)), claims ⟨9, by decide⟩ none]

theorem catch_up_bounded_iff_two : (followerOf honestEnvelopes).BoundedCatchUp announceTwo [] := by
  have hbegin : (followerOf honestEnvelopes).receive announceTwo =
      .ok (.inr (claims ⟨2, by decide⟩ (some (byteCid 1)))) := by decide +kernel
  exact (Follower.catch_up_bounded_iff hbegin).2 ⟨[(byteCid 1, claims ⟨1, by decide⟩ none)], claims ⟨1, by decide⟩ none,
    .step (by decide) (by decide +kernel) (.low (by decide)), .inl rfl⟩

/-- Three envelopes are fetched for an announcement two heights above the head. -/
theorem liar_makes_follower_fetch_more :
    ((followerOf liarEnvelopes).handleAnnounce 3 announceTwo []).map (fun x => x.2.fetched.length) = some 3 := by
  decide +kernel

end Boltchain.Sync
