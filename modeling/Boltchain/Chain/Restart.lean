import Boltchain.Chain.Built
import Boltchain.Lib.Lineage

namespace Boltchain.Chain

open Consensus (Bytes Hash)
open Lib.Action Lib.Journal

variable {W : World}

/-- A block as it is decoded from its envelope in the blockstore. -/
structure Decoded (W : World) where
  header : Header
  transactions : List W.Tx
  certs : Certs

abbrev Record := Nat × Hash × Cid

/-- The table of executed blocks that are not final yet. Its key is the number with the hash. -/
structure PendingTable where
  rows : List Record
  keys : (rows.map fun r => (r.1, r.2.1)).Nodup

def PendingTable.pendingBlocks (table : PendingTable) (above : Nat) : List Record :=
  table.rows.filter fun r => decide (above < r.1)

def Record.decoded (decode : Cid → Option (Decoded W)) (r : Record) : Option (Decoded W) :=
  (decode r.2.2).filter fun d => d.header.number == r.1 && W.hash d.header == r.2.1

def addDecoded (decode : Cid → Option (Decoded W)) (blocks : Hash → Option (Decoded W)) (r : Record) :
    Hash → Option (Decoded W) :=
  (r.decoded decode).elim blocks fun d => Function.update blocks r.2.1 (some d)

/-- The recorded blocks by hash, those that decode to what was recorded. -/
def decodedBlocks (decode : Cid → Option (Decoded W)) (records : List Record) : Hash → Option (Decoded W) :=
  records.foldl (addDecoded decode) fun _ => none

def recordedNumber (blocks : Hash → Option (Decoded W)) (h : Hash) : Nat := (blocks h).elim 0 (·.header.number)

namespace Node

/-- Executes one recorded block again, if it is not pending and its parent is the head or pending; counts it if it is
accepted. -/
def restoreOne (blocks : Hash → Option (Decoded W)) : Node W × Nat → Hash → Node W × Nat
  | (n, restored), hash =>
    if (n.pendingBlock hash).isSome then (n, restored)
    else
      match blocks hash with
      | none => (n, restored)
      | some b =>
        if b.header.parentHash ≠ W.hash n.head ∧ (n.pendingBlock b.header.parentHash).isNone then (n, restored)
        else
          match n.verifyBlock b.header b.transactions b.certs with
          | .ok p => (n.addPending p, restored + 1)
          | .error _ => (n, restored)

inductive RestoreOne (blocks : Hash → Option (Decoded W)) (n : Node W) (restored : Nat) (hash : Hash) :
    Node W × Nat → Prop where
  | pending (p : PendingBlock W) : n.pendingBlock hash = some p → RestoreOne blocks n restored hash (n, restored)
  | unknown : blocks hash = none → RestoreOne blocks n restored hash (n, restored)
  | orphan (b : Decoded W) : blocks hash = some b → b.header.parentHash ≠ W.hash n.head →
      n.pendingBlock b.header.parentHash = none → RestoreOne blocks n restored hash (n, restored)
  | refused (b : Decoded W) (e : ChainError) : blocks hash = some b → n.pendingBlock hash = none →
      n.verifyBlock b.header b.transactions b.certs = .error e → RestoreOne blocks n restored hash (n, restored)
  | verified (b : Decoded W) (p : PendingBlock W) : blocks hash = some b → n.pendingBlock hash = none →
      n.verifyBlock b.header b.transactions b.certs = .ok p →
      RestoreOne blocks n restored hash (n.addPending p, restored + 1)

theorem restoreOne_cases (blocks : Hash → Option (Decoded W)) (n : Node W) (restored : Nat) (hash : Hash) :
    RestoreOne blocks n restored hash (restoreOne blocks (n, restored) hash) := by
  unfold restoreOne
  dsimp only
  split
  case isTrue hsome =>
    obtain ⟨p, hp⟩ := Option.isSome_iff_exists.1 hsome
    exact .pending p hp
  case isFalse hfresh =>
    rw [Bool.not_eq_true, Option.isSome_eq_false_iff, Option.isNone_iff_eq_none] at hfresh
    split
    case h_1 hb => exact .unknown hb
    case h_2 b hb =>
      split
      case isTrue hcut => exact .orphan b hb hcut.1 (Option.isNone_iff_eq_none.1 hcut.2)
      case isFalse =>
        split
        case h_1 p hv => exact .verified b p hb hfresh hv
        case h_2 e hv => exact .refused b e hb hfresh hv

/-- Executes again the recorded pending blocks among `wanted` and their ancestors, lowest first. -/
def restorePending (n : Node W) (table : PendingTable) (decode : Cid → Option (Decoded W)) (wanted : List Hash) :
    Node W × Nat :=
  let records := table.pendingBlocks n.head.number
  let blocks := decodedBlocks decode records
  let chosen := Lib.Lineage.collect (fun h => (blocks h).map (·.header.parentHash)) (records.length + 1) wanted
  (chosen.mergeSort fun a b => decide (recordedNumber blocks a ≤ recordedNumber blocks b)).foldl (restoreOne blocks) (n, 0)

end Node

section Decoding

variable {decode : Cid → Option (Decoded W)} {records : List Record} {h : Hash} {d : Decoded W}

variable {r : Record}

theorem Record.decoded_eq_some_iff :
    r.decoded decode = some d ↔ decode r.2.2 = some d ∧ d.header.number = r.1 ∧ W.hash d.header = r.2.1 := by
  simp [Record.decoded, Option.filter_eq_some_iff]

theorem decodedBlocks_concat (r : Record) :
    decodedBlocks decode (records ++ [r]) = addDecoded decode (decodedBlocks decode records) r := by
  simp [decodedBlocks]

theorem addDecoded_some {blocks : Hash → Option (Decoded W)}
    (hd : addDecoded decode blocks r h = some d) : blocks h = some d ∨ r.2.1 = h ∧ r.decoded decode = some d := by
  unfold addDecoded at hd
  cases hr : r.decoded decode with
  | none =>
    rw [hr] at hd
    exact .inl hd
  | some d' =>
    rw [hr, Option.elim_some] at hd
    by_cases heq : h = r.2.1
    · rw [heq, Function.update_self] at hd
      exact .inr ⟨heq.symm, hd⟩
    · rw [Function.update_of_ne heq] at hd
      exact .inl hd

theorem decodedBlocks_some (hd : decodedBlocks decode records h = some d) :
    ∃ root, (d.header.number, h, root) ∈ records ∧ decode root = some d ∧ W.hash d.header = h := by
  induction records using List.reverseRecOn with
  | nil => cases hd
  | append_singleton records r ih =>
    rw [decodedBlocks_concat] at hd
    rcases addDecoded_some hd with hold | ⟨rfl, hnew⟩
    · obtain ⟨root, hmem, hrest⟩ := ih hold
      exact ⟨root, List.mem_append_left _ hmem, hrest⟩
    · obtain ⟨hdec, hnumber, hhash⟩ := Record.decoded_eq_some_iff.1 hnew
      exact ⟨r.2.2, by simp [hnumber], hdec, hhash⟩

theorem decodedBlocks_of_mem (hkeys : (records.map fun r => (r.1, r.2.1)).Nodup) {root : Cid}
    (hr : (d.header.number, h, root) ∈ records) (hd : decode root = some d) (hhash : W.hash d.header = h) :
    decodedBlocks decode records h = some d := by
  induction records using List.reverseRecOn with
  | nil => cases hr
  | append_singleton records r ih =>
    rw [decodedBlocks_concat]
    rw [List.map_append, List.map_singleton, List.nodup_append] at hkeys
    obtain ⟨hold, -, hdisjoint⟩ := hkeys
    rcases List.mem_append.1 hr with hmem | hmem
    · have hfiled := ih hold hmem
      unfold addDecoded
      cases hdec : r.decoded decode with
      | none => exact hfiled
      | some e =>
        obtain ⟨-, hnumber, hehash⟩ := Record.decoded_eq_some_iff.1 hdec
        have hne : h ≠ r.2.1 := by
          intro heq
          have hsame : e.header = d.header := W.hash_inj (hehash.trans (heq.symm.trans hhash.symm))
          have hkey : (r.1, r.2.1) = (d.header.number, h) := by rw [← hnumber, hsame, heq]
          exact hdisjoint _ (List.mem_map_of_mem hmem) _ List.mem_cons_self hkey.symm
        rw [Option.elim_some, Function.update_of_ne hne]
        exact hfiled
    · obtain rfl := List.mem_singleton.1 hmem
      rw [addDecoded, Record.decoded_eq_some_iff.2 ⟨hd, rfl, hhash⟩, Option.elim_some, Function.update_self]

end Decoding

namespace Node

variable (n : Node W)

/-- A recorded block above the head that decodes to what was recorded. -/
def Records (table : PendingTable) (decode : Cid → Option (Decoded W)) (h : Hash) (d : Decoded W) : Prop :=
  n.head.number < d.header.number ∧
    ∃ root, (d.header.number, h, root) ∈ table.rows ∧ decode root = some d ∧ W.hash d.header = h

variable {d : Decoded W} {h : Hash}

theorem records_iff {table : PendingTable} {decode : Cid → Option (Decoded W)} :
    n.Records table decode h d ↔ decodedBlocks decode (table.pendingBlocks n.head.number) h = some d := by
  constructor
  · rintro ⟨habove, root, hmem, hd, hhash⟩
    have hkeys : ((table.pendingBlocks n.head.number).map fun r => (r.1, r.2.1)).Nodup :=
      (List.Sublist.map _ List.filter_sublist).nodup table.keys
    exact decodedBlocks_of_mem hkeys (List.mem_filter.2 ⟨hmem, by simpa using habove⟩) hd hhash
  · intro hfiled
    obtain ⟨root, hmem, hd, hhash⟩ := decodedBlocks_some hfiled
    obtain ⟨hrow, habove⟩ := List.mem_filter.1 hmem
    exact ⟨by simpa using habove, root, hrow, hd, hhash⟩

def withPending (ps : List (PendingBlock W)) : Node W := { n with pending := ps }

inductive Connects (recorded : Hash → Decoded W → Prop) : Hash → List Hash → Prop where
  | head : Connects recorded (W.hash n.head) []
  | next {h : Hash} {d : Decoded W} {path : List Hash} : recorded h d →
      Connects recorded d.header.parentHash path → Connects recorded h (h :: path)

/-- What the recorded blocks from `h` down to the head give, each executed on those below it. -/
inductive Executes (recorded : Hash → Decoded W → Prop) : Hash → List (PendingBlock W) → Prop where
  | head : Executes recorded (W.hash n.head) []
  | next {h : Hash} {d : Decoded W} {p : PendingBlock W} {l : List (PendingBlock W)} : recorded h d →
      Executes recorded d.header.parentHash l →
      (n.withPending l).verifyBlock d.header d.transactions d.certs = .ok p → Executes recorded h (p :: l)

/-- Recorded blocks were executed once, and executing them again gives the same: also for those that are pending. -/
structure Reexecutes (recorded : Hash → Decoded W → Prop) : Prop where
  again : ∀ h path, n.Connects recorded h path → ∃ l, n.Executes recorded h l
  held : ∀ p ∈ n.pending, ∀ q l, n.Executes recorded (W.hash p.header) (q :: l) → q = p

structure Filing (recorded : Hash → Decoded W → Prop) : Prop where
  hash : ∀ h d, recorded h d → W.hash d.header = h
  above : ∀ h d, recorded h d → n.head.number < d.header.number
  unique : ∀ h d e, recorded h d → recorded h e → d = e

theorem filing_records (table : PendingTable) (decode : Cid → Option (Decoded W)) :
    n.Filing (n.Records table decode) where
  hash _ _ h := h.2.elim fun _ hr => hr.2.2
  above _ _ h := h.1
  unique _ _ _ h h' := Option.some_inj.1 ((n.records_iff.1 h).symm.trans (n.records_iff.1 h'))

section

variable {n} {recorded : Hash → Decoded W → Prop} {h : Hash} {p q : PendingBlock W} {l l' ps : List (PendingBlock W)}
  {path : List Hash} {d : Decoded W}

theorem Filing.ne_head (hf : n.Filing recorded) (hd : recorded h d) : h ≠ W.hash n.head := by
  intro heq
  have hsame : d.header = n.head := W.hash_inj ((hf.hash h d hd).trans heq)
  have habove := hf.above h d hd
  rw [hsame] at habove
  exact lt_irrefl _ habove

namespace Executes

theorem connects (he : n.Executes recorded h l) : ∃ path, n.Connects recorded h path := by
  induction he with
  | head => exact ⟨[], .head⟩
  | next hd _ _ ih =>
    obtain ⟨path, hpath⟩ := ih
    exact ⟨_, .next hd hpath⟩

theorem unique (hf : n.Filing recorded) (he : n.Executes recorded h l) (he' : n.Executes recorded h l') : l = l' := by
  induction he generalizing l' with
  | head =>
    generalize hh : W.hash n.head = h at he'
    cases he' with
    | head => rfl
    | next hd _ _ => exact absurd hh.symm (hf.ne_head hd)
  | next hd _ hp ih =>
    generalize hl : l' = k at he'
    cases he' with
    | head => exact absurd rfl (hf.ne_head hd)
    | next hd' he' hp' =>
      obtain rfl := hf.unique _ _ _ hd hd'
      obtain rfl := ih he'
      rw [Except.ok.inj (hp.symm.trans hp')]

theorem hash_header (hf : n.Filing recorded) (he : n.Executes recorded h (p :: l)) : W.hash p.header = h := by
  cases he with
  | next hd _ hp => rw [verifyBlock_header hp, hf.hash _ _ hd]

theorem of_mem (hf : n.Filing recorded) (he : n.Executes recorded h l) (hq : q ∈ l) :
    ∃ k, q :: k <:+ l ∧ n.Executes recorded (W.hash q.header) (q :: k) := by
  induction he with
  | head => cases hq
  | @next h d p l hd he hp ih =>
    rcases List.mem_cons.1 hq with rfl | hq
    · have hnext := Executes.next hd he hp
      exact ⟨l, List.suffix_rfl, by rw [hash_header hf hnext]; exact hnext⟩
    · obtain ⟨k, hk, hexec⟩ := ih hq
      exact ⟨k, hk.trans (List.suffix_cons _ _), hexec⟩

theorem pendingBlock_withPending (hf : n.Filing recorded) (he : n.Executes recorded h l) (hq : q ∈ l) :
    (n.withPending l).pendingBlock (W.hash q.header) = some q := by
  have hsome : ((n.withPending l).pendingBlock (W.hash q.header)).isSome := by
    rw [pendingBlock, List.find?_isSome]
    exact ⟨q, hq, beq_self_eq_true _⟩
  obtain ⟨r, hr⟩ := Option.isSome_iff_exists.1 hsome
  have hmem : r ∈ l := List.mem_of_find?_eq_some hr
  have hhash : W.hash r.header = W.hash q.header := by simpa using List.find?_some hr
  obtain ⟨k, -, hk⟩ := he.of_mem hf hq
  obtain ⟨j, -, hj⟩ := he.of_mem hf hmem
  rw [hhash] at hj
  rw [hr, (List.cons.inj (hj.unique hf hk)).1]

theorem fresh (hf : n.Filing recorded) (he : n.Executes recorded h (p :: l)) :
    (n.withPending l).pendingBlock h = none := by
  by_contra hne
  obtain ⟨q, hq⟩ := Option.ne_none_iff_exists'.1 hne
  have hhash : W.hash q.header = h := by simpa using List.find?_some hq
  obtain ⟨k, hk, hexec⟩ : ∃ k, q :: k <:+ l ∧ n.Executes recorded (W.hash q.header) (q :: k) := by
    cases he with
    | next _ he _ => exact he.of_mem hf (List.mem_of_find?_eq_some hq)
  rw [hhash] at hexec
  have hsame := congrArg List.length (hexec.unique hf he)
  have hshorter := hk.length_le
  simp only [List.length_cons] at hsame hshorter
  omega

theorem number (hf : n.Filing recorded) (he : n.Executes recorded h l) :
    ∀ g : Header, W.hash g = h → g.number = n.head.number + l.length := by
  induction he with
  | head =>
    intro g hg
    rw [W.hash_inj hg]
    rfl
  | @next h d p l hd he hp ih =>
    intro g hg
    obtain rfl : g = d.header := W.hash_inj (hg.trans (hf.hash h d hd).symm)
    have hfresh := fresh hf (.next hd he hp)
    rw [← hg] at hfresh
    obtain ⟨parent, -, -, hparent, hnumber, -⟩ := verifyBlock_ok hfresh hp
    rw [hnumber, ih parent (headerOf_hash hparent), List.length_cons, Nat.add_assoc]

theorem path_eq (hf : n.Filing recorded) (he : n.Executes recorded h l) (hc : n.Connects recorded h path) :
    path = l.map fun q => W.hash q.header := by
  induction hc generalizing l with
  | head => rw [he.unique hf .head, List.map_nil]
  | @next h d path hd _ ih =>
    generalize hl : l = k at he
    cases he with
    | head => exact absurd rfl (hf.ne_head hd)
    | @next _ d' p l hd' he hp =>
      obtain rfl := hf.unique _ _ _ hd hd'
      rw [ih he, List.map_cons, hash_header hf (.next hd he hp)]

end Executes

def PendsAll (n : Node W) (l : List (PendingBlock W)) : Prop := ∀ q ∈ l, n.pendingBlock (W.hash q.header) = some q

namespace Executes

theorem pendingChainFrom_eq (hf : n.Filing recorded) (he : n.Executes recorded h l) (hheld : (n.withPending ps).PendsAll l)
    {fuel : Nat} (hfuel : l.length ≤ fuel) (chain : List (PendingBlock W)) :
    (n.withPending ps).pendingChainFrom fuel h chain = .ok (l.reverse ++ chain) := by
  induction he generalizing fuel chain with
  | head =>
    have hhead : W.hash n.head = W.hash (n.withPending ps).head := rfl
    unfold pendingChainFrom
    rw [if_pos hhead, List.reverse_nil, List.nil_append]
  | @next h d p l hd he hp ih =>
    have hhash := hash_header hf (.next hd he hp)
    have hheader := verifyBlock_header hp
    obtain ⟨fuel, rfl⟩ : ∃ k, fuel = k + 1 := ⟨fuel - 1, by rw [List.length_cons] at hfuel; omega⟩
    have hpending : (n.withPending ps).pendingBlock h = some p := hhash ▸ hheld p List.mem_cons_self
    have hne : h ≠ W.hash (n.withPending ps).head := hf.ne_head hd
    have habove : ¬ p.header.number ≤ (n.withPending ps).head.number := by
      rw [hheader]
      exact Nat.not_le.2 (hf.above h d hd)
    unfold pendingChainFrom
    rw [if_neg hne, hpending]
    simp only [if_neg habove]
    rw [hheader, ih (fun q hq => hheld q (List.mem_cons_of_mem p hq)) (Nat.le_of_succ_le_succ hfuel), List.reverse_cons,
      List.append_assoc, List.singleton_append]

theorem pendingChain_eq (hf : n.Filing recorded) (he : n.Executes recorded h l)
    (hheld : (n.withPending ps).PendsAll l) : (n.withPending ps).pendingChain h = .ok l.reverse := by
  have hheader : ∃ g, (n.withPending ps).headerOf h = some g := by
    cases he with
    | head => exact ⟨_, headerOf_head (n.withPending ps)⟩
    | next hd he hp =>
      have hhash := hash_header hf (.next hd he hp)
      exact ⟨_, by rw [headerOf, ← hhash, hheld _ List.mem_cons_self]; rfl⟩
  obtain ⟨g, hg⟩ := hheader
  have hfuel : l.length ≤ g.number := by
    rw [he.number hf g (headerOf_hash hg)]
    exact Nat.le_add_left _ _
  unfold pendingChain
  rw [hg, Option.elim_some, he.pendingChainFrom_eq hf hheld hfuel, List.append_nil]

theorem verifyBlock_eq (hn : n.Rooted) (hf : n.Filing recorded) (he : n.Executes recorded h (p :: l))
    (hd : recorded h d) (hheld : (n.withPending ps).PendsAll l) (hfresh : (n.withPending ps).pendingBlock h = none) :
    (n.withPending ps).verifyBlock d.header d.transactions d.certs = .ok p := by
  have hfresh' := he.fresh hf
  cases he with
  | @next _ d' _ _ hd' he hp =>
    obtain rfl := hf.unique _ _ _ hd hd'
    have hchain := he.pendingChain_eq hf hheld
    have hchain' := he.pendingChain_eq hf fun q hq => he.pendingBlock_withPending hf hq
    have hsame : (n.withPending l).SameAncestors (n.withPending ps) d.header.parentHash :=
      ⟨rfl, rfl, hchain.trans hchain'.symm⟩
    have hview : (n.withPending ps).view d.header.parentHash = (n.withPending l).view d.header.parentHash :=
      hsame.view_eq ⟨hn.linked, hn.root⟩
    have hok : (n.withPending l).view d.header.parentHash = .ok ((n.withPending l).viewOver l.reverse) := by
      rw [view, hchain']
      rfl
    have hparent := (headerOf_parent (hview.trans hok)).trans (headerOf_parent hok).symm
    rw [← hf.hash h d hd] at hfresh hfresh'
    rw [← hp]
    unfold verifyBlock
    rw [hfresh, hfresh', hparent, hview]

end Executes

theorem pendingBlock_cons (x : Hash) :
    (n.withPending (p :: ps)).pendingBlock x =
      if W.hash p.header = x then some p else (n.withPending ps).pendingBlock x := by
  unfold pendingBlock
  by_cases hx : W.hash p.header = x
  · rw [if_pos hx]
    exact List.find?_cons_of_pos (by simp [hx])
  · rw [if_neg hx]
    exact List.find?_cons_of_neg (by simp [hx])

theorem PendsAll.cons (hl : (n.withPending ps).PendsAll l) (hfresh : (n.withPending ps).pendingBlock (W.hash p.header) = none) :
    (n.withPending (p :: ps)).PendsAll l := by
  intro q hq
  have hne : W.hash p.header ≠ W.hash q.header := by
    intro heq
    rw [heq, hl q hq] at hfresh
    cases hfresh
  rw [pendingBlock_cons, if_neg hne]
  exact hl q hq

theorem addPending_fresh (hfresh : (n.withPending ps).pendingBlock (W.hash p.header) = none) :
    (n.withPending ps).addPending p = n.withPending (p :: ps) := by
  have hkeep : ps.filter (fun q => W.hash q.header != W.hash p.header) = ps := by
    refine List.filter_eq_self.2 fun q hq => ?_
    simpa using List.find?_eq_none.1 hfresh q hq
  show { n with pending := p :: ps.filter _ } = n.withPending (p :: ps)
  rw [hkeep]
  rfl

/-- After the blocks of `done`: every one of them that connects is pending with all below it, and the count is of blocks
that were not pending before. -/
structure Restored (n : Node W) (recorded : Hash → Decoded W → Prop) (done : List Hash) (ps : List (PendingBlock W))
    (restored : Nat) : Prop where
  added : ∃ new, ps = new ++ n.pending ∧ new.length = restored ∧ (new.map fun p => W.hash p.header).Nodup ∧
    ∀ p ∈ new, n.pendingBlock (W.hash p.header) = none
  held : ∀ p ∈ ps, ∀ q l, n.Executes recorded (W.hash p.header) (q :: l) → q = p
  reached : ∀ h ∈ done, ∀ l, n.Executes recorded h l → (n.withPending ps).PendsAll l

namespace Restored

variable {done : List Hash} {restored : Nat}

theorem nil (hr : n.Reexecutes recorded) : n.Restored recorded [] n.pending 0 where
  added := ⟨[], rfl, rfl, List.nodup_nil, fun _ hp => (by cases hp)⟩
  held := hr.held
  reached _ hh := (by cases hh)

theorem skip (hr : n.Restored recorded done ps restored)
    (hh : ∀ l, n.Executes recorded h l → (n.withPending ps).PendsAll l) :
    n.Restored recorded (done ++ [h]) ps restored where
  added := hr.added
  held := hr.held
  reached x hx := (List.mem_append.1 hx).elim (hr.reached x) fun hx => List.mem_singleton.1 hx ▸ hh

theorem add (hr : n.Restored recorded done ps restored) (hfresh : (n.withPending ps).pendingBlock h = none)
    (hhash : W.hash p.header = h) (hp : ∀ q l, n.Executes recorded h (q :: l) → q = p ∧ (n.withPending ps).PendsAll l) :
    n.Restored recorded (done ++ [h]) (p :: ps) (restored + 1) where
  added := by
    obtain ⟨new, rfl, hlen, hnodup, hnew⟩ := hr.added
    have hnone := List.find?_eq_none.1 hfresh
    refine ⟨p :: new, rfl, by rw [List.length_cons, hlen], ?_, ?_⟩
    · rw [List.map_cons, List.nodup_cons]
      refine ⟨fun hmem => ?_, hnodup⟩
      obtain ⟨q, hq, heq⟩ := List.mem_map.1 hmem
      exact hnone q (List.mem_append_left _ hq) (by simp [heq, hhash])
    · intro q hq
      rcases List.mem_cons.1 hq with rfl | hq
      · refine List.find?_eq_none.2 fun r hrmem => ?_
        rw [hhash]
        exact hnone r (List.mem_append_right _ hrmem)
      · exact hnew q hq
  held q hq r l he := by
    rcases List.mem_cons.1 hq with rfl | hq
    · rw [hhash] at he
      exact (hp r l he).1
    · exact hr.held q hq r l he
  reached x hx l he := by
    have hfresh' : (n.withPending ps).pendingBlock (W.hash p.header) = none := by rw [hhash]; exact hfresh
    rcases List.mem_append.1 hx with hx | hx
    · exact (hr.reached x hx l he).cons hfresh'
    · obtain rfl := List.mem_singleton.1 hx
      cases l with
      | nil => exact fun q hq => (by cases hq)
      | cons q l =>
        obtain ⟨rfl, hl⟩ := hp q l he
        intro r hrmem
        rcases List.mem_cons.1 hrmem with rfl | hrmem
        · rw [pendingBlock_cons, if_pos rfl]
        · exact hl.cons hfresh' r hrmem

variable {blocks : Hash → Option (Decoded W)}

/-- One recorded block, its parent treated before it. -/
theorem step (hn : n.Rooted) (hf : n.Filing recorded)
    (hblocks : ∀ h d, recorded h d ↔ blocks h = some d) (hr : n.Restored recorded done ps restored)
    (hparent : ∀ d, recorded h d → ∀ l, n.Executes recorded d.header.parentHash l → l ≠ [] →
      d.header.parentHash ∈ done) :
    ∃ ps' restored', restoreOne blocks (n.withPending ps, restored) h = (n.withPending ps', restored') ∧
      n.Restored recorded (done ++ [h]) ps' restored' := by
  -- what was executed below `h` is pending
  have hbelow : ∀ q l, n.Executes recorded h (q :: l) → ∃ d, blocks h = some d ∧
      n.Executes recorded d.header.parentHash l ∧ (n.withPending ps).PendsAll l := by
    intro q l he
    cases he with
    | @next _ d _ _ hd he hp =>
      refine ⟨d, (hblocks h d).1 hd, he, ?_⟩
      cases l with
      | nil => exact fun r hr => (by cases hr)
      | cons r l => exact hr.reached _ (hparent d hd _ he (List.cons_ne_nil r l)) _ he
  have hskip : (∀ q l, n.Executes recorded h (q :: l) → (n.withPending ps).PendsAll (q :: l)) →
      n.Restored recorded (done ++ [h]) ps restored := by
    intro hh
    refine hr.skip fun l he => ?_
    cases l with
    | nil => exact fun q hq => (by cases hq)
    | cons q l => exact hh q l he
  have hverify : ∀ b, blocks h = some b → (n.withPending ps).pendingBlock h = none → ∀ q l,
      n.Executes recorded h (q :: l) →
        (n.withPending ps).verifyBlock b.header b.transactions b.certs = .ok q ∧ (n.withPending ps).PendsAll l := by
    intro b hb hfresh q l he
    obtain ⟨d, -, -, hl⟩ := hbelow q l he
    exact ⟨he.verifyBlock_eq hn hf ((hblocks h b).2 hb) hl hfresh, hl⟩
  have hcases := restoreOne_cases blocks (n.withPending ps) restored h
  generalize restoreOne blocks (n.withPending ps, restored) h = r at hcases
  cases hcases with
  | pending p hp =>
    refine ⟨ps, restored, rfl, hskip fun q l he => ?_⟩
    obtain ⟨d, -, -, hl⟩ := hbelow q l he
    have hhash : W.hash p.header = h := by simpa using List.find?_some hp
    have hq : q = p := hr.held p (List.mem_of_find?_eq_some hp) q l (hhash.symm ▸ he)
    intro r hrmem
    rcases List.mem_cons.1 hrmem with rfl | hrmem
    · rw [hq, hhash]
      exact hp
    · exact hl r hrmem
  | unknown hb =>
    refine ⟨ps, restored, rfl, hskip fun q l he => ?_⟩
    obtain ⟨d, hd, -, -⟩ := hbelow q l he
    rw [hb] at hd
    cases hd
  | orphan b hb hhead hnone =>
    refine ⟨ps, restored, rfl, hskip fun q l he => ?_⟩
    obtain ⟨d, hd, hexec, hl⟩ := hbelow q l he
    obtain rfl : b = d := Option.some_inj.1 (hb.symm.trans hd)
    cases l with
    | nil =>
      generalize b.header.parentHash = x at hexec hhead
      cases hexec with
      | head => exact absurd rfl hhead
    | cons r l =>
      have hsome := hl r List.mem_cons_self
      rw [hexec.hash_header hf, hnone] at hsome
      cases hsome
  | refused b e hb hfresh hv =>
    refine ⟨ps, restored, rfl, hskip fun q l he => ?_⟩
    have hok := (hverify b hb hfresh q l he).1
    rw [hv] at hok
    cases hok
  | verified b p hb hfresh hv =>
    have hhash : W.hash p.header = h := by rw [verifyBlock_header hv, hf.hash h b ((hblocks h b).2 hb)]
    refine ⟨p :: ps, restored + 1, ?_, hr.add hfresh hhash fun q l he => ?_⟩
    · rw [addPending_fresh (hhash.symm ▸ hfresh)]
    · obtain ⟨hok, hl⟩ := hverify b hb hfresh q l he
      exact ⟨(Except.ok.inj (hv.symm.trans hok)).symm, hl⟩

theorem run (hn : n.Rooted) (hf : n.Filing recorded)
    (hblocks : ∀ h d, recorded h d ↔ blocks h = some d) (hr : n.Reexecutes recorded) {sorted : List Hash}
    (hsorted : ∀ pre h post, sorted = pre ++ h :: post → ∀ d, recorded h d →
      ∀ l, n.Executes recorded d.header.parentHash l → l ≠ [] → d.header.parentHash ∈ pre) :
    ∃ ps restored, sorted.foldl (restoreOne blocks) (n, 0) = (n.withPending ps, restored) ∧
      n.Restored recorded sorted ps restored := by
  have hprefix : ∀ pre post, sorted = pre ++ post →
      ∃ ps restored, pre.foldl (restoreOne blocks) (n, 0) = (n.withPending ps, restored) ∧
        n.Restored recorded pre ps restored := by
    intro pre
    induction pre using List.reverseRecOn with
    | nil => exact fun _ _ => ⟨n.pending, 0, rfl, .nil hr⟩
    | append_singleton pre h ih =>
      intro post hpost
      rw [List.append_assoc, List.singleton_append] at hpost
      obtain ⟨ps, restored, hfold, hdone⟩ := ih (h :: post) hpost
      rw [List.foldl_append, List.foldl_cons, List.foldl_nil, hfold]
      exact hdone.step hn hf hblocks (hsorted pre h post hpost)
  exact hprefix sorted [] (List.append_nil sorted).symm

end Restored

end

/-- In the order of their numbers the blocks of a closed list stand after their parents. -/
theorem parents_first {n : Node W} {recorded : Hash → Decoded W → Prop} (hf : n.Filing recorded)
    {blocks : Hash → Option (Decoded W)} (hblocks : ∀ h d, recorded h d ↔ blocks h = some d)
    (hagain : ∀ h path, n.Connects recorded h path → ∃ l, n.Executes recorded h l) {chosen : List Hash}
    (hclosed : Lib.Lineage.Closed (fun h => (blocks h).map (·.header.parentHash)) chosen) {pre post : List Hash}
    (hsort : chosen.mergeSort (fun a b => decide (recordedNumber blocks a ≤ recordedNumber blocks b)) =
      pre ++ h :: post) (hd : recorded h d) {l : List (PendingBlock W)}
    (he : n.Executes recorded d.header.parentHash l) (hne : l ≠ []) : d.header.parentHash ∈ pre := by
  have hperm := List.mergeSort_perm chosen
    fun a b => decide (recordedNumber blocks a ≤ recordedNumber blocks b)
  rw [hsort] at hperm
  obtain ⟨e, hrec⟩ : ∃ e, recorded d.header.parentHash e := by
    generalize hx : d.header.parentHash = x at he
    cases he with
    | head => exact absurd rfl hne
    | next hrec _ _ => exact ⟨_, hrec⟩
  have hb := (hblocks _ _).1 hd
  have hb' := (hblocks _ _).1 hrec
  have hmem : d.header.parentHash ∈ pre ++ h :: post :=
    hperm.mem_iff.2 (hclosed h (hperm.mem_iff.1 (by simp)) _ (by simp [hb]) (by simp [hb']))
  -- the parent is one lower, so it does not stand at or after the block
  obtain ⟨k, hk⟩ : ∃ k, n.Executes recorded h k := by
    obtain ⟨path, hpath⟩ := he.connects
    exact hagain h _ (.next hd hpath)
  have hlower : recordedNumber blocks d.header.parentHash < recordedNumber blocks h := by
    rw [recordedNumber, recordedNumber, hb, hb', Option.elim_some, Option.elim_some,
      he.number hf _ (hf.hash _ _ hrec), hk.number hf _ (hf.hash _ _ hd)]
    cases hk with
    | head => exact absurd rfl (hf.ne_head hd)
    | next hd' he' _ =>
      obtain rfl := hf.unique _ _ _ hd hd'
      rw [he'.unique hf he, List.length_cons]
      omega
  have hpairs : (pre ++ h :: post).Pairwise fun a b => recordedNumber blocks a ≤ recordedNumber blocks b := by
    rw [← hsort]
    have hsorted := @List.pairwise_mergeSort _ (fun a b => decide (recordedNumber blocks a ≤ recordedNumber blocks b))
      (by simpa using fun a b c => Nat.le_trans) (by simpa using fun a b => Nat.le_total _ _) chosen
    exact hsorted.imp fun hab => by simpa using hab
  rcases List.mem_append.1 hmem with hpre | hpost
  · exact hpre
  · rcases List.mem_cons.1 hpost with heq | hpost
    · rw [heq] at hlower
      exact absurd hlower (lt_irrefl _)
    · have hle := (List.pairwise_cons.1 (List.pairwise_append.1 hpairs).2.1).1 _ hpost
      omega

/-- After a restart every wanted block whose recorded ancestors reach the head is pending again with all of them, and the
count is of the blocks that became pending. -/
theorem restart_restores_connected {n : Node W} (hn : n.Rooted) (table : PendingTable)
    (decode : Cid → Option (Decoded W)) (hr : n.Reexecutes (n.Records table decode)) (wanted : List Hash) :
    (∀ w ∈ wanted, ∀ path, n.Connects (n.Records table decode) w path →
      ∀ a ∈ path, ((n.restorePending table decode wanted).1.pendingBlock a).isSome = true) ∧
    ∃ new, (n.restorePending table decode wanted).1 = n.withPending (new ++ n.pending) ∧
      (n.restorePending table decode wanted).2 = new.length ∧ (new.map fun p => W.hash p.header).Nodup ∧
      ∀ p ∈ new, n.pendingBlock (W.hash p.header) = none := by
  have hf := n.filing_records table decode
  generalize hblocks : decodedBlocks decode (table.pendingBlocks n.head.number) = blocks
  have hrecords : ∀ h d, n.Records table decode h d ↔ blocks h = some d := fun h d => hblocks ▸ n.records_iff
  have hkeys : ∀ a, ((blocks a).map (·.header.parentHash)).isSome = true →
      a ∈ (table.pendingBlocks n.head.number).map (·.2.1) := by
    intro a ha
    obtain ⟨d, hd⟩ := Option.isSome_iff_exists.1 (Option.isSome_map.symm.trans ha)
    obtain ⟨root, hmem, -, -⟩ := decodedBlocks_some (hblocks ▸ hd)
    exact List.mem_map.2 ⟨_, hmem, rfl⟩
  have hchosen := Lib.Lineage.collected hkeys (Nat.lt_succ_self _) wanted
  rw [List.length_map] at hchosen
  obtain ⟨ps, restored, hfold, hdone⟩ := Restored.run hn hf hrecords hr
    fun pre h post hsort d hd l he hne => parents_first hf hrecords hr.again hchosen.closed hsort hd he hne
  have hrun : n.restorePending table decode wanted = (n.withPending ps, restored) := by
    rw [← hfold, restorePending, hblocks]
  obtain ⟨new, rfl, hlen, hnodup, hnew⟩ := hdone.added
  rw [hrun]
  refine ⟨fun w hw path hpath a ha => ?_, new, rfl, hlen.symm, hnodup, hnew⟩
  obtain ⟨l, hl⟩ := hr.again w path hpath
  rw [hl.path_eq hf hpath] at ha
  obtain ⟨q, hq, rfl⟩ := List.mem_map.1 ha
  have hwmem : w ∈ Lib.Lineage.collect (fun h => (blocks h).map (·.header.parentHash))
      ((table.pendingBlocks n.head.number).length + 1) wanted := by
    cases hpath with
    | head => rw [hl.unique hf .head] at hq; cases hq
    | next hd _ => exact hchosen.wanted w hw (by rw [(hrecords _ _).1 hd]; rfl)
  have hheld := hdone.reached w ((List.mergeSort_perm _ _).mem_iff.2 hwmem) l hl
  rw [hheld q hq]
  rfl

end Node

namespace Restart

def world : World :=
  mockWorld [mockGenesis, mockHeader 0 1 1 1 [], mockHeader 1 2 2 2 []] 1000 fun _ => ⟨none, none⟩

def lower : Decoded world := ⟨mockHeader 0 1 1 1 [], ([] : List Nat), ⟨[], []⟩⟩

def upper : Decoded world := ⟨mockHeader 1 2 2 2 [], ([] : List Nat), ⟨[], []⟩⟩

def table : PendingTable := ⟨[(1, (1 : Nat), (7 : Nat)), (2, (2 : Nat), (8 : Nat))], by decide⟩

def decode (root : Cid) : Option (Decoded world) :=
  if root = (7 : Nat) then some lower else if root = (8 : Nat) then some upper else none

def node : Node world := .opened world

theorem records_cases {h : Hash} {d : Decoded world} (hd : node.Records table decode h d) :
    (h = (1 : Nat) ∧ d = lower) ∨ (h = (2 : Nat) ∧ d = upper) := by
  obtain ⟨-, root, hmem, hdec, -⟩ := hd
  rcases List.mem_cons.1 hmem with hrow | hrow
  · obtain ⟨-, rfl, rfl⟩ : d.header.number = 1 ∧ h = (1 : Nat) ∧ root = (7 : Nat) := by simpa using hrow
    exact .inl ⟨rfl, (Option.some_inj.1 hdec).symm⟩
  · obtain ⟨-, rfl, rfl⟩ : d.header.number = 2 ∧ h = (2 : Nat) ∧ root = (8 : Nat) := by simpa using hrow
    exact .inr ⟨rfl, (Option.some_inj.1 hdec).symm⟩

theorem records_lower : node.Records table decode (1 : Nat) lower :=
  ⟨by decide, (7 : Nat), List.mem_cons_self, rfl, by decide +kernel⟩

theorem records_upper : node.Records table decode (2 : Nat) upper :=
  ⟨by decide, (8 : Nat), List.mem_cons_of_mem _ List.mem_cons_self, rfl, by decide +kernel⟩

theorem executes : ∃ p q, node.Executes (node.Records table decode) (1 : Nat) [p] ∧
    node.Executes (node.Records table decode) (2 : Nat) [q, p] := by
  have hok : ∀ {x : Except ChainError (PendingBlock world)} {p : PendingBlock world}, x.toOption = some p → x = .ok p := by
    intro x p hx
    cases x with
    | error => cases hx
    | ok => exact congrArg Except.ok (Option.some_inj.1 hx)
  have hboth : ((node.verifyBlock lower.header lower.transactions lower.certs).toOption.bind fun p =>
      ((node.withPending [p]).verifyBlock upper.header upper.transactions upper.certs).toOption).isSome = true := by
    decide +kernel
  obtain ⟨q, hq⟩ := Option.isSome_iff_exists.1 hboth
  obtain ⟨p, hp, hq⟩ := Option.bind_eq_some_iff.1 hq
  have hlower : node.Executes (node.Records table decode) (1 : Nat) [p] :=
    .next records_lower .head (hok hp)
  exact ⟨p, q, hlower, .next records_upper hlower (hok hq)⟩

theorem reexecutes : node.Reexecutes (node.Records table decode) where
  again h path hpath := by
    obtain ⟨p, q, hlower, hupper⟩ := executes
    cases hpath with
    | head => exact ⟨[], .head⟩
    | next hd _ =>
      obtain ⟨rfl, -⟩ | ⟨rfl, -⟩ := records_cases hd
      · exact ⟨_, hlower⟩
      · exact ⟨_, hupper⟩
  held p hp := (by cases hp)

end Restart

theorem restart_restores_two :
    Restart.node.Reexecutes (Restart.node.Records Restart.table Restart.decode) ∧
    ∀ a ∈ [(2 : Nat), (1 : Nat)], ((Restart.node.restorePending Restart.table Restart.decode
      [(2 : Nat), (1 : Nat), (2 : Nat)]).1.pendingBlock a).isSome = true :=
  ⟨Restart.reexecutes, (Node.restart_restores_connected ⟨List.isChain_singleton _, by rintro b ⟨⟩; rfl⟩ Restart.table
    Restart.decode Restart.reexecutes _).1 _ List.mem_cons_self _
    (.next Restart.records_upper (.next Restart.records_lower .head))⟩

end Boltchain.Chain
