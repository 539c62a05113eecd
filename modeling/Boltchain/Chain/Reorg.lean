import Boltchain.Chain.Rollback

namespace Boltchain.Chain

open Consensus (Bytes Hash)
open Lib.Action Lib.Journal

variable {W : World}

namespace Node

def tdAt (n : Node W) (k : Nat) : Option Nat := (n.blockAt k).map (·.td)

def knows (n : Node W) (h : Hash) : Bool := (n.locate h).isSome

variable {h : Hash}

theorem knows_iff {n : Node W} :
    n.knows h = true ↔ (∃ c ∈ n.canonical, W.hash c.header = h) ∨ ∃ b ∈ n.side, W.hash b.header = h := by
  unfold knows locate
  cases hb : n.block h with
  | some c =>
    obtain ⟨hmem, hhash⟩ := mem_of_block hb
    exact iff_of_true rfl (.inl ⟨c, hmem, hhash⟩)
  | none =>
    have hnone : ¬∃ c ∈ n.canonical, W.hash c.header = h := by
      rintro ⟨c, hc, rfl⟩
      have hsome := block_of_mem hc
      rw [hb] at hsome
      cases hsome
    simp only [Option.isSome_map, hnone, false_or, sideBlock, List.find?_isSome, beq_iff_eq]

theorem locate_hash {n : Node W} {header : Header} {td : Nat} {canonical : Bool}
    (hl : n.locate h = some (header, td, canonical)) : W.hash header = h := by
  unfold locate at hl
  cases hb : n.block h with
  | some c =>
    rw [hb] at hl
    cases hl
    exact (mem_of_block hb).2
  | none =>
    rw [hb] at hl
    obtain ⟨b, hside, heq⟩ := Option.map_eq_some_iff.1 hl
    cases heq
    exact (mem_of_sideBlock hside).2

/-- The canonical chain is verified, and side blocks follow their parents and are off it. -/
structure Tidy (n : Node W) : Prop where
  built : Built n.canonical n.state
  follows : ∀ b ∈ n.side, ∃ parent, b.header.Follows W parent
  off : ∀ b ∈ n.side, ∀ c ∈ n.canonical, W.hash b.header ≠ W.hash c.header

/-- Head, canonical hashes, state and total difficulties are as before, and the valid side blocks
among `known` are still known. -/
structure Unharmed (n n' : Node W) (known : List (SideBlock W)) : Prop where
  head : n'.head = n.head
  hashAt : ∀ k, n'.hashAt k = n.hashAt k
  state : n'.state = n.state
  tdAt : ∀ k, n'.tdAt k = n.tdAt k
  side : ∀ b ∈ known, b.Valid → n'.knows (W.hash b.header) = true

/-- The branch and the height of the fork point of a switch that gets as far as undoing blocks. -/
def switches (n : Node W) (tip : Hash) : Option (List (SideBlock W) × Nat) :=
  match n.branchTo tip with
  | .error _ => none
  | .ok (branch, fork) =>
    match n.checkFork fork, unwind fork n.below { n with pending := [] } [] with
    | .ok _, .ok _ => some (branch, fork)
    | _, _ => none

/-- No valid block of `known` is on the branch of the switch, or, if the switch undoes blocks, 128 or
more blocks below the head. -/
def Spares (n : Node W) (tip : Hash) (known : List (SideBlock W)) : Prop :=
  ∀ branch fork, n.switches tip = some (branch, fork) → ∀ b ∈ known, b.Valid →
    (∀ d ∈ branch, W.hash b.header ≠ W.hash d.header) ∧
      (fork < n.head.number → n.head.number - maxReorgDepth < b.header.number)

variable {n n' : Node W} {known : List (SideBlock W)} {tip : Hash} {e : ChainError}

theorem Unharmed.of_canonical (hc : n'.canonical = n.canonical) (hs : n'.state = n.state)
    (hside : ∀ b ∈ known, b.Valid → n'.knows (W.hash b.header) = true) : n.Unharmed n' known where
  head := congrArg StoredBlock.header (List.cons.inj hc).1
  hashAt k := by rw [Node.hashAt, blockAt, hc]; rfl
  state := hs
  tdAt k := by rw [Node.tdAt, blockAt, hc]; rfl
  side := hside

theorem knows_of_mem_side {b : SideBlock W} (hb : b ∈ n.side) : n.knows (W.hash b.header) = true :=
  knows_iff.2 (.inr ⟨b, hb, rfl⟩)

/-- How a switch fails: before it undoes anything, or while it imports the branch. -/
theorem reorgTo_error (h : reorgTo tip n = .error e n') :
    (n.switches tip = none ∧ ∃ pending, n' = { n with pending }) ∨
      ∃ branch fork n₁ removed, n.switches tip = some (branch, fork) ∧ n.branchTo tip = .ok (branch, fork) ∧
        Unwound fork { n with pending := [] } n₁ removed ∧
        adopt fork (removed.map StoredBlock.toSide).reverse branch n₁ = .error e n' := by
  rw [reorgTo, get_bind] at h
  unfold switches
  cases hbranch : n.branchTo tip with
  | error e₀ =>
    rw [lift_bind_error hbranch] at h
    cases h
    exact .inl ⟨rfl, _, rfl⟩
  | ok bf =>
    obtain ⟨branch, fork⟩ := bf
    rw [lift_bind hbranch] at h
    simp only at h ⊢
    cases hfork : n.checkFork fork with
    | error e₀ =>
      rw [lift_bind_error hfork] at h
      cases h
      exact .inl ⟨rfl, _, rfl⟩
    | ok u =>
      rw [lift_bind hfork] at h
      cases hun : unwind fork n.below { n with pending := [] } [] with
      | error e₀ =>
        have hto : unwindTo fork n = .error e₀ { n with pending := [] } := by
          rw [unwindTo, modify_bind, get_bind]
          exact lift_bind_error hun
        rw [bind_of_error hto] at h
        cases h
        exact .inl ⟨rfl, _, rfl⟩
      | ok r =>
        obtain ⟨n₁, undone⟩ := r
        have hto : unwindTo fork n = .ok undone n₁ := by
          rw [unwindTo, modify_bind, get_bind]
          exact lift_bind hun
        obtain ⟨removed, hu, hundone⟩ := unwind_ok (n := { n with pending := [] }) rfl hun
        rw [List.append_nil] at hundone
        rw [bind_of_ok hto] at h
        refine .inr ⟨branch, fork, n₁, removed, rfl, rfl, hu, ?_⟩
        cases hadopt : adopt fork undone branch n₁ with
        | error e₁ n₂ =>
          rw [bind_of_error hadopt] at h
          cases h
          rw [← hundone]
          exact hadopt
        | ok a n₂ =>
          rw [bind_of_ok hadopt, modify_bind] at h
          cases h

end Node

open Node

/-- A switch that fails leaves everything as it was exactly if it endangers no valid block that was
known. -/
theorem reorgTo_unharmed {n n' : Node W} {tip : Hash} {e : ChainError} {known : List (SideBlock W)}
    (hn : n.Tidy) (hknown : ∀ b ∈ known, b ∈ n.side)
    (hbranch : ∀ branch fork, n.branchTo tip = .ok (branch, fork) → ∀ d ∈ branch.dropLast, d ∈ known)
    (h : reorgTo tip n = .error e n') : n.Unharmed n' known ↔ n.Spares tip known := by
  obtain ⟨hnone, pending, rfl⟩ | ⟨branch, fork, n₁, removed, hswitch, hto, hu, hadopt⟩ := reorgTo_error h
  · refine iff_of_true (.of_canonical rfl rfl fun b hb _ => knows_of_mem_side (hknown b hb)) ?_
    intro branch fork hsome
    rw [hnone] at hsome
    cases hsome
  have hbuilt₁ : Built n₁.canonical n₁.state := hu.built hn.built
  have hpending₁ : n₁.pending = [] := by rw [hu.frame]
  have hside₁ : n₁.side = n.side := by rw [hu.frame]
  have hcanon : n.canonical = removed ++ n₁.canonical := hu.canonical
  obtain ⟨c, hc, hcnum, hpath, hmem⟩ := branchTo_path hto
  -- what is left of the chain ends at the fork point
  have hfork : n₁.head.number = fork := by
    refine le_antisymm hu.le ?_
    have hc₁ : c ∈ n₁.canonical := by
      rw [hcanon] at hc
      rcases List.mem_append.1 hc with hc | hc
      · exact absurd (hu.above c hc) (by omega)
      · exact hc
    rw [← hcnum]
    rcases List.mem_cons.1 hc₁ with rfl | hc₁
    · exact le_rfl
    · exact ((List.pairwise_cons.1 hbuilt₁.descends).1 c hc₁).le
  obtain ⟨pre, bad, post, n₂, extra, e₀, rfl, hstuck, hroll⟩ := adopt_error hbuilt₁ hpending₁ hadopt
  have habove : ∀ b ∈ extra, fork < b.header.number := by
    intro b hb
    have hdesc := hstuck.built.descends
    rw [hstuck.canonical] at hdesc
    rw [← hfork]
    exact (List.pairwise_append.1 hdesc).2.2 b hb n₁.tip List.mem_cons_self
  have hbase : ∀ b ∈ n₁.canonical.head?, b.header.number ≤ fork := by
    rintro b ⟨⟩
    exact hu.le
  have hback := rollBack_spec (bad :: post) hn.built hcanon hbase hstuck.built hstuck.canonical habove
  -- the roll-back either brings the old chain back or leaves the imported part
  have hend : (n'.canonical = n.canonical ∧ n'.state = n.state ∧
      ∀ b, b ∈ n'.side ↔ b ∈ n₂.side ∧ (∀ d ∈ bad :: post, W.hash b.header ≠ W.hash d.header) ∧
        ∀ o ∈ removed, W.hash b.header ≠ W.hash o.header ∧
          o.header.number - maxReorgDepth < b.header.number) ∨
      (extra ≠ [] ∧ n'.canonical = n₂.canonical) := by
    cases hr : rollBack fork (removed.map StoredBlock.toSide).reverse (bad :: post) n₂ with
    | error e₁ n₃ =>
      rw [bind_of_error hr] at hroll
      cases hroll
      exact .inr (hback.of_error hr)
    | ok a n₃ =>
      rw [bind_of_ok hr] at hroll
      cases hroll
      obtain ⟨h₁, h₂, -, -, h₃⟩ := hback.of_ok hr
      exact .inl ⟨h₁, h₂, h₃⟩
  have hoff : ∀ b ∈ n.side, ¬∃ o ∈ n.canonical, W.hash o.header = W.hash b.header := by
    rintro b hb ⟨o, ho, heq⟩
    exact hn.off b hb o ho heq.symm
  cases pre with
  | cons d pre =>
    -- a valid prefix was imported: its first block is lost, or the head stays on it
    have hdlast : d ∈ (d :: pre ++ bad :: post).dropLast := by
      rw [List.cons_append, List.dropLast_cons_of_ne_nil (by simp)]
      exact List.mem_cons_self
    have hdknown : d ∈ known := hbranch _ _ hto d hdlast
    have hdvalid : d.Valid := hstuck.valid d rfl
    have hdside : d ∈ n.side := hknown d hdknown
    refine iff_of_false (fun hun => ?_) (fun hspares => ?_)
    · rcases hend with ⟨hcanon', -, hside'⟩ | ⟨hne, hcanon'⟩
      · rcases knows_iff.1 (hun.side d hdknown hdvalid) with hcan | ⟨b, hb, heq⟩
        · rw [hcanon'] at hcan
          exact hoff d hdside hcan
        · exact (hstuck.side b ((hside' b).1 hb).1).2 d List.mem_cons_self heq
      · have hlast : n'.head ∈ extra.map StoredBlock.header := by
          rw [hstuck.canonical] at hcanon'
          cases extra with
          | nil => exact absurd rfl hne
          | cons x extra =>
            have : n'.tip = x := (List.cons.inj hcanon').1
            simp [Node.head, this]
        rw [hstuck.headers, List.mem_reverse] at hlast
        obtain ⟨x, hx, hxhead⟩ := List.mem_map.1 hlast
        have hxside := hmem x (List.mem_append_left _ hx)
        exact hn.off x hxside n.tip List.mem_cons_self (by rw [hxhead, hun.head]; rfl)
    · exact (hspares _ _ hswitch d hdknown hdvalid).1 d (by simp) rfl
  | nil =>
    have hextra : extra = [] := by simpa using hstuck.headers
    obtain ⟨hcanon', hstate', hside'⟩ := hend.resolve_right fun h => h.1 hextra
    have hside₂ : n₂.side = n.side := (hstuck.same rfl).1.trans hside₁
    -- the last block imported again is the old head, which decides what is too old
    have hpruned : ∀ b ∈ n.side, (∀ o ∈ removed, W.hash b.header ≠ W.hash o.header ∧
        o.header.number - maxReorgDepth < b.header.number) ↔
        (fork < n.head.number → n.head.number - maxReorgDepth < b.header.number) := by
      intro b hb
      cases hrem : removed with
      | nil =>
        have hsame : n₁ = { n with pending := [] } := hu.same hrem
        have : n.head.number = fork := by rw [← hfork, hsame]; rfl
        simp only [List.not_mem_nil, false_implies, implies_true, true_iff]
        omega
      | cons x rest =>
        have hx : x = n.tip := by
          rw [hrem] at hcanon
          exact (List.cons.inj hcanon).1.symm
        have hlt : fork < n.head.number := hu.above n.tip (by rw [hrem, hx]; exact List.mem_cons_self)
        have hle : ∀ o ∈ x :: rest, o.header.number ≤ n.head.number := by
          intro o ho
          have hdesc := hn.built.descends
          have homem : o ∈ n.canonical := by
            rw [hcanon, hrem]
            exact List.mem_append_left _ ho
          rcases List.mem_cons.1 homem with rfl | ho'
          · exact le_rfl
          · exact ((List.pairwise_cons.1 hdesc).1 o ho').le
        constructor
        · intro hall _
          have := (hall x List.mem_cons_self).2
          rwa [hx] at this
        · intro hcond o ho
          refine ⟨hn.off b hb o (by rw [hcanon, hrem]; exact List.mem_append_left _ ho), ?_⟩
          have h₁ := hcond hlt
          have h₂ := hle o ho
          omega
    constructor
    · intro hun branch' fork' hsome b hb hvalid
      rw [hswitch] at hsome
      cases hsome
      have hbside := hknown b hb
      rcases knows_iff.1 (hun.side b hb hvalid) with hcan | ⟨b', hb', heq⟩
      · rw [hcanon'] at hcan
        exact absurd hcan (hoff b hbside)
      · obtain ⟨hmem₂, hbad, hrem⟩ := (hside' b').1 hb'
        rw [hside₂] at hmem₂
        have hheader : b'.header = b.header := W.hash_inj heq
        have hcond := (hpruned b' hmem₂).1 hrem
        rw [hheader] at hcond hbad
        exact ⟨by simpa using hbad, hcond⟩
    · intro hspares
      refine .of_canonical hcanon' hstate' fun b hb hvalid => ?_
      obtain ⟨hbad, hcond⟩ := hspares _ _ hswitch b hb hvalid
      have hbside := hknown b hb
      refine knows_of_mem_side ((hside' b).2 ⟨hside₂ ▸ hbside, ?_, (hpruned b hbside).2 hcond⟩)
      simpa using hbad

section Imports

variable {n n' : Node W} {now : Nat} {header : Header} {txs : List W.Tx} {root : Option Cid} {cert : Certs}

/-- The side block an import keeps, if the header passes the checks that come before. -/
def Node.offered (n : Node W) (now : Nat) (header : Header) (transactions : List W.Tx) (root : Option Cid)
    (cert : Certs) : Option (SideBlock W) :=
  if n.knows (W.hash header) || decide (now + maxFutureSeconds < header.timestamp) then none
  else
    (n.locate header.parentHash).bind fun (parent, parentTd, canonical) =>
      if n.finalized.any (fun f => canonical && decide (parent.number < f.1)) ||
          header.parentHash == W.hash n.head || (n.checkMinedHeader header parent).toBool = false then none
      else some { header, transactions, root, td := (parentTd + header.difficulty) % 2 ^ 256, cert }

/-- A side block with less work than the head, or as much and no lower hash. -/
def Node.Outweighs (n : Node W) (b : SideBlock W) : Prop :=
  b.td < n.tip.td ∨ b.td = n.tip.td ∧ W.hash n.head ≤ W.hash b.header

instance (n : Node W) (b : SideBlock W) : Decidable (n.Outweighs b) :=
  inferInstanceAs (Decidable (_ ∨ _))

variable {b : SideBlock W}

theorem offered_some (h : n.offered now header txs root cert = some b) :
    ∃ parent parentTd canonical, n.locate (W.hash header) = none ∧
      header.timestamp ≤ now + maxFutureSeconds ∧
      n.locate header.parentHash = some (parent, parentTd, canonical) ∧
      (n.finalized.any fun f => canonical && decide (parent.number < f.1)) = false ∧
      header.parentHash ≠ W.hash n.head ∧ n.checkMinedHeader header parent = .ok () ∧
      b = { header, transactions := txs, root, td := (parentTd + header.difficulty) % 2 ^ 256, cert } := by
  unfold Node.offered at h
  split at h
  case isTrue => cases h
  case isFalse hnew =>
    obtain ⟨⟨parent, parentTd, canonical⟩, hparent, h⟩ := Option.bind_eq_some_iff.1 h
    simp only at h
    split at h
    case isTrue => cases h
    case isFalse hchecks =>
      simp only [Node.knows, Bool.or_eq_true, Option.isSome_iff_ne_none, ne_eq, decide_eq_true_eq, not_or,
        not_not, Bool.not_eq_true, beq_iff_eq] at hnew hchecks
      cases hcheck : n.checkMinedHeader header parent with
      | error e => simp [hcheck, Except.toBool] at hchecks
      | ok u =>
        refine ⟨parent, parentTd, canonical, hnew.1, by omega, hparent, hchecks.1.1, hchecks.1.2, hcheck, ?_⟩
        cases h
        rfl

theorem importMined_offered (h : n.offered now header txs root cert = some b) :
    importMinedWithCert now header txs root cert n =
      if n.Outweighs b then .ok .side (n.insertSide b)
      else (reorgTo (W.hash header) >>= fun depth => pure (.reorged depth)) (n.insertSide b) := by
  obtain ⟨parent, parentTd, canonical, hnew, htime, hparent, hfin, hhead, hcheck, rfl⟩ := offered_some h
  rw [importMinedWithCert, get_bind, hnew]
  simp only [Option.isSome_none, Bool.false_eq_true, if_false]
  rw [lift_bind (ensure_ok (decide_eq_true htime)), lift_bind (orThrow_eq_ok.2 hparent),
    lift_bind (ensure_ok (by rw [hfin]; rfl)), if_neg hhead, lift_bind hcheck, modify_bind]
  split
  case isTrue hless => exact (if_pos hless).symm
  case isFalse hmore => exact (if_neg hmore).symm

/-- An import of a block that is not offered changes nothing, or is an import on the head. -/
theorem importMined_refused (h : n.offered now header txs root cert = none) :
    Ends (importMinedWithCert now header txs root cert) n
      (fun _ n' => n' = n ∨
        header.difficulty ≠ 0 ∧ ∃ a, importFinal header txs root cert n = .ok a n')
      (fun e n' => n' = n ∨ importFinal header txs root cert n = .error e n') := by
  unfold importMinedWithCert
  refine Ends.bind ?_
  simp only [Ends, get, getThe, MonadStateOf.get, EStateM.get]
  show Ends _ n _ _
  split
  case isTrue => exact .inl rfl
  case isFalse hnew =>
    refine Ends.bind (Ends.lift (fun _ htime => ?_) fun _ _ => .inl rfl)
    refine Ends.bind (Ends.lift ?_ fun _ _ => .inl rfl)
    rintro ⟨parent, parentTd, canonical⟩ hparent
    refine Ends.bind (Ends.lift (fun _ hfin => ?_) fun _ _ => .inl rfl)
    split
    case isTrue =>
      refine Ends.bind (Ends.lift (fun _ hmined => ?_) fun _ _ => .inl rfl)
      have hends : Ends (importFinal header txs root cert) n
          (fun a n' => importFinal header txs root cert n = .ok a n')
          (fun e n' => importFinal header txs root cert n = .error e n') := by
        unfold Ends
        cases importFinal header txs root cert n with
        | ok a n' => rfl
        | error e n' => rfl
      exact Ends.bind (hends.mono (fun a n' hok => .inr ⟨by simpa using hmined, a, hok⟩) fun _ _ => .inr)
    case isFalse hhead =>
      refine Ends.bind (Ends.lift (fun _ hcheck => ?_) fun _ _ => .inl rfl)
      -- every check passed, so the block was offered
      exfalso
      simp only [ensure_eq_ok, orThrow_eq_ok, decide_eq_true_eq, Bool.not_eq_true', Option.not_isSome_iff_eq_none] at htime hparent hfin hnew
      unfold Node.offered at h
      rw [if_neg (by simp [Node.knows, hnew, htime]), hparent] at h
      simp [hfin, hhead, hcheck, Except.toBool] at h

theorem Node.Tidy.insertSide (hn : n.Tidy) (h : n.offered now header txs root cert = some b) :
    (n.insertSide b).Tidy := by
  obtain ⟨parent, parentTd, canonical, hnew, -, hparent, -, -, hcheck, rfl⟩ := offered_some h
  have hfollows : header.Follows W parent := by
    refine ⟨(locate_hash hparent).symm, ?_⟩
    unfold checkMinedHeader at hcheck
    simp only [bind_eq_ok, ensure_eq_ok, beq_iff_eq] at hcheck
    obtain ⟨-, hnumber, -⟩ := hcheck
    exact hnumber
  refine ⟨hn.built, fun c hc => ?_, fun c hc o ho heq => ?_⟩
  · rcases List.mem_cons.1 hc with rfl | hc
    · exact ⟨parent, hfollows⟩
    · exact hn.follows c (List.mem_of_mem_filter hc)
  · rcases List.mem_cons.1 hc with rfl | hc
    · have hknown : n.knows (W.hash header) = true := knows_iff.2 (.inl ⟨o, ho, heq.symm⟩)
      rw [knows, hnew] at hknown
      cases hknown
    · exact hn.off c (List.mem_of_mem_filter hc) o ho heq

end Imports

section Failures

/-- The switch an import of a mined block attempts endangers no valid side block. -/
def Node.ImportSpares (n : Node W) (now : Nat) (header : Header) (txs : List W.Tx) (root : Option Cid)
    (cert : Certs) : Prop :=
  ∀ b, n.offered now header txs root cert = some b → ¬n.Outweighs b →
    (n.insertSide b).Spares (W.hash header) n.side

/-- The switch a finalization attempts endangers no valid side block. -/
def Node.FinalizeSpares (n : Node W) (hash : Hash) (height : Nat) : Prop :=
  ∀ header td, (∀ f ∈ n.finalized, f.1 < height) → n.locate hash = some (header, td, false) →
    header.number = height → n.Spares hash n.side

variable {n n' : Node W} {e : ChainError}

theorem importMined_unharmed {now : Nat} {header : Header} {txs : List W.Tx} {root : Option Cid} {cert : Certs}
    (hn : n.Tidy) (h : importMinedWithCert now header txs root cert n = .error e n') :
    n.Unharmed n' n.side ↔ n.ImportSpares now header txs root cert := by
  cases hoff : n.offered now header txs root cert with
  | none =>
    refine iff_of_true ?_ (fun b hb => by rw [hoff] at hb; cases hb)
    have hsame : n'.canonical = n.canonical ∧ n'.state = n.state ∧ n'.side = n.side := by
      rcases (importMined_refused hoff).of_error h with rfl | hfinal
      · exact ⟨rfl, rfl, rfl⟩
      · rcases (importFinal_spec n header txs root cert).of_error hfinal with rfl | ⟨p, -, rfl | rfl⟩
        · exact ⟨rfl, rfl, rfl⟩
        · exact ⟨rfl, rfl, rfl⟩
        · exact ⟨rfl, rfl, rfl⟩
    exact .of_canonical hsame.1 hsame.2.1 fun b hb _ => knows_of_mem_side (hsame.2.2 ▸ hb)
  | some b =>
    rw [importMined_offered hoff] at h
    split at h
    case isTrue => cases h
    case isFalse hmore =>
      have hreorg : reorgTo (W.hash header) (n.insertSide b) = .error e n' := by
        cases hr : reorgTo (W.hash header) (n.insertSide b) with
        | error e₁ n₁ => rw [bind_of_error hr] at h; cases h; rfl
        | ok d n₁ => rw [bind_of_ok hr] at h; cases h
      have hb : b.header = header := by
        obtain ⟨_, _, _, -, -, -, -, -, -, rfl⟩ := offered_some hoff
        rfl
      have htidy := hn.insertSide hoff
      have hnew : n.knows (W.hash header) = false := by
        obtain ⟨_, _, _, hnew, -⟩ := offered_some hoff
        rw [knows, hnew]
        rfl
      have hside : ∀ c ∈ n.side, c ∈ (n.insertSide b).side := by
        intro c hc
        refine List.mem_cons_of_mem _ (List.mem_filter.2 ⟨hc, ?_⟩)
        rw [bne_iff_ne]
        intro heq
        have := knows_of_mem_side hc
        rw [heq, hb, hnew] at this
        cases this
      -- the new block is the last of the branch, so the others were known
      have hbranch : ∀ branch fork, (n.insertSide b).branchTo (W.hash header) = .ok (branch, fork) →
          ∀ d ∈ branch.dropLast, d ∈ n.side := by
        intro branch fork hto d hd
        obtain ⟨c, -, -, hpath, hmem⟩ := branchTo_path hto
        have hfollows : ∀ x ∈ branch, ∃ parent, x.header.Follows W parent := fun x hx =>
          htidy.follows x (hmem x hx)
        have hlast : d.header ≠ header := fun heq =>
          hpath.hash_ne_of_mem_dropLast hfollows hd (congrArg W.hash heq)
        rcases List.mem_cons.1 (hmem d (List.dropLast_subset _ hd)) with rfl | hd'
        · exact absurd hb hlast
        · exact List.mem_of_mem_filter hd'
      have hiff := reorgTo_unharmed htidy hside hbranch hreorg
      constructor
      · intro hun b' hb' _
        rw [hoff] at hb'
        cases hb'
        exact hiff.1 ⟨hun.head, hun.hashAt, hun.state, hun.tdAt, hun.side⟩
      · intro hspares
        have hun := hiff.2 (hspares b hoff hmore)
        exact ⟨hun.head, hun.hashAt, hun.state, hun.tdAt, hun.side⟩

theorem finalize_unharmed {hash : Hash} {height : Nat} (hn : n.Tidy) (h : finalize hash height n = .error e n') :
    n.Unharmed n' n.side ↔ n.FinalizeSpares hash height := by
  have hunchanged : n.Unharmed n n.side := .of_canonical rfl rfl fun b hb _ => knows_of_mem_side hb
  rw [finalize, get_bind] at h
  split at h
  case isTrue => cases h
  case isFalse hlater =>
    cases hloc : n.locate hash with
    | none =>
      rw [hloc, lift_bind_error (x := orThrow none _) rfl] at h
      cases h
      exact iff_of_true hunchanged fun header td _ hsome => by rw [hloc] at hsome; cases hsome
    | some r =>
      obtain ⟨header, td, canonical⟩ := r
      rw [lift_bind (orThrow_eq_ok.2 hloc)] at h
      simp only at h
      by_cases hheight : header.number = height
      case neg =>
        rw [lift_bind_error (e := .invalidBlock (.checkpointHeight header.number height))
          (by simp [ensure, hheight])] at h
        cases h
        refine iff_of_true hunchanged fun header' td' _ hsome hnum => ?_
        rw [hloc] at hsome
        cases hsome
        exact absurd hnum hheight
      case pos =>
        rw [lift_bind (ensure_ok (by simpa using hheight))] at h
        cases canonical with
        | true => cases h
        | false =>
          have hreorg : reorgTo hash n = .error e n' := by
            cases hr : reorgTo hash n with
            | error e₁ n₁ =>
              have hswitch : switchTo hash false n = .error e₁ n₁ := bind_of_error hr
              rw [bind_of_error hswitch] at h
              cases h
              rfl
            | ok d n₁ =>
              have hswitch : switchTo hash false n = .ok () n₁ := bind_of_ok hr
              rw [bind_of_ok hswitch] at h
              cases h
          have hiff := reorgTo_unharmed hn (fun _ hb => hb) (fun branch fork hto d hd => by
            obtain ⟨c, -, -, -, hmem⟩ := branchTo_path hto
            exact hmem d (List.dropLast_subset _ hd)) hreorg
          rw [hiff]
          refine ⟨fun hspares _ _ _ _ _ => hspares, fun hspares => hspares header td ?_ hloc hheight⟩
          intro f hf
          simp only [Option.any_eq_true, decide_eq_true_eq, not_exists, not_and, not_le] at hlater
          exact hlater f hf

/-- A failed call leaves head, canonical hashes, state, total difficulties and valid side blocks as
they were exactly if the switch it attempts has no valid side block on its branch, and drops none as
too old when the old branch comes back. -/
theorem failed_call_changes_nothing (hn : n.Tidy) :
    (∀ now header txs root cert e n', importMinedWithCert now header txs root cert n = .error e n' →
      (n.Unharmed n' n.side ↔ n.ImportSpares now header txs root cert)) ∧
    ∀ hash height e n', finalize hash height n = .error e n' →
      (n.Unharmed n' n.side ↔ n.FinalizeSpares hash height) :=
  ⟨fun _ _ _ _ _ _ _ h => importMined_unharmed hn h, fun _ _ _ _ h => finalize_unharmed hn h⟩

end Failures

namespace Forgotten

/-- Two branches from genesis: `a₁`, and `b₁` with its child `b₂`, whose state root is wrong. -/
def a₁ : Header := mockHeader 0 1 1 1 []

def b₁ : Header := mockHeader 0 1 2 1 []

def b₂ : Header := mockHeader 2 2 3 99 []

def world : World := mockWorld [mockGenesis, a₁, b₁, b₂] 1000 fun _ => ⟨none, none⟩

def node : Node world :=
  (Node.opened world).afterAll
    [.importMined 100 a₁ ([] : List Nat) none, .importMined 100 b₁ ([] : List Nat) none]

def side : SideBlock world := ⟨b₁, ([] : List Nat), none, 1, ⟨[], []⟩⟩

end Forgotten

theorem Forgotten.side_valid : Forgotten.side.Valid := by
  have hsome : ((Node.bare (.genesis Forgotten.world) [] Forgotten.world.genesisState).verifyBlock
      Forgotten.side.header Forgotten.side.transactions Forgotten.side.cert).toOption.isSome := by
    decide +kernel
  obtain ⟨p, hp⟩ := Option.isSome_iff_exists.1 hsome
  cases hv : (Node.bare (.genesis Forgotten.world) [] Forgotten.world.genesisState).verifyBlock
      Forgotten.side.header Forgotten.side.transactions Forgotten.side.cert with
  | error e => rw [hv] at hp; cases hp
  | ok q => exact ⟨_, _, _, q, .genesis, hv, fun r hr => by cases hr⟩

theorem valid_block_forgotten :
    ∃ b ∈ Forgotten.node.side, b.Valid ∧
      ∃ e n', importMinedWithCert 100 Forgotten.b₂ ([] : List Nat) none ⟨[], []⟩ Forgotten.node = .error e n' ∧
        n'.knows (Forgotten.world.hash b.header) = false := by
  have hside : (Forgotten.node.side.map fun b => (b.header, (b.transactions : List Nat), b.root, b.td, b.cert)) =
      [(Forgotten.b₁, ([] : List Nat), none, 1, ⟨[], []⟩)] := by
    decide +kernel
  have hforgets : ∃ e n', importMinedWithCert 100 Forgotten.b₂ ([] : List Nat) none ⟨[], []⟩ Forgotten.node =
      .error e n' ∧ n'.knows (Forgotten.world.hash Forgotten.b₁) = false := by
    have hrun : (match importMinedWithCert 100 Forgotten.b₂ ([] : List Nat) none ⟨[], []⟩ Forgotten.node with
        | .ok _ _ => true
        | .error _ n' => n'.knows (Forgotten.world.hash Forgotten.b₁)) = false := by
      decide +kernel
    cases h : importMinedWithCert 100 Forgotten.b₂ ([] : List Nat) none ⟨[], []⟩ Forgotten.node with
    | ok a n' => rw [h] at hrun; cases hrun
    | error e n' => rw [h] at hrun; exact ⟨e, n', rfl, hrun⟩
  obtain ⟨⟨header, txs, root, td, cert⟩, rest, hcons, hb, -⟩ := List.map_eq_cons_iff.1 hside
  simp only [Prod.mk.injEq] at hb
  obtain ⟨rfl, rfl, rfl, rfl, rfl⟩ := hb
  exact ⟨_, by rw [hcons]; exact List.mem_cons_self, Forgotten.side_valid, hforgets⟩

theorem failed_import_on_genesis :
    ∃ e n', importMinedWithCert 100 Forgotten.b₂ ([] : List Nat) none ⟨[], []⟩ (Node.opened Forgotten.world) =
      .error e n' ∧ (Node.opened Forgotten.world).Unharmed n' [] := by
  have htidy : (Node.opened Forgotten.world).Tidy :=
    ⟨.genesis, fun b hb => (by cases hb), fun b hb => (by cases hb)⟩
  have hoffered : ((Node.opened Forgotten.world).offered 100 Forgotten.b₂ ([] : List Nat) none ⟨[], []⟩).isSome =
      false := by
    decide +kernel
  cases h : importMinedWithCert 100 Forgotten.b₂ ([] : List Nat) none ⟨[], []⟩ (Node.opened Forgotten.world) with
  | ok a n' =>
    have hrun : (match importMinedWithCert 100 Forgotten.b₂ ([] : List Nat) none ⟨[], []⟩
        (Node.opened Forgotten.world) with | .ok _ _ => true | .error _ _ => false) = false := by
      decide +kernel
    rw [h] at hrun
    cases hrun
  | error e n' =>
    refine ⟨e, n', rfl, ((failed_call_changes_nothing htidy).1 _ _ _ _ _ _ _ h).2 fun b hb => ?_⟩
    rw [hb] at hoffered
    cases hoffered

end Boltchain.Chain
