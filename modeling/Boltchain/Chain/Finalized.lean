import Boltchain.Chain.Import
import Boltchain.Chain.MockWorld

namespace Boltchain.Chain

open Consensus (Bytes Hash)
open Lib.Action

variable {W : World}

namespace Node

def hashAt (n : Node W) (k : Nat) : Option Hash := (n.blockAt k).map fun b => W.hash b.header

/-- Canonical blocks count up one by one, pending blocks follow their parents, and the checkpoint is
canonical. -/
structure Anchored (n : Node W) : Prop where
  linked : n.canonical.IsChain fun b c => b.header.number = c.header.number + 1
  pends : n.Pends
  final : ∀ f ∈ n.finalized, n.hashAt f.1 = some f.2

/-- `n'` keeps the checkpoint of `n` and the canonical chain up to it. -/
structure Holds (n n' : Node W) : Prop where
  anchored : n'.Anchored
  finalized : n'.finalized = n.finalized
  hashAt : ∀ f ∈ n.finalized, ∀ k ≤ f.1, n'.hashAt k = n.hashAt k

variable {n n' n'' : Node W}

theorem Holds.refl (h : n.Anchored) : n.Holds n := ⟨h, rfl, fun _ _ _ _ => rfl⟩

theorem Holds.trans (h : n.Holds n') (h' : n'.Holds n'') : n.Holds n'' where
  anchored := h'.anchored
  finalized := h'.finalized.trans h.finalized
  hashAt f hf k hk := (h'.hashAt f (h.finalized ▸ hf) k hk).trans (h.hashAt f hf k hk)

theorem Holds.of_frame (h : n.Anchored) (hc : n'.canonical = n.canonical)
    (hf : n'.finalized = n.finalized) (hp : n'.Pends) : n.Holds n' := by
  have hat : ∀ k, n'.hashAt k = n.hashAt k := fun k => by rw [Node.hashAt, blockAt, hc]; rfl
  refine ⟨⟨hc ▸ h.linked, hp, fun f hf' => ?_⟩, hf, fun f _ k _ => hat k⟩
  rw [hat]
  exact h.final f (hf ▸ hf')

theorem Anchored.descends (h : n.Anchored) :
    n.canonical.Pairwise fun b c => c.header.number < b.header.number := by
  have : IsTrans (StoredBlock W) fun b c => c.header.number < b.header.number := ⟨fun _ _ _ h₁ h₂ => h₂.trans h₁⟩
  refine List.isChain_iff_pairwise.1 (h.linked.imp fun b c hbc => ?_)
  omega

variable {b : StoredBlock W}

theorem Anchored.number_le (h : n.Anchored) (hb : b ∈ n.canonical) :
    b.header.number ≤ n.head.number := by
  rcases List.mem_cons.1 hb with rfl | hb
  · exact le_rfl
  · exact ((List.pairwise_cons.1 h.descends).1 b hb).le

theorem Anchored.hashAt_of_mem (h : n.Anchored) (hb : b ∈ n.canonical) :
    n.hashAt b.header.number = some (W.hash b.header) := by
  obtain ⟨above, below, heq⟩ := List.append_of_mem hb
  have hne : above.find? (fun c => c.header.number == b.header.number) = none := by
    rw [List.find?_eq_none]
    intro c hc
    have hlt := (List.pairwise_append.1 (heq ▸ h.descends)).2.2 c hc b List.mem_cons_self
    simpa using hlt.ne'
  rw [Node.hashAt, blockAt, heq, List.find?_append, hne]
  simp

theorem Anchored.finalized_le (h : n.Anchored) {f : Nat × Hash} (hf : f ∈ n.finalized) :
    f.1 ≤ n.head.number := by
  obtain ⟨b, hb, -⟩ := Option.map_eq_some_iff.1 (h.final f hf)
  obtain ⟨hmem, hnum⟩ := mem_of_blockAt hb
  exact hnum ▸ h.number_le hmem

variable {p : PendingBlock W}

theorem Anchored.push (h : n.Anchored) (hp : p.header.Follows W n.head) :
    n.Holds (n.push p) := by
  have hat : ∀ k ≤ n.head.number, (n.push p).hashAt k = n.hashAt k := by
    intro k hk
    have hne : (p.header.number == k) = false := by
      rw [beq_eq_false_iff_ne, hp.2]
      omega
    rw [Node.hashAt, blockAt, canonical, List.find?_cons]
    simp only [Node.push, PendingBlock.stored, hne]
    rfl
  refine ⟨⟨?_, ?_, fun f hf => ?_⟩, rfl, fun f hf k hk => hat k (hk.trans (h.finalized_le hf))⟩
  · exact List.isChain_cons_cons.2 ⟨hp.2, h.linked⟩
  · exact fun q hq => h.pends q (List.mem_of_mem_filter hq)
  · rw [hat _ (h.finalized_le hf)]
    exact h.final f hf

theorem Anchored.unwound {number : Nat} {removed : List (StoredBlock W)} (h : n.Anchored)
    (hu : Unwound number n n' removed) (hfin : ∀ f ∈ n.finalized, f.1 ≤ number) : n.Holds n' := by
  have hat : ∀ k ≤ number, n'.hashAt k = n.hashAt k := by
    intro k hk
    have hnone : removed.find? (fun b => b.header.number == k) = none := by
      rw [List.find?_eq_none]
      intro b hb
      have := hu.above b hb
      simp only [beq_iff_eq]
      omega
    rw [Node.hashAt, Node.hashAt, blockAt, blockAt, hu.canonical, List.find?_append, hnone]
    rfl
  have hsame : n'.finalized = n.finalized := by rw [hu.frame]
  refine ⟨⟨?_, ?_, fun f hf => ?_⟩, hsame, fun f hf k hk => hat k (hk.trans (hfin f hf))⟩
  · exact h.linked.suffix ⟨removed, hu.canonical.symm⟩
  · intro p hp
    rw [hu.frame] at hp
    exact h.pends p hp
  · rw [hsame] at hf
    rw [hat _ (hfin f hf)]
    exact h.final f hf

theorem Pends.addPending (h : n.Pends) (hp : ∃ parent, p.header.Follows W parent) :
    (n.addPending p).Pends := by
  intro q hq
  rcases List.mem_cons.1 hq with rfl | hq
  · exact hp
  · exact h q (List.mem_of_mem_filter hq)

theorem Pends.dropPending (h : n.Pends) (x : Hash) : (n.dropPending x).Pends :=
  fun q hq => h q (List.mem_of_mem_filter hq)

end Node

open Node

/-- A call that holds the checkpoint, whether it succeeds or fails. -/
def Holding {α : Type} (m : Act W α) (n : Node W) : Prop :=
  Ends m n (fun _ n' => n.Holds n') (fun _ n' => n.Holds n')

variable {n : Node W} {α β : Type}

variable {f : α → Act W β}

theorem Holding.bind {m : Act W α} (hm : Holding m n)
    (hf : ∀ a n', n.Holds n' → Holding (f a) n') : Holding (m >>= f) n :=
  Ends.bind (hm.mono (fun a n' h => (hf a n' h).mono (fun _ _ h' => h.trans h') fun _ _ h' => h.trans h')
    fun _ _ h => h)

theorem Holding.pure (h : n.Anchored) (a : α) : Holding (Pure.pure a : Act W α) n := .refl h

theorem Holding.get_bind {f : Node W → Act W β} (h : Holding (f n) n) : Holding (get >>= f) n := h

theorem Holding.lift_bind {x : Except ChainError α} (h : n.Anchored)
    (hf : ∀ a, x = .ok a → Holding (f a) n) : Holding (Lib.Action.lift x >>= f) n :=
  Ends.bind (Ends.lift hf fun _ _ => .refl h)

theorem Holding.fail (h : n.Anchored) (e : ChainError) : Holding (throw e : Act W α) n := .refl h

theorem Holding.importFinal (h : n.Anchored) (header : Header) (txs : List W.Tx) (root : Option Cid)
    (certs : Certs) : Holding (Chain.importFinal header txs root certs) n := by
  refine (importFinal_spec n header txs root certs).mono ?_ ?_
  · rintro _ _ ⟨p, hp, hparent, -, -, rfl⟩
    obtain ⟨q, hq⟩ := verifyBlock_follows h.pends hp
    have hhead : q = n.head := W.hash_inj (by rw [← hq.1, verifyBlock_header hp, hparent])
    exact h.push (hhead ▸ hq)
  · rintro _ _ (rfl | ⟨p, hp, rfl | rfl⟩)
    · exact .refl h
    · exact .of_frame h rfl rfl ((h.pends.addPending (verifyBlock_follows h.pends hp)).dropPending _)
    · exact .of_frame h rfl rfl (h.pends.addPending (verifyBlock_follows h.pends hp))

theorem Holding.unwindTo (h : n.Anchored) {number : Nat} (hfin : ∀ f ∈ n.finalized, f.1 ≤ number) :
    Holding (Chain.unwindTo number) n := by
  have hclear : n.Holds { n with pending := [] } := .of_frame h rfl rfl fun p hp => by cases hp
  refine (unwindTo_spec n number).mono ?_ ?_
  · rintro _ n' ⟨removed, hu, -⟩
    exact hclear.trans (hclear.anchored.unwound hu hfin)
  · rintro _ _ rfl
    exact hclear

theorem Holding.modify (h : n.Anchored) {f : Node W → Node W} (hc : (f n).canonical = n.canonical)
    (hf : (f n).finalized = n.finalized) (hp : (f n).pending = n.pending) :
    Holding (modify f : Act W PUnit) n :=
  Holds.of_frame h hc hf fun p hp' => h.pends p (hp ▸ hp')

theorem Holding.reimport (h : n.Anchored) (undone : List (SideBlock W)) :
    Holding (Chain.reimport undone) n := by
  induction undone generalizing n with
  | nil => exact .pure h _
  | cons o undone ih =>
    refine .bind (.modify h rfl rfl rfl) fun _ n₁ h₁ => ?_
    exact .bind (.importFinal h₁.anchored ..) fun _ n₂ h₂ => ih h₂.anchored

theorem foldl_removeSide (n : Node W) (blocks : List (SideBlock W)) :
    blocks.foldl (fun n d => n.removeSide (W.hash d.header)) n =
      { n with side := (blocks.foldl (fun n d => n.removeSide (W.hash d.header)) n).side } := by
  induction blocks generalizing n with
  | nil => rfl
  | cons b blocks ih => exact ih (n.removeSide (W.hash b.header))

theorem foldl_insertSide (n : Node W) (blocks : List (SideBlock W)) :
    blocks.foldl insertSide n = { n with side := (blocks.foldl insertSide n).side } := by
  induction blocks generalizing n with
  | nil => rfl
  | cons b blocks ih => exact ih (n.insertSide b)

variable {fork : Nat}

theorem Holding.rollBack (h : n.Anchored) (hfin : ∀ f ∈ n.finalized, f.1 ≤ fork)
    (undone invalid : List (SideBlock W)) : Holding (Chain.rollBack fork undone invalid) n := by
  have hframe := foldl_removeSide n invalid
  refine .bind (.modify h ?_ ?_ ?_) fun _ n₁ h₁ => ?_
  · rw [hframe]; rfl
  · rw [hframe]
  · rw [hframe]
  refine .bind (.unwindTo h₁.anchored fun f hf => hfin f (h₁.finalized ▸ hf)) fun _ n₂ h₂ => ?_
  exact .reimport h₂.anchored undone

theorem Holding.adopt (h : n.Anchored) (hfin : ∀ f ∈ n.finalized, f.1 ≤ fork)
    (undone branch : List (SideBlock W)) : Holding (Chain.adopt fork undone branch) n := by
  induction branch generalizing n with
  | nil => exact .pure h _
  | cons b branch ih =>
    have himport := Holding.importFinal h b.header b.transactions b.root b.cert
    unfold Holding Ends Chain.adopt
    cases hm : Chain.importFinal b.header b.transactions b.root b.cert n with
    | ok a n₁ =>
      have h₁ := Ends.of_ok himport hm
      have h₂ : n₁.Holds (n₁.removeSide (W.hash b.header)) :=
        .of_frame h₁.anchored rfl rfl fun p hp => h₁.anchored.pends p hp
      have h₃ := h₁.trans h₂
      exact (ih h₃.anchored fun f hf => hfin f (h₃.finalized ▸ hf)).mono (fun _ _ h' => h₃.trans h')
        fun _ _ h' => h₃.trans h'
    | error e n₁ =>
      have h₁ := Ends.of_error himport hm
      have hroll : Holding (α := Unit) (Chain.rollBack fork undone (b :: branch) >>= fun _ => throw e) n₁ :=
        .bind (.rollBack h₁.anchored (fun f hf => hfin f (h₁.finalized ▸ hf)) undone (b :: branch))
          fun _ n₂ h₂ => .fail h₂.anchored e
      exact hroll.mono (fun _ _ h' => h₁.trans h') fun _ _ h' => h₁.trans h'

variable {u : Unit}

theorem checkFork_ok (h : n.checkFork fork = .ok u) :
    (∀ f ∈ n.finalized, f.1 ≤ fork) ∧ n.head.number - fork ≤ maxReorgDepth ∧
      ∀ k, fork < k → k ≤ n.head.number → ∀ b, n.blockAt k = some b → b.header.difficulty ≠ 0 := by
  simp only [Node.checkFork, bind_eq_ok, ensure_eq_ok] at h
  obtain ⟨-, hfin, -, hdepth, hpos⟩ := h
  refine ⟨fun f hf => ?_, by simpa using hdepth, fun k hlt hle b hb => ?_⟩
  · rw [Option.mem_def.1 hf] at hfin
    simpa using hfin
  · split at hpos
    case h_1 => cases hpos
    case h_2 hnone =>
      have := List.find?_eq_none.1 hnone k (List.mem_range'_1.2 ⟨hlt, by omega⟩)
      simpa [hb] using this

theorem Holding.reorgTo (h : n.Anchored) (tip : Hash) : Holding (Chain.reorgTo tip) n := by
  refine .get_bind (.lift_bind h fun ⟨branch, fork⟩ _ => .lift_bind h fun _ hfork => ?_)
  have hfin := (checkFork_ok hfork).1
  refine .bind (.unwindTo h hfin) fun undone n₁ h₁ => ?_
  refine .bind (.adopt h₁.anchored (fun f hf => hfin f (h₁.finalized ▸ hf)) undone branch) fun _ n₂ h₂ => ?_
  have hframe := foldl_insertSide n₂ undone
  refine .bind (.modify h₂.anchored ?_ ?_ ?_) fun _ n₃ h₃ => .pure h₃.anchored _
  · rw [hframe]; rfl
  · rw [hframe]
  · rw [hframe]

theorem Holding.importMinedWithCert (h : n.Anchored) (now : Nat) (header : Header) (txs : List W.Tx)
    (root : Option Cid) (cert : Certs) : Holding (Chain.importMinedWithCert now header txs root cert) n := by
  refine .get_bind ?_
  simp only
  split
  · exact .pure h _
  refine .lift_bind h fun _ _ => .lift_bind h fun ⟨parent, parentTd, canonical⟩ _ => .lift_bind h fun _ _ => ?_
  split
  · refine .lift_bind h fun _ _ => ?_
    exact .bind (.importFinal h ..) fun _ _ h₁ => .pure h₁.anchored _
  · refine .lift_bind h fun _ _ => .bind (.modify h rfl rfl rfl) fun _ n₁ h₁ => ?_
    split
    · exact .pure h₁.anchored _
    · exact .bind (.reorgTo h₁.anchored _) fun _ _ h₂ => .pure h₂.anchored _

variable {branch : List (SideBlock W)}

theorem adopt_head {undone : List (SideBlock W)} {n n' : Node W}
    (h : adopt fork undone branch n = .ok u n') : ∀ b ∈ branch.getLast?, n'.head = b.header := by
  induction branch generalizing n with
  | nil => simp
  | cons b branch ih =>
    unfold adopt at h
    cases hm : Chain.importFinal b.header b.transactions b.root b.cert n with
    | error e n₁ =>
      rw [hm] at h
      obtain ⟨_, _, -, hthrow⟩ := bind_ok h
      cases hthrow
    | ok a n₁ =>
      rw [hm] at h
      obtain ⟨p, hp, -, -, -, rfl⟩ := Ends.of_ok (importFinal_spec n ..) hm
      cases branch with
      | nil =>
        cases h
        rintro c ⟨⟩
        exact verifyBlock_header hp
      | cons c branch =>
        rw [List.getLast?_cons_cons]
        exact ih h

theorem branchFrom_suffix {fuel : Nat} {cur : Hash} {branch' : List (SideBlock W)}
    (h : n.branchFrom fuel cur branch = .ok (branch', fork)) : branch <:+ branch' := by
  induction fuel generalizing cur branch with
  | zero =>
    unfold Node.branchFrom at h
    split at h
    · obtain ⟨b, -, hb⟩ := Option.map_eq_some_iff.1 (orThrow_eq_ok.1 h)
      cases hb
      exact List.suffix_rfl
    · cases h
  | succ fuel ih =>
    unfold Node.branchFrom at h
    split at h
    · obtain ⟨b, -, hb⟩ := Option.map_eq_some_iff.1 (orThrow_eq_ok.1 h)
      cases hb
      exact List.suffix_rfl
    · exact (List.suffix_cons _ _).trans (ih h)

variable {b : SideBlock W} {tip : Hash}

theorem branchTo_getLast
    (h : n.branchTo tip = .ok (branch, fork)) (hb : n.sideBlock tip = some b) :
    branch.getLast? = some b := by
  unfold Node.branchTo at h
  rw [hb] at h
  unfold Node.branchFrom at h
  rw [hb] at h
  simp only at h
  split at h
  · cases h
  · obtain ⟨front, rfl⟩ := branchFrom_suffix h
    simp

theorem reorgTo_head {n n' : Node W} {depth : Nat}
    (h : reorgTo tip n = .ok depth n') (hb : n.sideBlock tip = some b) : n'.head = b.header := by
  rw [reorgTo, get_bind] at h
  obtain ⟨⟨branch, fork⟩, n₀, hlift, h⟩ := bind_ok h
  obtain ⟨hbranch, rfl⟩ := lift_eq_ok hlift
  obtain ⟨_, _, hfork, h⟩ := bind_ok h
  obtain ⟨-, rfl⟩ := lift_eq_ok hfork
  obtain ⟨undone, n₁, -, h⟩ := bind_ok h
  obtain ⟨_, n₂, hadopt, h⟩ := bind_ok h
  rw [modify_bind] at h
  cases h
  rw [foldl_insertSide]
  exact adopt_head hadopt b (branchTo_getLast hbranch hb)

namespace Node

/-- The checkpoint moves up only, and the canonical chain up to it stays. -/
structure Later (n n' : Node W) : Prop where
  anchored : n'.Anchored
  finalized : ∀ f ∈ n.finalized, ∃ g ∈ n'.finalized, f.1 ≤ g.1
  hashAt : ∀ f ∈ n.finalized, ∀ k ≤ f.1, n'.hashAt k = n.hashAt k

variable {n n' n'' : Node W}

theorem Later.refl (h : n.Anchored) : n.Later n := ⟨h, fun f hf => ⟨f, hf, le_rfl⟩, fun _ _ _ _ => rfl⟩

theorem Later.trans (h : n.Later n') (h' : n'.Later n'') : n.Later n'' where
  anchored := h'.anchored
  finalized f hf := by
    obtain ⟨g, hg, hfg⟩ := h.finalized f hf
    obtain ⟨k, hk, hgk⟩ := h'.finalized g hg
    exact ⟨k, hk, hfg.trans hgk⟩
  hashAt f hf k hk := by
    obtain ⟨g, hg, hfg⟩ := h.finalized f hf
    exact (h'.hashAt g hg k (hk.trans hfg)).trans (h.hashAt f hf k hk)

theorem Holds.later (h : n.Holds n') : n.Later n' :=
  ⟨h.anchored, fun f hf => ⟨f, h.finalized ▸ hf, le_rfl⟩, h.hashAt⟩

theorem Later.finalize (h : n.Later n') {height : Nat} {hash : Hash} (hat : n'.hashAt height = some hash)
    (hlt : ∀ f ∈ n.finalized, f.1 < height) :
    n.Later { n' with
      finalized := some (height, hash)
      side := n'.side.filter fun b => decide (height < b.header.number) } := by
  refine ⟨⟨h.anchored.linked, h.anchored.pends, fun f hf => ?_⟩,
    fun f hf => ⟨_, rfl, (hlt f hf).le⟩, fun f hf k hk => h.hashAt f hf k hk⟩
  cases hf
  exact hat

theorem hashAt_head (n : Node W) : n.hashAt n.head.number = some (W.hash n.head) := by
  simp [Node.hashAt, blockAt, canonical, Node.head]

end Node

/-- A checkpoint call moves the checkpoint up to a canonical block, or changes nothing of it. -/
theorem finalize_later (h : n.Anchored) (hash : Hash) (height : Nat) :
    Ends (finalize hash height) n (fun _ n' => n.Later n') (fun _ n' => n.Later n') := by
  unfold finalize
  refine Ends.bind ?_
  show Ends (ite _ _ _) _ _ _
  split
  case isTrue => exact (Later.refl h : n.Later n)
  case isFalse hfin =>
    have hlt : ∀ f ∈ n.finalized, f.1 < height := by
      intro f hf
      rw [Option.mem_def.1 hf] at hfin
      simpa using hfin
    refine Ends.bind (Ends.lift ?_ fun _ _ => Later.refl h)
    rintro ⟨header, td, canonical⟩ hloc
    have hloc := orThrow_eq_ok.1 hloc
    refine Ends.bind (Ends.lift ?_ fun _ _ => Later.refl h)
    intro _ hnum
    have hnum : header.number = height := by simpa using hnum
    -- either way the block is canonical at its height before it becomes the checkpoint
    have hswitch : Ends (switchTo hash canonical) n
        (fun _ n' => n.Later n' ∧ n'.hashAt height = some hash) (fun _ n' => n.Later n') := by
      unfold Node.locate at hloc
      split at hloc
      case h_1 b hb =>
        cases hloc
        obtain ⟨hmem, rfl⟩ := mem_of_block hb
        exact ⟨Later.refl h, hnum ▸ h.hashAt_of_mem hmem⟩
      case h_2 =>
        obtain ⟨b, hb, heq⟩ := Option.map_eq_some_iff.1 hloc
        cases heq
        have hreorg := Holding.reorgTo h hash
        unfold switchTo
        rw [if_neg Bool.false_ne_true]
        refine Ends.bind ?_
        unfold Holding Ends at hreorg
        unfold Ends
        cases hm : Chain.reorgTo hash n with
        | error e n' => rw [hm] at hreorg; exact hreorg.later
        | ok d n' =>
          rw [hm] at hreorg
          have hhead := reorgTo_head hm hb
          refine ⟨hreorg.later, ?_⟩
          rw [← hnum, ← hhead, ← (mem_of_sideBlock hb).2, ← hhead]
          exact n'.hashAt_head
    refine Ends.bind (hswitch.mono ?_ fun _ _ h => h)
    rintro _ n' ⟨hlater, hat⟩
    exact hlater.finalize hat hlt

theorem Holding.commitPending (h : n.Anchored) (hash : Hash) :
    Holding (Chain.commitPending (W := W) hash) n := by
  refine (commitPending_spec n hash).mono ?_ ?_
  · rintro _ _ ⟨p, hp, hparent, -, rfl⟩
    obtain ⟨q, hq⟩ := h.pends p (mem_of_pendingBlock hp).1
    have hhead : q = n.head := W.hash_inj (by rw [← hq.1, hparent])
    exact h.push (hhead ▸ hq)
  · rintro _ _ rfl
    exact .refl h

theorem Holding.verify (h : n.Anchored) (header : Header) (txs : List W.Tx) (certs : Certs) :
    Holding (Chain.verify header txs certs) n := by
  refine (verify_spec n header txs certs).mono ?_ ?_
  · rintro p _ ⟨hp, rfl⟩
    exact .of_frame h rfl rfl (h.pends.addPending (verifyBlock_follows h.pends hp))
  · rintro _ _ rfl
    exact .refl h

theorem Holding.build (h : n.Anchored) (parent : Hash) (candidates : List (W.Tx × Address))
    (timestamp : Nat) (beneficiary : Address) (extraData : Bytes) (certs : Certs) :
    Holding (Chain.build parent candidates timestamp beneficiary extraData certs) n := by
  refine .get_bind (.lift_bind h fun built hbuilt => ?_)
  simp only [Node.buildOn, bind_eq_ok] at hbuilt
  obtain ⟨v, -, hr⟩ := hbuilt
  exact Holds.of_frame h rfl rfl (h.pends.addPending ⟨v.parent, View.executeOn_follows hr⟩)

/-- Every call leaves the checkpoint and the chain below it. -/
theorem after_later (h : n.Anchored) (c : Call W) : n.Later (n.after c) := by
  have hends : Ends c.run n (fun _ n' => n.Later n') (fun _ n' => n.Later n') := by
    have of_holding : ∀ {m : Act W Unit}, Holding m n →
        Ends m n (fun _ n' => n.Later n') (fun _ n' => n.Later n') :=
      fun hm => hm.mono (fun _ _ h' => h'.later) fun _ _ h' => h'.later
    cases c with
    | importMined now header txs root =>
      exact of_holding (.bind (.importMinedWithCert h ..) fun _ _ h' => .pure h'.anchored _)
    | importMinedWithCert now header txs root cert =>
      exact of_holding (.bind (.importMinedWithCert h ..) fun _ _ h' => .pure h'.anchored _)
    | finalize hash height => exact Ends.bind (finalize_later h hash height)
    | importFinal header txs root certs =>
      exact of_holding (.bind (.importFinal h ..) fun _ _ h' => .pure h'.anchored _)
    | verifyBlock header txs certs =>
      exact of_holding (.bind (.verify h ..) fun _ _ h' => .pure h'.anchored _)
    | buildOn parent candidates timestamp beneficiary extraData certs =>
      exact of_holding (.bind (.build h ..) fun _ _ h' => .pure h'.anchored _)
    | commitPending hash =>
      exact of_holding (.bind (.commitPending h hash) fun _ _ h' => .pure h'.anchored _)
    | dropPending hash =>
      have hdrop : n.Holds (n.dropPending hash) := .of_frame h rfl rfl (h.pends.dropPending hash)
      exact hdrop.later
    | addAuditCert cert => exact of_holding (.modify h rfl rfl rfl)
    | setGasTarget gas => exact of_holding (.modify h rfl rfl rfl)
    | reopen =>
      have hreopen : n.Holds n.reopen := .of_frame h rfl rfl fun p hp => by cases hp
      exact hreopen.later
  unfold Node.after
  unfold Ends at hends
  cases hm : c.run n with
  | ok a n' => rw [hm] at hends; exact hends
  | error e n' => rw [hm] at hends; exact hends

theorem afterAll_later (h : n.Anchored) (calls : List (Call W)) : n.Later (n.afterAll calls) := by
  induction calls generalizing n with
  | nil => exact .refl h
  | cons c calls ih => exact (after_later h c).trans (ih (after_later h c).anchored)

theorem Anchored.opened : (Node.opened W).Anchored where
  linked := List.isChain_singleton _
  pends p hp := by cases hp
  final f hf := by cases hf

/-- A checkpoint is never reverted: once a run has made `(k, h)` the checkpoint, the canonical block
at height `k` has hash `h` in every later state, and the checkpoint's height does not go down. -/
theorem checkpoint_never_reverted (before later : List (Call W)) (k : Nat) (h : Hash)
    (hfin : ((Node.opened W).afterAll before).finalized = some (k, h)) :
    (((Node.opened W).afterAll before).afterAll later).hashAt k = some h ∧
      ∃ k' h', (((Node.opened W).afterAll before).afterAll later).finalized = some (k', h') ∧ k ≤ k' := by
  have hbefore := (afterAll_later Anchored.opened before).anchored
  have hlater := afterAll_later hbefore later
  refine ⟨?_, ?_⟩
  · rw [hlater.hashAt (k, h) hfin k le_rfl]
    exact hbefore.final (k, h) hfin
  · obtain ⟨⟨k', h'⟩, hg, hle⟩ := hlater.finalized (k, h) hfin
    exact ⟨k', h', hg, hle⟩

namespace Replay

/-- Two branches from genesis: `a₁` with its child `a₂`, and `b₁`. -/
def a₁ : Header := mockHeader 0 1 1 1 []

def a₂ : Header := mockHeader 1 2 2 2 []

def b₁ : Header := mockHeader 0 1 2 1 []

def world : World := mockWorld [mockGenesis, a₁, a₂, b₁] 1000 fun _ => ⟨none, none⟩

def settle : List (Call world) := [.importMined 100 a₁ ([] : List Nat) none, .finalize (1 : Nat) 1]

def goOn : List (Call world) :=
  [.importMined 100 b₁ ([] : List Nat) none, .importMined 100 a₂ ([] : List Nat) none]

end Replay

theorem checkpoint_stays_on_chain :
    ((Node.opened Replay.world).afterAll Replay.settle).finalized = some (1, 1) ∧
    (((Node.opened Replay.world).afterAll Replay.settle).afterAll Replay.goOn).hashAt 1 = some 1 :=
  have hfin : ((Node.opened Replay.world).afterAll Replay.settle).finalized = some (1, 1) := by
    decide +kernel
  ⟨hfin, (checkpoint_never_reverted Replay.settle Replay.goOn 1 1 hfin).1⟩

end Boltchain.Chain
