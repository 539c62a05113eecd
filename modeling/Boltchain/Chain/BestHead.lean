import Boltchain.Chain.Reorg

namespace Boltchain.Chain

open Consensus (Bytes Hash)
open Lib.Action Lib.Journal

variable {W : World}

section Ancestry

/-- A header descends from another by parent hashes, or is the same. -/
def Header.Descends (W : World) (h g : Header) : Prop := Relation.ReflTransGen (fun g h => h.Follows W g) g h

/-- The difficulties of a block and its ancestors add up to `td`. -/
inductive Work (W : World) : Header → Nat → Prop where
  | genesis : Work W W.genesis (saturatingAdd 0 W.genesis.difficulty)
  | next {g h : Header} {td : Nat} (before : Work W g td) (follows : h.Follows W g) : Work W h (td + h.difficulty)

variable {g g' h : Header} {td td' : Nat}

theorem Header.Follows.unique (h₁ : h.Follows W g) (h₂ : h.Follows W g') : g = g' :=
  W.hash_inj (h₁.1.symm.trans h₂.1)

theorem Header.Follows.number_ne_zero (hf : h.Follows W g) : h.number ≠ 0 := by
  rw [hf.2]
  exact Nat.succ_ne_zero _

theorem Work.follows_of_ne (hw : Work W h td) (hne : h.number ≠ 0) : ∃ g, h.Follows W g := by
  cases hw with
  | genesis => exact absurd W.genesis_number hne
  | next _ hf => exact ⟨_, hf⟩

theorem Work.unique (h₁ : Work W h td) (h₂ : Work W h td') : td = td' := by
  induction h₁ generalizing td' with
  | genesis =>
    cases h₂ with
    | genesis => rfl
    | next _ hf => exact absurd W.genesis_number hf.number_ne_zero
  | next _ hf ih =>
    cases h₂ with
    | genesis => exact absurd W.genesis_number hf.number_ne_zero
    | next hg' hf' =>
      obtain rfl := hf.unique hf'
      rw [ih hg']

variable {l : List (StoredBlock W)} {s : W.State}

theorem Built.descendants (h : Built l s) :
    l.Pairwise fun b c => b.header.Descends W c.header := by
  have : IsTrans (StoredBlock W) fun b c => b.header.Descends W c.header := ⟨fun _ _ _ h₁ h₂ => h₂.trans h₁⟩
  exact List.isChain_iff_pairwise.1 (h.linked.imp fun b c hbc => Relation.ReflTransGen.single hbc)

theorem Built.descends_of_le {b c : StoredBlock W} (h : Built l s) (hb : b ∈ l)
    (hc : c ∈ l) (hle : c.header.number ≤ b.header.number) : b.header.Descends W c.header := by
  obtain ⟨i, hi, rfl⟩ := List.mem_iff_getElem.1 hb
  obtain ⟨j, hj, rfl⟩ := List.mem_iff_getElem.1 hc
  rcases Nat.lt_trichotomy i j with hij | rfl | hij
  · exact List.pairwise_iff_getElem.1 h.descendants i j hi hj hij
  · exact .refl
  · have := List.pairwise_iff_getElem.1 h.descends j i hj hi hij
    omega

theorem Built.td_lt (h : Built l s) : ∀ b ∈ l, b.td < 2 ^ 256 := by
  have hsat : ∀ a b, saturatingAdd a b < 2 ^ 256 := by
    intro a b
    unfold saturatingAdd
    omega
  induction h with
  | genesis => exact List.forall_mem_singleton.2 (hsat _ _)
  | push h hp ih => exact List.forall_mem_cons.2 ⟨hsat _ _, ih⟩

end Ancestry

section Valid

/-- The blocks of a branch verify in turn on the chain they are on, under the envelopes they were announced with. -/
def ValidOn : StoredBlock W → List (StoredBlock W) → W.State → List (SideBlock W) → Prop
  | _, _, _, [] => True
  | tip, below, state, b :: branch =>
    ∃ p, (Node.bare tip below state).verifyBlock b.header b.transactions b.cert = .ok p ∧ (∀ r ∈ b.root, r = p.root) ∧
      ValidOn (p.stored tip.td) (tip :: below) (write state p.changes) branch

/-- The blocks of the branch that a switch to `tip` imports are valid. -/
def Node.ValidSwitch (n : Node W) (tip : Hash) : Prop :=
  ∀ branch fork, n.switches tip = some (branch, fork) → ∀ c below state, c :: below <:+ n.canonical →
    c.header.number = fork → Built (c :: below) state → ValidOn c below state branch

end Valid

structure SideBlock.Weighed (b : SideBlock W) : Prop where
  follows : ∃ parent, b.header.Follows W parent
  work : Work W b.header b.td
  bounded : b.td < 2 ^ 256
  mined : b.header.difficulty ≠ 0

namespace Node

def Above (n : Node W) (h : Header) : Prop := ∀ f ∈ n.finalized, ∃ g, W.hash g = f.2 ∧ h.Descends W g

/-- The chain is verified and mined, nothing is pending, the checkpoint is canonical, and total difficulties are right. -/
structure Weighed (n : Node W) : Prop where
  built : Built n.canonical n.state
  pending : n.pending = []
  final : ∀ f ∈ n.finalized, n.hashAt f.1 = some f.2
  work : ∀ b ∈ n.canonical, Work W b.header b.td
  mined : ∀ b ∈ n.canonical, b.header.number ≠ 0 → b.header.difficulty ≠ 0
  side : ∀ b ∈ n.side, b.Weighed
  off : ∀ b ∈ n.side, ∀ c ∈ n.canonical, W.hash b.header ≠ W.hash c.header

variable {n n' : Node W} {header : Header} {txs : List W.Tx} {certs : Certs} {p : PendingBlock W}

theorem Weighed.opened : (Node.opened W).Weighed where
  built := .genesis
  pending := rfl
  final f hf := by cases hf
  work b hb := by
    cases List.mem_singleton.1 hb
    exact .genesis
  mined b hb hne := by
    cases List.mem_singleton.1 hb
    exact absurd W.genesis_number hne
  side b hb := by cases hb
  off b hb := by cases hb

theorem Weighed.tidy (h : n.Weighed) : n.Tidy := ⟨h.built, fun b hb => (h.side b hb).follows, h.off⟩

theorem Weighed.anchored (h : n.Weighed) : n.Anchored where
  linked := h.built.linked.imp fun _ _ hbc => hbc.2
  pends p hp := by
    rw [h.pending] at hp
    cases hp
  final := h.final

variable {side : List (SideBlock W)}

theorem Weighed.with_side (h : n.Weighed) (hside : ∀ b ∈ side, b.Weighed)
    (hoff : ∀ b ∈ side, ∀ c ∈ n.canonical, W.hash b.header ≠ W.hash c.header) : { n with side }.Weighed :=
  ⟨h.built, h.pending, h.final, h.work, h.mined, hside, hoff⟩

theorem Weighed.fresh (h : n.Weighed) (x : Hash) : n.pendingBlock x = none := by
  rw [pendingBlock, h.pending]
  rfl

theorem Weighed.td_lt (h : n.Weighed) : ∀ c ∈ n.below, c.td < n.tip.td := by
  have hchain : n.canonical.IsChain fun b c => c.td < b.td := by
    have hpair := List.isChain_iff_getElem.1 h.built.linked
    refine List.isChain_iff_getElem.2 fun i hi => ?_
    have hfollows := hpair i hi
    have hb := h.work _ (List.getElem_mem (l := n.canonical) (n := i) (by omega))
    have hc := h.work _ (List.getElem_mem (l := n.canonical) (n := i + 1) hi)
    have hne := h.mined _ (List.getElem_mem (l := n.canonical) (n := i) (by omega)) hfollows.number_ne_zero
    have := hb.unique (hc.next hfollows)
    omega
  have : IsTrans (StoredBlock W) fun b c => c.td < b.td := ⟨fun _ _ _ h₁ h₂ => h₂.trans h₁⟩
  exact (List.pairwise_cons.1 (List.isChain_iff_pairwise.1 hchain)).1

theorem Weighed.push (h : n.Weighed) (hparent : header.parentHash = W.hash n.head)
    (hp : n.verifyBlock header txs certs = .ok p) (hmined : header.difficulty ≠ 0)
    (hbound : n.tip.td + header.difficulty < 2 ^ 256)
    (hside : ∀ b ∈ side, b ∈ n.side ∧ W.hash b.header ≠ W.hash header) :
    { n.push p with side }.Weighed ∧ (n.push p).tip.td = n.tip.td + header.difficulty := by
  have hheader := verifyBlock_header hp
  have hbuilt := built_push h.built hparent (h.fresh _) hp
  have hfollows : p.header.Follows W n.head := (List.isChain_cons_cons.1 hbuilt.linked).1
  have htd : (n.push p).tip.td = n.tip.td + header.difficulty := by
    rw [← hheader]
    exact Nat.min_eq_left (by rw [hheader]; omega)
  refine ⟨⟨hbuilt, ?_, (h.anchored.push hfollows).anchored.final, ?_, ?_, fun b hb => h.side b (hside b hb).1, ?_⟩, htd⟩
  · show List.filter _ n.pending = []
    rw [h.pending]
    rfl
  · refine List.forall_mem_cons.2 ⟨?_, h.work⟩
    rw [htd, ← hheader]
    exact (h.work n.tip List.mem_cons_self).next hfollows
  · have hdifficulty : p.header.difficulty ≠ 0 := hheader ▸ hmined
    exact List.forall_mem_cons.2 ⟨fun _ => hdifficulty, h.mined⟩
  · intro b hb
    refine List.forall_mem_cons.2 ⟨?_, h.off b (hside b hb).1⟩
    show W.hash b.header ≠ W.hash p.header
    rw [hheader]
    exact (hside b hb).2

end Node

open Node

section Switch

variable {n n₁ : Node W} {header : Header} {txs : List W.Tx} {root : Option Cid} {certs : Certs} {tip : Hash}
  {branch : List (SideBlock W)} {fork : Nat}

theorem stateRoot_of_verifyBlock {p : PendingBlock W} (h : n.Weighed) (hparent : header.parentHash = W.hash n.head)
    (hp : n.verifyBlock header txs certs = .ok p) : W.stateRoot (write n.state p.changes) = header.stateRoot := by
  rw [← verifyBlock_header hp]
  exact (built_push h.built hparent (h.fresh _) hp).stateRoot

/-- An import that fails on a weighed node leaves it as it was. -/
theorem importFinal_error {e : ChainError} {n' : Node W} (h : n.Weighed)
    (hm : importFinal header txs root certs n = .error e n') : n' = n := by
  by_cases hparent : header.parentHash = W.hash n.head
  case neg =>
    rw [importFinal, get_bind, lift_bind_error (e := .invalidBlock (.notExtending n.head.number))
      (by simp [ensure, hparent])] at hm
    cases hm
    rfl
  case pos =>
    rw [importFinal, get_bind, lift_bind (ensure_ok (beq_iff_eq.2 hparent))] at hm
    cases hv : n.verifyBlock header txs certs with
    | error e' =>
      have hverify : verify header txs certs n = .error e' n := by
        rw [verify, get_bind, lift_bind_error hv]
      rw [bind_of_error hverify] at hm
      cases hm
      rfl
    | ok p =>
      have hverify : verify header txs certs n = .ok p (n.addPending p) := by
        rw [verify, get_bind, lift_bind hv]
        rfl
      rw [bind_of_ok hverify] at hm
      cases hc : checkEnvelope root p (n.addPending p) with
      | error e' n₂ =>
        rw [bind_of_error hc] at hm
        obtain ⟨rfl, rfl⟩ : e' = e ∧ n₂ = n' := by simpa using hm
        have hdrop : n₂ = (n.addPending p).dropPending (W.hash p.header) := (checkEnvelope_spec _ root p).of_error hc
        have hpending : ((n.addPending p).dropPending (W.hash p.header)).pending = n.pending := by
          simp [addPending, dropPending, h.pending]
        rw [hdrop]
        exact congrArg (fun pending => { n with pending }) hpending
      | ok u n₂ =>
        -- under its envelope the block would have been committed
        obtain ⟨hroot, rfl⟩ := (checkEnvelope_spec _ root p).of_ok hc
        have hok := importFinal_ok hparent hv hroot (stateRoot_of_verifyBlock h hparent hv)
        rw [importFinal, get_bind, lift_bind (ensure_ok (beq_iff_eq.2 hparent)), bind_of_ok hverify, hm] at hok
        cases hok

/-- A branch of valid blocks on the head is adopted as a whole. -/
theorem adopt_ok (fork : Nat) (undone : List (SideBlock W)) (h : n.Weighed) (hpath : Path (W.hash n.head) branch tip)
    (hweighed : ∀ d ∈ branch, d.Weighed) (hvalid : ValidOn n.tip n.below n.state branch) :
    ∃ n' extra, adopt fork undone branch n = .ok () n' ∧ n'.Weighed ∧ n'.finalized = n.finalized ∧
      n'.canonical = extra ++ n.canonical ∧ (∀ b ∈ extra, ∃ d ∈ branch, b.header = d.header) ∧
      ∀ b ∈ n'.side, b ∈ n.side ∧ ∀ d ∈ branch, W.hash b.header ≠ W.hash d.header := by
  induction branch generalizing n with
  | nil => exact ⟨n, [], rfl, h, rfl, rfl, by simp, fun b hb => ⟨hb, by simp⟩⟩
  | cons d branch ih =>
    obtain ⟨hparent, hpath⟩ := hpath
    obtain ⟨p, hp, hroot, hvalid⟩ := hvalid
    have hd := hweighed d List.mem_cons_self
    rw [← verifyBlock_eq_bare h.built hparent (h.fresh _)] at hp
    have hheader := verifyBlock_header hp
    have hbuilt := built_push h.built hparent (h.fresh _) hp
    have hfollows : d.header.Follows W n.head := hheader ▸ (List.isChain_cons_cons.1 hbuilt.linked).1
    have htd := hd.work.unique ((h.work n.tip List.mem_cons_self).next hfollows)
    have himport : importFinal d.header d.transactions d.root d.cert n = .ok (W.hash d.header) (n.push p) :=
      importFinal_ok hparent hp hroot (stateRoot_of_verifyBlock h hparent hp)
    let n₁ := (n.push p).removeSide (W.hash d.header)
    have hside : ∀ b ∈ n₁.side, b ∈ n.side ∧ W.hash b.header ≠ W.hash d.header := by
      intro b hb
      obtain ⟨hb, hne⟩ := List.mem_filter.1 hb
      exact ⟨List.mem_of_mem_filter hb, by simpa using hne⟩
    have h₁ : n₁.Weighed := (h.push hparent hp hd.mined (htd ▸ hd.bounded) hside).1
    have hhead : n₁.head = d.header := hheader
    obtain ⟨n', extra, hrun, hn', hfin, hcanon, hextra, hside'⟩ := ih h₁ (hhead ▸ hpath)
      (fun x hx => hweighed x (List.mem_cons_of_mem _ hx)) hvalid
    refine ⟨n', extra ++ [p.stored n.tip.td], ?_, hn', hfin, ?_, ?_, ?_⟩
    · simp only [adopt, himport]
      exact hrun
    · rw [hcanon, List.append_assoc]
      rfl
    · intro b hb
      rcases List.mem_append.1 hb with hb | hb
      · obtain ⟨x, hx, heq⟩ := hextra b hb
        exact ⟨x, List.mem_cons_of_mem _ hx, heq⟩
      · cases List.mem_singleton.1 hb
        exact ⟨d, List.mem_cons_self, hheader⟩
    · intro b hb
      obtain ⟨hb, hne⟩ := hside' b hb
      exact ⟨(hside b hb).1, List.forall_mem_cons.2 ⟨(hside b hb).2, hne⟩⟩

theorem mem_foldl_insertSide {blocks : List (SideBlock W)} {b : SideBlock W} (hb : b ∈ (blocks.foldl insertSide n).side) :
    b ∈ n.side ∨ b ∈ blocks := by
  induction blocks generalizing n with
  | nil => exact .inl hb
  | cons d blocks ih =>
    rcases ih hb with hb | hb
    · rcases List.mem_cons.1 hb with rfl | hb
      · exact .inr List.mem_cons_self
      · exact .inl (List.mem_of_mem_filter hb)
    · exact .inr (List.mem_cons_of_mem _ hb)

variable {removed : List (StoredBlock W)}

theorem Node.Weighed.unwound (h : n.Weighed) (hu : Unwound fork n n₁ removed)
    (hfin : ∀ f ∈ n.finalized, f.1 ≤ fork) : n₁.Weighed := by
  have hsub : ∀ b ∈ n₁.canonical, b ∈ n.canonical := by
    intro b hb
    rw [hu.canonical]
    exact List.mem_append_right _ hb
  have hside : n₁.side = n.side := by rw [hu.frame]
  refine ⟨hu.built h.built, ?_, (h.anchored.unwound hu hfin).anchored.final, fun b hb => h.work b (hsub b hb),
    fun b hb => h.mined b (hsub b hb), hside ▸ h.side, fun b hb c hc => h.off b (hside ▸ hb) c (hsub c hc)⟩
  rw [hu.frame]
  exact h.pending

theorem Unwound.head_eq {c : StoredBlock W} (hu : Unwound fork n n₁ removed)
    (hn : Built n.canonical n.state) (hc : c ∈ n.canonical) (hnum : c.header.number = fork) : c = n₁.tip := by
  have hc₁ : c ∈ n₁.canonical := by
    rw [hu.canonical] at hc
    rcases List.mem_append.1 hc with hc | hc
    · exact absurd (hu.above c hc) (by omega)
    · exact hc
  rcases List.mem_cons.1 hc₁ with rfl | hc₁
  · rfl
  · have hlt := (List.pairwise_cons.1 (hu.built hn).descends).1 c hc₁
    have hle : n₁.tip.header.number ≤ fork := hu.le
    omega

theorem switches_some (h : n.switches tip = some (branch, fork)) (hpending : n.pending = []) :
    n.branchTo tip = .ok (branch, fork) ∧ n.checkFork fork = .ok () ∧
      ∃ n₁ removed, unwindTo fork n = .ok (removed.map StoredBlock.toSide).reverse n₁ ∧ Unwound fork n n₁ removed := by
  have hsame : { n with pending := [] } = n := by rw [← hpending]
  unfold switches at h
  rw [hsame] at h
  split at h
  case h_1 => cases h
  case h_2 branch' fork' hbranch =>
    split at h
    case h_2 => cases h
    case h_1 u r hfork hunwind =>
      obtain ⟨n₁, undone⟩ := r
      cases h
      obtain ⟨removed, hu, hundone⟩ := unwind_ok rfl hunwind
      rw [List.append_nil] at hundone
      refine ⟨hbranch, hfork, n₁, removed, ?_, hu⟩
      rw [unwindTo, modify_bind, get_bind, hsame, lift_bind hunwind, hundone]
      rfl

theorem reorgTo_stays (hpending : n.pending = []) (hnone : n.switches tip = none) : ∃ e, reorgTo tip n = .error e n := by
  have hsame : { n with pending := [] } = n := by rw [← hpending]
  rw [reorgTo, get_bind]
  unfold switches at hnone
  cases hbranch : n.branchTo tip with
  | error e => exact ⟨e, lift_bind_error rfl⟩
  | ok bf =>
    obtain ⟨branch, fork⟩ := bf
    rw [lift_bind rfl]
    rw [hbranch] at hnone
    simp only at hnone ⊢
    cases hfork : n.checkFork fork with
    | error e => exact ⟨e, lift_bind_error rfl⟩
    | ok u =>
      rw [lift_bind rfl]
      cases hun : unwind fork n.below { n with pending := [] } [] with
      | error e =>
        have hto : unwindTo fork n = .error e n := by
          rw [unwindTo, modify_bind, get_bind]
          exact (lift_bind_error hun).trans (congrArg (EStateM.Result.error e) hsame)
        exact ⟨e, bind_of_error hto⟩
      | ok r =>
        rw [hfork, hun] at hnone
        cases hnone

/-- A switch that gets as far as undoing blocks, to a branch of valid blocks, succeeds. -/
theorem reorgTo_ok (h : n.Weighed) (hswitch : n.switches tip = some (branch, fork)) (hvalid : n.ValidSwitch tip) :
    ∃ depth n', reorgTo tip n = .ok depth n' ∧ n'.Weighed ∧ n'.finalized = n.finalized ∧
      ∀ b ∈ n'.side, b ∈ n.side ∨ ∃ o ∈ n.canonical, b = o.toSide := by
  obtain ⟨hbranch, hfork, n₁, removed, hunwind, hu⟩ := switches_some hswitch h.pending
  obtain ⟨c, hc, hcnum, hpath, hmem⟩ := branchTo_path hbranch
  have hfin := (checkFork_ok hfork).1
  have h₁ := h.unwound hu hfin
  have hhead := hu.head_eq h.built hc hcnum
  have hsuffix : n₁.tip :: n₁.below <:+ n.canonical := ⟨removed, hu.canonical.symm⟩
  have hside₁ : n₁.side = n.side := by rw [hu.frame]
  obtain ⟨n₂, extra, hadopt, h₂, hfin₂, hcanon₂, hextra, hside₂⟩ := adopt_ok fork (removed.map StoredBlock.toSide).reverse
    h₁ (hhead ▸ hpath) (fun d hd => h.side d (hmem d hd))
    (hvalid branch fork hswitch n₁.tip n₁.below n₁.state hsuffix (hhead ▸ hcnum) h₁.built)
  have hremoved : ∀ o ∈ removed, o ∈ n.canonical := by
    intro o ho
    rw [hu.canonical]
    exact List.mem_append_left _ ho
  have hmem₃ : ∀ b ∈ ((removed.map StoredBlock.toSide).reverse.foldl insertSide n₂).side,
      b ∈ n.side ∧ (∀ d ∈ branch, W.hash b.header ≠ W.hash d.header) ∨ ∃ o ∈ removed, b = o.toSide := by
    intro b hb
    rcases mem_foldl_insertSide hb with hb | hb
    · exact .inl ⟨hside₁ ▸ (hside₂ b hb).1, (hside₂ b hb).2⟩
    · obtain ⟨o, ho, rfl⟩ := List.mem_map.1 (List.mem_reverse.1 hb)
      exact .inr ⟨o, ho, rfl⟩
  refine ⟨n.head.number - fork, (removed.map StoredBlock.toSide).reverse.foldl insertSide n₂, ?_, ?_, ?_, ?_⟩
  · rw [reorgTo, get_bind, lift_bind hbranch]
    simp only
    rw [lift_bind hfork, bind_of_ok hunwind, bind_of_ok hadopt, modify_bind]
    rfl
  · rw [foldl_insertSide]
    refine h₂.with_side (fun b hb => ?_) fun b hb c hc heq => ?_
    · obtain ⟨hb, -⟩ | ⟨o, ho, rfl⟩ := hmem₃ b hb
      · exact h.side b hb
      · have habove : o.header.number ≠ 0 := Nat.ne_zero_of_lt (hu.above o ho)
        have hwork := h.work o (hremoved o ho)
        exact ⟨hwork.follows_of_ne habove, hwork, h.built.td_lt o (hremoved o ho), h.mined o (hremoved o ho) habove⟩
    · rw [hcanon₂] at hc
      rcases List.mem_append.1 hc with hc | hc
      · -- the imported blocks were side blocks
        obtain ⟨d, hd, hcd⟩ := hextra c hc
        rw [hcd] at heq
        obtain ⟨-, hne⟩ | ⟨o, ho, rfl⟩ := hmem₃ b hb
        · exact hne d hd heq
        · exact h.off d (hmem d hd) o (hremoved o ho) heq.symm
      · obtain ⟨hb, -⟩ | ⟨o, ho, rfl⟩ := hmem₃ b hb
        · exact h₁.off b (hside₁ ▸ hb) c hc heq
        · have hlt := hu.above o ho
          have hdesc := (List.pairwise_append.1 (hu.canonical ▸ h.built.descends)).2.2 o ho c hc
          exact absurd (congrArg Header.number (W.hash_inj heq)) hdesc.ne'
  · rw [foldl_insertSide, hfin₂, hu.frame]
  · intro b hb
    obtain ⟨hb, -⟩ | ⟨o, ho, rfl⟩ := hmem₃ b hb
    · exact .inl hb
    · exact .inr ⟨o, hremoved o ho, rfl⟩

end Switch

/-- The head is at or above the checkpoint, and of all blocks known there it has the most work, and the lowest hash among
those with as much. -/
structure Node.BestHead (n : Node W) : Prop where
  above : n.Above n.head
  best : ∀ h header td canonical, n.locate h = some (header, td, canonical) → n.Above header →
    td < n.tip.td ∨ td = n.tip.td ∧ W.hash n.head ≤ h

/-- An import under which the head stays the best: the total difficulty fits, and if the block has more work than the head
and is above the checkpoint, the chain can switch to it. The blocks of the branch are valid. -/
def Node.ImportFair (n : Node W) (now : Nat) (header : Header) (txs : List W.Tx) (root : Option Cid) (cert : Certs) : Prop :=
  (∀ parent td canonical, n.locate header.parentHash = some (parent, td, canonical) → td + header.difficulty < 2 ^ 256) ∧
  ∀ b, n.offered now header txs root cert = some b → ¬n.Outweighs b → (n.insertSide b).ValidSwitch (W.hash header) ∧
    (n.Above header → ((n.insertSide b).switches (W.hash header)).isSome = true)

/-- A finalization under which the head stays the best: a block that is not canonical has no descendants among the known
blocks. The blocks of the branch are valid. -/
def Node.FinalizeFair (n : Node W) (hash : Hash) (height : Nat) : Prop :=
  ∀ header td, (∀ f ∈ n.finalized, f.1 < height) → n.locate hash = some (header, td, false) → header.number = height →
    n.ValidSwitch hash ∧ ∀ x, n.knows (W.hash x) = true → x.Descends W header → x = header

/-- Imports of mined blocks and finalizations under which the head stays the best. -/
def Node.Fair (n : Node W) : Call W → Prop
  | .importMined now header txs root => n.ImportFair now header txs root ⟨[], []⟩
  | .importMinedWithCert now header txs root cert => n.ImportFair now header txs root cert
  | .finalize hash height => n.FinalizeFair hash height
  | _ => False

def Node.FairRun (n : Node W) : List (Call W) → Prop
  | [] => True
  | c :: calls => n.Fair c ∧ (n.after c).FairRun calls

namespace Node

variable {n n' : Node W}

/-- What fork choice keeps: the node is weighed, and no side block above the checkpoint is better than the head. -/
structure Chooses (n : Node W) : Prop where
  weighed : n.Weighed
  side : ∀ b ∈ n.side, n.Above b.header → n.Outweighs b

theorem Weighed.above_of_mem (h : n.Weighed) {b : StoredBlock W} (hb : b ∈ n.canonical)
    (hle : ∀ f ∈ n.finalized, f.1 ≤ b.header.number) : n.Above b.header := by
  intro f hf
  obtain ⟨c, hc, heq⟩ := Option.map_eq_some_iff.1 (h.final f hf)
  obtain ⟨hmem, hnum⟩ := mem_of_blockAt hc
  exact ⟨c.header, heq, h.built.descends_of_le hb hmem (hnum ▸ hle f hf)⟩

theorem Weighed.above_head (h : n.Weighed) : n.Above n.head :=
  h.above_of_mem List.mem_cons_self fun _ hf => h.anchored.finalized_le hf

theorem Chooses.bestHead (h : n.Chooses) : n.BestHead := by
  refine ⟨h.weighed.above_head, fun x header td canonical hl habove => ?_⟩
  unfold locate at hl
  cases hb : n.block x with
  | some c =>
    rw [hb] at hl
    cases hl
    obtain ⟨hmem, rfl⟩ := mem_of_block hb
    rcases List.mem_cons.1 hmem with rfl | hmem
    · exact .inr ⟨rfl, le_rfl⟩
    · exact .inl (h.weighed.td_lt c hmem)
  | none =>
    rw [hb] at hl
    obtain ⟨b, hside, heq⟩ := Option.map_eq_some_iff.1 hl
    cases heq
    obtain ⟨hmem, rfl⟩ := mem_of_sideBlock hside
    exact h.side b hmem habove

theorem Chooses.opened : (Node.opened W).Chooses := ⟨.opened, fun b hb => by cases hb⟩

theorem locate_head (n : Node W) : n.locate (W.hash n.head) = some (n.head, n.tip.td, true) := by
  have hblock : n.block (W.hash n.head) = some n.tip := by
    simp [block, canonical, Node.head]
  rw [locate, hblock]
  rfl

theorem Weighed.locate (h : n.Weighed) {x : Hash} {header : Header} {td : Nat} {canonical : Bool}
    (hl : n.locate x = some (header, td, canonical)) : Work W header td := by
  unfold Node.locate at hl
  cases hb : n.block x with
  | some c =>
    rw [hb] at hl
    cases hl
    exact h.work c (mem_of_block hb).1
  | none =>
    rw [hb] at hl
    obtain ⟨b, hside, heq⟩ := Option.map_eq_some_iff.1 hl
    cases heq
    exact (h.side b (mem_of_sideBlock hside).1).work

section Imports

variable {now : Nat} {header : Header} {txs : List W.Tx} {root : Option Cid} {cert : Certs}

theorem Chooses.push {p : PendingBlock W} (h : n.Chooses) (hnew : n.knows (W.hash header) = false)
    (hparent : header.parentHash = W.hash n.head) (hp : n.verifyBlock header txs cert = .ok p)
    (hmined : header.difficulty ≠ 0) (hbound : n.tip.td + header.difficulty < 2 ^ 256) : (n.push p).Chooses := by
  have hside : ∀ b ∈ (n.push p).side, b ∈ n.side ∧ W.hash b.header ≠ W.hash header := by
    intro b hb
    have hb : b ∈ n.side := List.mem_of_mem_filter hb
    refine ⟨hb, fun heq => ?_⟩
    have := knows_of_mem_side hb
    rw [heq, hnew] at this
    cases this
  obtain ⟨hweighed, htd⟩ := h.weighed.push hparent hp hmined hbound hside
  refine ⟨hweighed, fun b hb habove => .inl ?_⟩
  rw [htd]
  rcases h.side b (hside b hb).1 habove with hlt | ⟨heq, -⟩ <;> omega

variable {b : SideBlock W}

theorem Weighed.insertSide (h : n.Weighed) (hoff : n.offered now header txs root cert = some b)
    (hbound : ∀ parent td canonical, n.locate header.parentHash = some (parent, td, canonical) →
      td + header.difficulty < 2 ^ 256) : (n.insertSide b).Weighed := by
  have htidy := h.tidy.insertSide hoff
  obtain ⟨parent, parentTd, canonical, hnew, -, hparent, -, -, hcheck, rfl⟩ := offered_some hoff
  have hlt := hbound _ _ _ hparent
  refine h.with_side (fun c hc => ?_) htidy.off
  rcases List.mem_cons.1 hc with rfl | hc
  · obtain ⟨g, hg⟩ := htidy.follows _ List.mem_cons_self
    obtain rfl : parent = g := W.hash_inj ((locate_hash hparent).trans hg.1)
    refine ⟨⟨_, hg⟩, ?_, Nat.mod_lt _ (by decide), ?_⟩
    · show Work W header ((parentTd + header.difficulty) % 2 ^ 256)
      rw [Nat.mod_eq_of_lt hlt]
      exact (h.locate hparent).next hg
    · unfold checkMinedHeader at hcheck
      simp only [bind_eq_ok, ensure_eq_ok, bne_iff_ne] at hcheck
      obtain ⟨-, -, -, -, -, hmined, -⟩ := hcheck
      exact hmined
  · exact h.side c (List.mem_of_mem_filter hc)

/-- A switch to a better block. -/
theorem Chooses.switch {branch : List (SideBlock W)} {fork : Nat} (h : n.Chooses)
    (hweighed : (n.insertSide b).Weighed) (hbetter : ¬n.Outweighs b)
    (hswitch : (n.insertSide b).switches (W.hash b.header) = some (branch, fork))
    (hvalid : (n.insertSide b).ValidSwitch (W.hash b.header)) :
    ∃ depth n', reorgTo (W.hash b.header) (n.insertSide b) = .ok depth n' ∧ n'.Chooses := by
  obtain ⟨depth, n', hrun, hn', hfin, hside⟩ := reorgTo_ok hweighed hswitch hvalid
  have hfind : (n.insertSide b).sideBlock (W.hash b.header) = some b := by
    simp [sideBlock, Node.insertSide]
  have hhead := reorgTo_head hrun hfind
  have htd : n'.tip.td = b.td := by
    have hwork := hn'.work n'.tip List.mem_cons_self
    have heq : n'.tip.header = b.header := hhead
    rw [heq] at hwork
    exact hwork.unique (hweighed.side b List.mem_cons_self).work
  refine ⟨depth, n', hrun, hn', fun x hx habove => ?_⟩
  -- what the old head is no worse than, the new one is better than
  have hold : n.Outweighs x → n'.Outweighs x := by
    intro hx
    rw [Outweighs, not_or, not_and, Nat.not_lt, Nat.not_le] at hbetter
    rw [Outweighs, htd, hhead]
    rcases Nat.lt_or_ge n.tip.td b.td with hlt | hge
    · rcases hx with hx | ⟨hx, -⟩ <;> exact .inl (by omega)
    · have heq : b.td = n.tip.td := le_antisymm hge hbetter.1
      rw [heq]
      exact hx.imp id fun hx => ⟨hx.1, (hbetter.2 heq).le.trans hx.2⟩
  rcases hside x hx with hx' | ⟨o, ho, rfl⟩
  · rcases List.mem_cons.1 hx' with rfl | hx'
    · exact absurd (congrArg W.hash hhead.symm) (hn'.off _ hx n'.tip List.mem_cons_self)
    · refine hold (h.side x (List.mem_of_mem_filter hx') fun f hf => habove f ?_)
      rw [hfin]
      exact hf
  · refine hold ?_
    rcases List.mem_cons.1 ho with rfl | ho
    · exact .inr ⟨rfl, le_rfl⟩
    · exact .inl (h.weighed.td_lt o ho)

theorem Chooses.importMined (h : n.Chooses) (hfair : n.ImportFair now header txs root cert) :
    Ends (importMinedWithCert now header txs root cert) n (fun _ n' => n'.Chooses) (fun _ n' => n'.Chooses) := by
  obtain ⟨hbound, hswitch⟩ := hfair
  by_cases hknown : (n.locate (W.hash header)).isSome = true
  · rw [importMinedWithCert]
    refine Ends.bind ?_
    show Ends (ite _ _ _) _ _ _
    rw [if_pos hknown]
    exact h
  have hnew : n.knows (W.hash header) = false := by simpa [knows] using hknown
  cases hoff : n.offered now header txs root cert with
  | none =>
    refine (importMined_refused hoff).mono ?_ ?_
    · rintro _ _ (rfl | ⟨hmined, a, hm⟩)
      · exact h
      · obtain ⟨p, hp, hparent, -, -, rfl⟩ := (importFinal_spec n header txs root cert).of_ok hm
        exact h.push hnew hparent hp hmined (hbound _ _ _ (hparent ▸ n.locate_head))
    · rintro e _ (rfl | hm)
      · exact h
      · rw [importFinal_error h.weighed hm]
        exact h
  | some b =>
    have hb : b.header = header := by
      obtain ⟨_, _, _, -, -, -, -, -, -, rfl⟩ := offered_some hoff
      rfl
    have hweighed := h.weighed.insertSide hoff hbound
    unfold Ends
    rw [importMined_offered hoff]
    by_cases hless : n.Outweighs b
    · rw [if_pos hless]
      refine ⟨hweighed, fun x hx habove => ?_⟩
      rcases List.mem_cons.1 hx with rfl | hx
      · exact hless
      · exact h.side x (List.mem_of_mem_filter hx) habove
    · rw [if_neg hless]
      obtain ⟨hvalid, hsome⟩ := hswitch b hoff hless
      rw [← hb] at hvalid hsome ⊢
      cases hsw : (n.insertSide b).switches (W.hash b.header) with
      | none =>
        -- the block stays aside, so it must not be above the checkpoint
        obtain ⟨e, he⟩ := reorgTo_stays hweighed.pending hsw
        rw [bind_of_error he]
        refine ⟨hweighed, fun x hx habove => ?_⟩
        rcases List.mem_cons.1 hx with rfl | hx
        · have := hsome habove
          rw [hsw] at this
          cases this
        · exact h.side x (List.mem_of_mem_filter hx) habove
      | some r =>
        obtain ⟨depth, n', hrun, hn'⟩ := h.switch hweighed hless hsw hvalid
        rw [bind_of_ok hrun]
        exact hn'

end Imports

section Finalize

variable {hash : Hash} {height : Nat}

theorem Weighed.finalize (h : n.Weighed) (hat : n.hashAt height = some hash) :
    { n with
      finalized := some (height, hash)
      side := n.side.filter fun b => decide (height < b.header.number) }.Weighed := by
  refine ⟨h.built, h.pending, fun f hf => ?_, h.work, h.mined, fun b hb => h.side b (List.mem_of_mem_filter hb),
    fun b hb => h.off b (List.mem_of_mem_filter hb)⟩
  cases hf
  exact hat

theorem Chooses.finalize_canonical {b : StoredBlock W} (h : n.Chooses) (hb : b ∈ n.canonical)
    (hlt : ∀ f ∈ n.finalized, f.1 < b.header.number) :
    { n with
      finalized := some (b.header.number, W.hash b.header)
      side := n.side.filter fun c => decide (b.header.number < c.header.number) }.Chooses := by
  refine ⟨h.weighed.finalize (h.weighed.anchored.hashAt_of_mem hb), fun x hx habove => ?_⟩
  refine h.side x (List.mem_of_mem_filter hx) fun f hf => ?_
  obtain ⟨g, hg, hdesc⟩ := habove _ rfl
  obtain rfl : g = b.header := W.hash_inj hg
  obtain ⟨g', hg', hdesc'⟩ := h.weighed.above_of_mem hb (fun f hf => (hlt f hf).le) f hf
  exact ⟨g', hg', hdesc'.trans hdesc⟩

/-- A checkpoint on another branch, above which no block is known. -/
theorem Chooses.finalize_side {header : Header} {td depth : Nat} (h : n.Chooses)
    (hl : n.locate hash = some (header, td, false)) (hvalid : n.ValidSwitch hash)
    (hleaf : ∀ x, n.knows (W.hash x) = true → x.Descends W header → x = header)
    (hrun : reorgTo hash n = .ok depth n') :
    { n' with
      finalized := some (header.number, hash)
      side := n'.side.filter fun b => decide (header.number < b.header.number) }.Chooses := by
  cases hsw : n.switches hash with
  | none =>
    obtain ⟨e, he⟩ := reorgTo_stays h.weighed.pending hsw
    rw [he] at hrun
    cases hrun
  | some r =>
    obtain ⟨depth', n₁, hrun', hn₁, -, hside⟩ := reorgTo_ok h.weighed hsw hvalid
    obtain ⟨rfl, rfl⟩ : depth' = depth ∧ n₁ = n' := by simpa using hrun'.symm.trans hrun
    have hhash := locate_hash hl
    have hhead : n₁.head = header := by
      unfold Node.locate at hl
      cases hb : n.block hash with
      | some c =>
        rw [hb] at hl
        cases hl
      | none =>
        rw [hb] at hl
        obtain ⟨b, hb, heq⟩ := Option.map_eq_some_iff.1 hl
        cases heq
        exact reorgTo_head hrun hb
    have hat : n₁.hashAt header.number = some hash := by
      rw [← hhash, ← hhead]
      exact n₁.hashAt_head
    refine ⟨hn₁.finalize hat, fun x hx habove => ?_⟩
    have hside₁ : x ∈ n₁.side := List.mem_of_mem_filter hx
    obtain ⟨g, hg, hdesc⟩ := habove _ rfl
    obtain rfl : g = header := W.hash_inj (hg.trans hhash.symm)
    have hknown : n.knows (W.hash x.header) = true := by
      rcases hside x hside₁ with hx | ⟨o, ho, rfl⟩
      · exact knows_of_mem_side hx
      · exact knows_iff.2 (.inl ⟨o, ho, rfl⟩)
    -- so the block would be the new head itself
    have heq : x.header = n₁.tip.header := (hleaf x.header hknown hdesc).trans hhead.symm
    exact absurd (congrArg W.hash heq) (hn₁.off x hside₁ n₁.tip List.mem_cons_self)

theorem Chooses.finalize (h : n.Chooses) (hfair : n.FinalizeFair hash height) :
    Ends (Chain.finalize hash height) n (fun _ n' => n'.Chooses) (fun _ n' => n'.Chooses) := by
  unfold Chain.finalize
  refine Ends.bind ?_
  show Ends (ite _ _ _) _ _ _
  split
  case isTrue => exact h
  case isFalse hfin =>
    have hlt : ∀ f ∈ n.finalized, f.1 < height := by
      intro f hf
      rw [Option.mem_def.1 hf] at hfin
      simpa using hfin
    refine Ends.bind (Ends.lift ?_ fun _ _ => h)
    rintro ⟨header, td, canonical⟩ hloc
    have hloc := orThrow_eq_ok.1 hloc
    refine Ends.bind (Ends.lift ?_ fun _ _ => h)
    intro _ hnum
    obtain rfl : header.number = height := by simpa using hnum
    cases canonical with
    | true =>
      unfold Node.locate at hloc
      cases hb : n.block hash with
      | none =>
        rw [hb] at hloc
        obtain ⟨b, -, heq⟩ := Option.map_eq_some_iff.1 hloc
        cases heq
      | some b =>
        rw [hb] at hloc
        cases hloc
        obtain ⟨hmem, rfl⟩ := mem_of_block hb
        exact h.finalize_canonical hmem hlt
    | false =>
      obtain ⟨hvalid, hleaf⟩ := hfair header td hlt hloc rfl
      unfold switchTo
      rw [if_neg Bool.false_ne_true]
      refine Ends.bind (Ends.bind ?_)
      unfold Ends
      cases hr : reorgTo hash n with
      | ok depth n' => exact h.finalize_side hloc hvalid hleaf hr
      | error e n' =>
        cases hsw : n.switches hash with
        | none =>
          obtain ⟨e', he⟩ := reorgTo_stays h.weighed.pending hsw
          obtain ⟨-, rfl⟩ : e' = e ∧ n = n' := by simpa using he.symm.trans hr
          exact h
        | some r =>
          obtain ⟨depth, n₁, hrun, -⟩ := reorgTo_ok h.weighed hsw hvalid
          rw [hrun] at hr
          cases hr

end Finalize

theorem Chooses.after (h : n.Chooses) {c : Call W} (hfair : n.Fair c) : (n.after c).Chooses := by
  have hends : Ends c.run n (fun _ n' => n'.Chooses) (fun _ n' => n'.Chooses) := by
    cases c with
    | importMined now header txs root => exact Ends.bind (h.importMined hfair)
    | importMinedWithCert now header txs root cert => exact Ends.bind (h.importMined hfair)
    | finalize hash height => exact Ends.bind (h.finalize hfair)
    | _ => exact hfair.elim
  unfold Node.after
  unfold Ends at hends
  cases hm : c.run n with
  | ok a n' => rw [hm] at hends; exact hends
  | error e n' => rw [hm] at hends; exact hends

theorem Chooses.afterAll {calls : List (Call W)} (h : n.Chooses) (hfair : n.FairRun calls) : (n.afterAll calls).Chooses := by
  induction calls generalizing n with
  | nil => exact h
  | cons c calls ih => exact ih (h.after hfair.1) hfair.2

end Node

/-- In every run of imports of mined blocks and finalizations, each of which is fair, the head is the best known descendant
of the checkpoint after every call. -/
theorem head_is_best_descendant (calls : List (Call W)) (hfair : (Node.opened W).FairRun calls) :
    ((Node.opened W).afterAll calls).BestHead :=
  (Chooses.opened.afterAll hfair).bestHead

namespace Overridden

/-- Two branches from genesis: `a₁` with its child `a₂`, and `b₁` with its child `b₂`. -/
def a₁ : Header := mockHeader 0 1 1 1 []

def a₂ : Header := mockHeader 1 2 2 2 []

def b₁ : Header := mockHeader 0 1 3 1 []

def b₂ : Header := mockHeader 3 2 4 2 []

def world : World := mockWorld [mockGenesis, a₁, a₂, b₁, b₂] 1000 fun _ => ⟨none, none⟩

/-- The node after both branches were imported; `a₂` is its head. -/
def node : Node world :=
  (Node.opened world).afterAll
    [.importMined 100 a₁ ([] : List Nat) none, .importMined 100 a₂ ([] : List Nat) none,
      .importMined 100 b₁ ([] : List Nat) none, .importMined 100 b₂ ([] : List Nat) none]

def final : Node world := node.after (.finalize (3 : Nat) 1)

end Overridden

/-- The checkpoint call succeeds and makes `b₁` the head, while its child `b₂`, which has more work, is known. -/
theorem checkpoint_hides_better_block :
    Overridden.final.finalized = some (1, 3) ∧ Overridden.final.head = Overridden.b₁ ∧ Overridden.final.tip.td = 1 ∧
      Overridden.final.locate (4 : Nat) = some (Overridden.b₂, 2, false) ∧
      Overridden.b₂.Descends Overridden.world Overridden.b₁ := by
  have hrun : Overridden.final.finalized = some (1, 3) ∧ Overridden.final.head = Overridden.b₁ ∧
      Overridden.final.tip.td = 1 ∧ Overridden.final.locate (4 : Nat) = some (Overridden.b₂, 2, false) := by
    decide +kernel
  refine ⟨hrun.1, hrun.2.1, hrun.2.2.1, hrun.2.2.2, .single ⟨?_, rfl⟩⟩
  decide +kernel

theorem head_is_best_after_checkpoint :
    ((Node.opened Overridden.world).afterAll
      [.importMined 100 Overridden.a₁ ([] : List Nat) none, .finalize (1 : Nat) 1]).BestHead := by
  refine head_is_best_descendant _ ⟨⟨?_, fun b hb => ?_⟩, fun header td _ hl => ?_, trivial⟩
  · have hl : (Node.opened Overridden.world).locate (0 : Nat) = some (mockGenesis, 0, true) := by decide +kernel
    intro parent td canonical hparent
    obtain ⟨rfl, rfl, rfl⟩ : mockGenesis = parent ∧ 0 = td ∧ true = canonical := by
      simpa using hl.symm.trans hparent
    decide
  · have hnone : ((Node.opened Overridden.world).offered 100 Overridden.a₁ ([] : List Nat) none ⟨[], []⟩).isSome =
        false := by decide +kernel
    rw [hb] at hnone
    cases hnone
  · have hcanonical : (((Node.opened Overridden.world).after
        (.importMined 100 Overridden.a₁ ([] : List Nat) none)).locate (1 : Nat)).all (·.2.2) = true := by decide +kernel
    rw [hl] at hcanonical
    cases hcanonical

end Boltchain.Chain
