import Boltchain.Chain.Built
import Boltchain.Chain.Finalized

namespace Boltchain.Chain

open Consensus (Bytes Hash)
open Lib.Action Lib.Journal

variable {W : World}

section Paths

/-- A list of side blocks, oldest first, that leads from block `a` to block `b` by parent links. -/
def Path : Hash → List (SideBlock W) → Hash → Prop
  | a, [], b => a = b
  | a, d :: ds, b => d.header.parentHash = a ∧ Path (W.hash d.header) ds b

variable {n : Node W} {a b c : Hash} {pre post : List (SideBlock W)}

theorem Path.append (h : Path a pre b) (h' : Path b post c) : Path a (pre ++ post) c := by
  induction pre generalizing a with
  | nil => cases h; exact h'
  | cons d pre ih => exact ⟨h.1, ih h.2⟩

variable {d : SideBlock W} {g : Header} {i : Nat}

theorem Path.number (hfollows : ∀ d ∈ pre, ∃ parent, d.header.Follows W parent)
    (h : Path (W.hash g) pre b) (hd : pre[i]? = some d) :
    d.header.number = g.number + i + 1 := by
  induction pre generalizing g i with
  | nil => simp at hd
  | cons e pre ih =>
    obtain ⟨parent, hparent⟩ := hfollows e List.mem_cons_self
    have hg : parent = g := W.hash_inj (hparent.1.symm.trans h.1)
    have he : e.header.number = g.number + 1 := hg ▸ hparent.2
    cases i with
    | zero =>
      obtain rfl : e = d := by simpa using hd
      exact he
    | succ i =>
      have hrest := ih (fun x hx => hfollows x (List.mem_cons_of_mem _ hx)) h.2
        (by simpa using hd)
      omega

theorem Path.hash_ne (hfollows : ∀ d ∈ pre, ∃ parent, d.header.Follows W parent)
    (h : Path (W.hash g) pre b) {j : Nat} {e : SideBlock W} (hd : pre[i]? = some d)
    (he : pre[j]? = some e) (hij : i ≠ j) : W.hash d.header ≠ W.hash e.header := by
  intro heq
  have hnum := congrArg Header.number (W.hash_inj heq)
  rw [h.number hfollows hd, h.number hfollows he] at hnum
  omega

theorem Path.hash_getLast (h : Path a pre b) : ∀ d ∈ pre.getLast?, W.hash d.header = b := by
  induction pre generalizing a with
  | nil => simp
  | cons d pre ih =>
    cases pre with
    | nil =>
      rintro e ⟨⟩
      exact h.2
    | cons e pre => exact ih h.2

theorem Path.hash_ne_of_mem_dropLast (hfollows : ∀ d ∈ pre, ∃ parent, d.header.Follows W parent)
    (h : Path (W.hash g) pre b) (hd : d ∈ pre.dropLast) : W.hash d.header ≠ b := by
  obtain ⟨i, hi⟩ := List.mem_iff_getElem?.1 hd
  rw [List.getElem?_dropLast] at hi
  split at hi
  case isTrue hlt =>
    have hne : pre ≠ [] := by
      rintro rfl
      simp at hlt
    have hlast : pre[pre.length - 1]? = some (pre.getLast hne) := by
      rw [← List.getLast?_eq_getElem?, List.getLast?_eq_some_getLast hne]
    rw [← h.hash_getLast _ (List.getLast?_eq_some_getLast hne)]
    exact h.hash_ne hfollows hi hlast (by omega)
  case isFalse => cases hi

variable {branch : List (SideBlock W)} {fork : Nat}

theorem branchFrom_path {fuel : Nat} {cur : Hash} {acc : List (SideBlock W)}
    (h : n.branchFrom fuel cur acc = .ok (branch, fork)) :
    ∃ pre c, branch = pre ++ acc ∧ c ∈ n.canonical ∧ c.header.number = fork ∧
      Path (W.hash c.header) pre cur ∧ ∀ d ∈ pre, d ∈ n.side := by
  fun_induction Node.branchFrom n fuel cur acc with
  | case1 fuel cur acc hnone =>
    obtain ⟨c, hc, heq⟩ := Option.map_eq_some_iff.1 (orThrow_eq_ok.1 h)
    cases heq
    obtain ⟨hmem, rfl⟩ := Node.mem_of_block hc
    exact ⟨[], c, rfl, hmem, rfl, rfl, by simp⟩
  | case2 => cases h
  | case3 cur acc b hb fuel ih =>
    obtain ⟨pre, c, rfl, hmem, hfork, hpath, hside⟩ := ih h
    obtain ⟨hbmem, rfl⟩ := Node.mem_of_sideBlock hb
    refine ⟨pre ++ [b], c, by simp, hmem, hfork, hpath.append ⟨rfl, rfl⟩, ?_⟩
    intro d hd
    rcases List.mem_append.1 hd with hd | hd
    · exact hside d hd
    · cases List.mem_singleton.1 hd
      exact hbmem

theorem branchTo_path {tip : Hash}
    (h : n.branchTo tip = .ok (branch, fork)) :
    ∃ c, c ∈ n.canonical ∧ c.header.number = fork ∧ Path (W.hash c.header) branch tip ∧
      ∀ d ∈ branch, d ∈ n.side := by
  obtain ⟨pre, c, rfl, hmem, hfork, hpath, hside⟩ := branchFrom_path h
  rw [List.append_nil]
  exact ⟨c, hmem, hfork, hpath, hside⟩

end Paths

namespace Built

variable {l : List (StoredBlock W)} {s : W.State}

theorem descends (h : Built l s) : l.Pairwise fun b c => c.header.number < b.header.number := by
  have : IsTrans (StoredBlock W) fun b c => c.header.number < b.header.number :=
    ⟨fun _ _ _ h₁ h₂ => h₂.trans h₁⟩
  refine List.isChain_iff_pairwise.1 (h.linked.imp fun b c hbc => ?_)
  have := hbc.2
  omega

theorem append_inj {base extra extra' rest : List (StoredBlock W)} {fork : Nat}
    (h : extra' ++ rest = extra ++ base) (habove : ∀ b ∈ extra, fork < b.header.number)
    (habove' : ∀ b ∈ extra', fork < b.header.number) (hbase : ∀ b ∈ base.head?, b.header.number ≤ fork)
    (hrest : ∀ b ∈ rest.head?, b.header.number ≤ fork) : extra' = extra ∧ rest = base := by
  rcases List.append_eq_append_iff.1 h with ⟨t, rfl, rfl⟩ | ⟨t, rfl, rfl⟩
  · cases t with
    | nil => simp
    | cons b t =>
      have hle := hrest b (by simp)
      have hlt := habove b (by simp)
      omega
  · cases t with
    | nil => simp
    | cons b t =>
      have hle := hbase b (by simp)
      have hlt := habove' b (by simp)
      omega

end Built

section Reimport

/-- Undone blocks come back one by one, with the chain and state they had. -/
theorem reimport_ok {l : List (StoredBlock W)} {n : Node W} {s : W.State} (hn : Built n.canonical n.state)
    (hfull : Built (l.reverse ++ n.canonical) s) (hpending : n.pending = []) :
    ∃ n', reimport (l.map StoredBlock.toSide) n = .ok () n' ∧ n'.canonical = l.reverse ++ n.canonical ∧
      n'.state = s ∧ n'.pending = [] ∧ n'.finalized = n.finalized ∧
      ∀ b, b ∈ n'.side ↔ b ∈ n.side ∧ ∀ o ∈ l, W.hash b.header ≠ W.hash o.header ∧
        o.header.number - maxReorgDepth < b.header.number := by
  induction l generalizing n with
  | nil =>
    exact ⟨n, rfl, rfl, hn.unique hfull, hpending, rfl, by simp⟩
  | cons o l ih =>
    rw [List.reverse_cons, List.append_assoc, List.singleton_append] at hfull
    obtain ⟨s₁, hs₁⟩ := hfull.suffix (List.suffix_append _ _) (List.cons_ne_nil o n.canonical)
    obtain ⟨p, s', hs', hp, ho, hwrite⟩ := Built.cons_inv hs₁
    obtain rfl : n.state = s' := hn.unique hs'
    let n₁ := n.removeSide (W.hash o.header)
    have hfresh : n₁.pendingBlock (W.hash p.header) = none := by
      show List.find? _ n.pending = none
      rw [hpending]
      rfl
    have hparent : p.header.parentHash = W.hash n₁.head := (verifyBlock_bare_follows hp).1
    have hverify : n₁.verifyBlock p.header p.transactions p.certs = .ok p := by
      rw [Node.verifyBlock_eq_bare (n := n₁) hn hparent hfresh]
      exact hp
    have himport : importFinal o.toSide.header o.toSide.transactions o.toSide.root o.toSide.cert n₁ =
        .ok (W.hash p.header) (n₁.push p) := by
      rw [ho]
      exact importFinal_ok hparent hverify (by rintro r ⟨⟩; rfl) (verifyBlock_bare_stateRoot hp)
    have hcanon : (n₁.push p).canonical = o :: n.canonical := by
      rw [ho]
      rfl
    have hstate : (n₁.push p).state = s₁ := hwrite.symm
    have hpend : (n₁.push p).pending = [] := by
      show List.filter _ n.pending = []
      rw [hpending]
      rfl
    obtain ⟨n', hrun, hcanon', hstate', hpend', hfin', hside'⟩ :=
      ih (hcanon ▸ hstate ▸ hs₁) (hcanon ▸ hfull) hpend
    refine ⟨n', ?_, ?_, hstate', hpend', hfin', fun b => ?_⟩
    · rw [List.map_cons, reimport, modify_bind]
      exact (bind_of_ok himport).trans hrun
    · rw [hcanon', hcanon]
      simp
    · have honum : o.header.number = p.header.number := by rw [ho]; rfl
      rw [hside', List.forall_mem_cons, honum]
      simp only [Node.push, n₁, Node.removeSide, List.mem_filter, bne_iff_ne, ne_eq, decide_eq_true_eq]
      tauto

end Reimport

section RollBack

variable {n : Node W} {number : Nat}

theorem unwindTo_of_le (h : n.head.number ≤ number) :
    unwindTo number n = .ok [] { n with pending := [] } := by
  have hunwind : Node.unwind number n.below { n with pending := [] } [] = .ok ({ n with pending := [] }, []) := by
    unfold Node.unwind
    exact if_pos h
  rw [unwindTo, modify_bind, get_bind, lift_bind hunwind]
  rfl

variable {removed : List (StoredBlock W)}

theorem Unwound.built {n' : Node W}
    (h : Unwound number n n' removed) (hn : Built n.canonical n.state) : Built n'.canonical n'.state := by
  by_cases hnil : removed = []
  · rw [h.same hnil]
    exact hn
  · obtain ⟨s, hs⟩ := hn.suffix ⟨removed, h.canonical.symm⟩ (List.cons_ne_nil n'.tip n'.below)
    have hstate : n'.state = s := W.stateRoot_inj ((h.stateRoot hnil).trans hs.stateRoot.symm)
    rw [hstate]
    exact hs

theorem mem_foldl_removeSide {blocks : List (SideBlock W)} {b : SideBlock W} :
    b ∈ (blocks.foldl (fun n d => n.removeSide (W.hash d.header)) n).side ↔
      b ∈ n.side ∧ ∀ d ∈ blocks, W.hash b.header ≠ W.hash d.header := by
  induction blocks generalizing n with
  | nil => simp
  | cons d blocks ih =>
    rw [List.foldl_cons, ih, List.forall_mem_cons]
    simp only [Node.removeSide, List.mem_filter, bne_iff_ne, ne_eq]
    tauto

/-- What a roll-back does, on a chain whose blocks `extra` above the fork are to be undone and whose
blocks `removed` were there before: it brings the old chain back, or fails to undo `extra`. -/
theorem rollBack_spec {n₃ : Node W} {fork : Nat} {base extra : List (StoredBlock W)}
    (invalid : List (SideBlock W)) (hn : Built n.canonical n.state) (hcanon : n.canonical = removed ++ base)
    (hbase : ∀ b ∈ base.head?, b.header.number ≤ fork) (h₃ : Built n₃.canonical n₃.state)
    (hcanon₃ : n₃.canonical = extra ++ base) (habove : ∀ b ∈ extra, fork < b.header.number) :
    Ends (rollBack fork (removed.map StoredBlock.toSide).reverse invalid) n₃
      (fun _ n' => n'.canonical = n.canonical ∧ n'.state = n.state ∧ n'.pending = [] ∧
        n'.finalized = n₃.finalized ∧
        ∀ b, b ∈ n'.side ↔ b ∈ n₃.side ∧ (∀ d ∈ invalid, W.hash b.header ≠ W.hash d.header) ∧
          ∀ o ∈ removed, W.hash b.header ≠ W.hash o.header ∧
            o.header.number - maxReorgDepth < b.header.number)
      (fun _ n' => extra ≠ [] ∧ n'.canonical = n₃.canonical) := by
  let n₄ := invalid.foldl (fun n d => n.removeSide (W.hash d.header)) n₃
  have hframe : n₄ = { n₃ with side := n₄.side } := foldl_removeSide n₃ invalid
  have hcanon₄ : n₄.canonical = extra ++ base := by rw [hframe]; exact hcanon₃
  have h₄ : Built n₄.canonical n₄.state := by rw [hframe]; exact h₃
  have hunwind : Ends (unwindTo fork) n₄
      (fun _ n₅ => n₅.canonical = base ∧ Built n₅.canonical n₅.state ∧ n₅.pending = [] ∧
        n₅.finalized = n₃.finalized ∧ n₅.side = n₄.side)
      (fun _ n' => extra ≠ [] ∧ n'.canonical = n₃.canonical) := by
    by_cases hnil : extra = []
    · have hle : n₄.head.number ≤ fork := by
        refine hbase n₄.tip ?_
        rw [hnil, List.nil_append] at hcanon₄
        rw [← hcanon₄]
        rfl
      unfold Ends
      rw [unwindTo_of_le hle]
      refine ⟨by rw [← List.nil_append base, ← hnil]; exact hcanon₄, h₄, rfl, ?_, rfl⟩
      show n₄.finalized = n₃.finalized
      rw [hframe]
    · refine (unwindTo_spec n₄ fork).mono ?_ ?_
      · rintro _ n₅ ⟨removed', hu, -⟩
        have hinj := Built.append_inj (hu.canonical.symm.trans hcanon₄) habove hu.above hbase
          (fun b hb => by cases hb; exact hu.le)
        refine ⟨hinj.2, hu.built h₄, by rw [hu.frame], ?_, by rw [hu.frame]⟩
        rw [hu.frame]
        show n₄.finalized = n₃.finalized
        rw [hframe]
      · rintro _ _ rfl
        refine ⟨hnil, ?_⟩
        show n₄.canonical = n₃.canonical
        rw [hframe]
        rfl
  unfold rollBack
  refine Ends.bind ?_
  show Ends _ n₄ _ _
  refine Ends.bind (hunwind.mono ?_ fun _ _ h => h)
  rintro _ n₅ ⟨hcanon₅, hbuilt₅, hpending₅, hfin₅, hside₅⟩
  have hfull : Built (removed.reverse.reverse ++ n₅.canonical) n.state := by
    rw [List.reverse_reverse, hcanon₅, ← hcanon]
    exact hn
  obtain ⟨n', hrun, hcanon', hstate', hpend', hfin', hside'⟩ := reimport_ok hbuilt₅ hfull hpending₅
  unfold Ends
  rw [← List.map_reverse, hrun]
  refine ⟨?_, hstate', hpend', hfin'.trans hfin₅, fun b => ?_⟩
  · rw [hcanon', List.reverse_reverse, hcanon₅, hcanon]
  · rw [hside', hside₅, mem_foldl_removeSide, and_assoc]
    simp only [List.mem_reverse]

end RollBack

section Adopt

/-- A side block that is valid: it verifies on some verified chain, under the envelope it was
announced with. -/
def SideBlock.Valid (b : SideBlock W) : Prop :=
  ∃ tip below state p, Built (tip :: below) state ∧
    (Node.bare tip below state).verifyBlock b.header b.transactions b.cert = .ok p ∧ ∀ r ∈ b.root, r = p.root

variable {n : Node W}

theorem importFinal_built (hn : Built n.canonical n.state) (hpending : n.pending = [])
    (b : SideBlock W) :
    Ends (importFinal b.header b.transactions b.root b.cert) n
      (fun _ n' => ∃ p, p.header = b.header ∧ n' = n.push p ∧ Built n'.canonical n'.state ∧ b.Valid ∧
        b.header.parentHash = W.hash n.head)
      (fun _ n' => ∃ pending, n' = { n with pending }) := by
  have hfresh : n.pendingBlock (W.hash b.header) = none := by
    rw [Node.pendingBlock, hpending]
    rfl
  refine (importFinal_spec n b.header b.transactions b.root b.cert).mono ?_ ?_
  · rintro _ _ ⟨p, hp, hparent, hroot, -, rfl⟩
    refine ⟨p, Node.verifyBlock_header hp, rfl, Node.built_push hn hparent hfresh hp, ?_, hparent⟩
    rw [Node.verifyBlock_eq_bare hn hparent hfresh] at hp
    exact ⟨n.tip, n.below, n.state, p, hn, hp, hroot⟩
  · rintro _ _ (rfl | ⟨p, -, rfl | rfl⟩)
    · exact ⟨_, rfl⟩
    · exact ⟨_, rfl⟩
    · exact ⟨_, rfl⟩

/-- Where a switch stands when it fails: `pre` was imported, the next block was not. -/
structure Stuck (n n₂ : Node W) (pre : List (SideBlock W)) (extra : List (StoredBlock W)) : Prop where
  built : Built n₂.canonical n₂.state
  canonical : n₂.canonical = extra ++ n.canonical
  headers : extra.map StoredBlock.header = (pre.map SideBlock.header).reverse
  finalized : n₂.finalized = n.finalized
  side : ∀ b ∈ n₂.side, b ∈ n.side ∧ ∀ d ∈ pre, W.hash b.header ≠ W.hash d.header
  same : pre = [] → n₂.side = n.side ∧ n₂.tip = n.tip ∧ n₂.below = n.below ∧ n₂.state = n.state
  valid : ∀ b ∈ pre.head?, b.Valid

theorem adopt_error {fork : Nat} {undone branch : List (SideBlock W)} {n' : Node W} {e : ChainError}
    (hn : Built n.canonical n.state) (hpending : n.pending = [])
    (h : adopt fork undone branch n = .error e n') :
    ∃ pre bad post n₂ extra e₀, branch = pre ++ bad :: post ∧ Stuck n n₂ pre extra ∧
      (rollBack fork undone (bad :: post) >>= fun _ => (throw e₀ : Act W Unit)) n₂ = .error e n' := by
  induction branch generalizing n with
  | nil => cases h
  | cons b branch ih =>
    have himport := importFinal_built hn hpending b
    unfold adopt at h
    cases hm : importFinal b.header b.transactions b.root b.cert n with
    | error e₀ n₂ =>
      rw [hm] at h
      obtain ⟨pending, rfl⟩ := Ends.of_error himport hm
      exact ⟨[], b, branch, { n with pending }, [], e₀, rfl,
        ⟨hn, rfl, rfl, rfl, fun c hc => ⟨hc, by simp⟩, fun _ => ⟨rfl, rfl, rfl, rfl⟩, by simp⟩, h⟩
    | ok a n₁ =>
      rw [hm] at h
      obtain ⟨p, hheader, rfl, hbuilt, hvalid, -⟩ := Ends.of_ok himport hm
      have hpend : ((n.push p).removeSide (W.hash b.header)).pending = [] := by
        show List.filter _ n.pending = []
        rw [hpending]
        rfl
      obtain ⟨pre, bad, post, n₂, extra, e₀, rfl, hstuck, hroll⟩ := ih (n := (n.push p).removeSide (W.hash b.header)) hbuilt hpend h
      refine ⟨b :: pre, bad, post, n₂, extra ++ [p.stored n.tip.td], e₀, rfl, ?_, hroll⟩
      refine ⟨hstuck.built, ?_, ?_, hstuck.finalized, fun c hc => ?_, by simp, ?_⟩
      · rw [hstuck.canonical, List.append_assoc]
        rfl
      · rw [List.map_append, hstuck.headers, List.map_cons, List.map_cons, List.reverse_cons]
        exact congrArg (fun x => (pre.map SideBlock.header).reverse ++ [x]) hheader
      · obtain ⟨hc, hpre⟩ := hstuck.side c hc
        simp only [Node.removeSide, Node.push, List.mem_filter, bne_iff_ne, ne_eq] at hc
        exact ⟨hc.1.1, List.forall_mem_cons.2 ⟨hc.2, hpre⟩⟩
      · rintro c ⟨⟩
        exact hvalid

end Adopt

end Boltchain.Chain
