import Boltchain.Storage.Service

namespace Boltchain.Storage

open Consensus (Bytes Hash)

/-- The snapshots that go when the one being taken is recorded, and those that stay. -/
def SnapshotJob.split {Cid : Type} (j : SnapshotJob Cid) : List Cid × List Cid :=
  let all := j.existing ++ [j.root]
  (all.take (all.length - keepSnapshots), all.drop (all.length - keepSnapshots))

variable {Cid : Type} [DecidableEq Cid] {K : Contents Cid} {r : Rules} {keccak256 : Bytes → Hash}

namespace Service

variable (K : Contents Cid) (r : Rules) (keccak256 : Bytes → Hash) (s : Service Cid)

def bodyChunks (h : Nat) : List Cid := ((s.envelopes h).bind K.envelope).getD []

/-- What the node must keep is there: the blocks of the deals it keeps and holds an open copy of, and the chunks of
the bodies that were not pruned. -/
structure Intact : Prop where
  deals : ∀ d root, (d, root) ∈ s.kept → s.view.live r d = true → ∀ c ∈ K.dealBlocks root, c ∈ s.store
  bodies : ∀ h, s.bodies h = true → ∀ c ∈ s.bodyChunks K h, c ∈ s.store

def InDeal (c : Cid) : Prop :=
  (∃ d root, (d, root) ∈ s.kept ∧ c ∈ K.dealBlocks root) ∨ ∃ j, s.dealJob = some j ∧ c ∈ K.dealBlocks j.root

def InBody (pruned : List Nat) (c : Cid) : Prop := ∃ h ∉ pruned, s.bodies h = true ∧ c ∈ s.bodyChunks K h

/-- The moves that delete nothing that is shared: no body chunk of the epoch that is pruned next, and no root or chunk
of a snapshot that goes, is also a block of a deal or a chunk of another body. -/
def Spares : Move Cid → Prop
  | .pruneNext _ => ∀ j, s.pruneJob = some j → s.prunes keccak256 j = true → ∀ h ∈ r.heights j.next,
      s.bodies h = true → ∀ c ∈ s.bodyChunks K h, ¬s.InDeal K c ∧ ¬s.InBody K (r.heights j.next) c
  | .snapshotFinish => ∀ j, s.snapshotJob = some j → ∀ old ∈ j.split.1,
      ∀ c ∈ old :: ((K.snapshot old).map Snapshot.chunks).getD [],
        c ∉ keptChunks K s.store j.split.2 ∨ c = old → ¬s.InDeal K c ∧ ¬s.InBody K [] c
  | _ => True

def SparesRun (s : Service Cid) : List (Move Cid) → Prop
  | [] => True
  | m :: moves => s.Spares K r keccak256 m ∧ (s.step K r keccak256 m).SparesRun moves

end Service

namespace Stage

def requested (root : Cid) : Stage Cid → List Cid
  | .root => [root]
  | .groups idx => idx.groups
  | .leaves _ list => list

def secured (root : Cid) : Stage Cid → List Cid
  | .root => []
  | .groups _ => [root]
  | .leaves idx _ => root :: idx.groups

def Reads (K : Contents Cid) (root : Cid) : Stage Cid → Prop
  | .root => True
  | .groups idx => K.decodeDeal root = some idx
  | .leaves idx list => K.decodeDeal root = some idx ∧ list = idx.groups.flatMap K.members

variable {root c : Cid} {stage : Stage Cid}

theorem requested_mem (h : stage.Reads K root) (hc : c ∈ stage.requested root) : c ∈ K.dealBlocks root := by
  unfold Contents.dealBlocks
  cases stage with
  | root => exact List.mem_cons.2 (.inl (List.mem_singleton.1 hc))
  | groups idx =>
    rw [show K.decodeDeal root = some idx from h]
    exact List.mem_cons_of_mem _ (List.mem_append_left _ hc)
  | leaves idx list =>
    rw [h.1]
    exact List.mem_cons_of_mem _ (List.mem_append_right _ (h.2 ▸ hc))

theorem secured_mem (h : stage.Reads K root) (hc : c ∈ stage.secured root) : c ∈ K.dealBlocks root := by
  unfold Contents.dealBlocks
  cases stage with
  | root => cases hc
  | groups idx => exact List.mem_cons.2 (.inl (List.mem_singleton.1 hc))
  | leaves idx list =>
    rw [h.1]
    rcases List.mem_cons.1 hc with rfl | hc
    · exact List.mem_cons_self
    · exact List.mem_cons_of_mem _ (List.mem_append_left _ hc)

theorem dealBlocks_of_leaves {idx : DealIndex Cid} {list : List Cid} (h : (Stage.leaves idx list).Reads K root)
    (hc : c ∈ K.dealBlocks root) : c ∈ (Stage.leaves idx list).secured root ∨ c ∈ list := by
  unfold Contents.dealBlocks at hc
  rw [h.1] at hc
  rcases List.mem_cons.1 hc with rfl | hc
  · exact .inl List.mem_cons_self
  · rcases List.mem_append.1 hc with hc | hc
    · exact .inl (List.mem_cons_of_mem _ hc)
    · exact .inr (h.2 ▸ hc)

end Stage

structure DealJob.Sound (K : Contents Cid) (store : Finset Cid) (j : DealJob Cid) : Prop where
  reads : j.stage.Reads K j.root
  secured : ∀ c ∈ j.stage.secured j.root, c ∈ store
  out : ∀ c ∈ j.out, c ∈ j.stage.requested j.root ∧ c ∈ store
  missing : ∀ c ∈ j.missing, c ∈ j.stage.requested j.root

variable {store : Finset Cid}

theorem DealJob.Sound.mono {j : DealJob Cid} {store' : Finset Cid} (h : j.Sound K store) (hsub : store ⊆ store') :
    j.Sound K store' :=
  ⟨h.reads, fun c hc => hsub (h.secured c hc), fun c hc => ⟨(h.out c hc).1, hsub (h.out c hc).2⟩, h.missing⟩

theorem DealJob.Sound.request {deal : Nat} {root : Cid} {stage : Stage Cid}
    (hreads : stage.Reads K root) (hsecured : ∀ c ∈ stage.secured root, c ∈ store) :
    (DealJob.request deal root stage store (stage.requested root)).Sound K store where
  reads := hreads
  secured := hsecured
  out c hc := by simpa [DealJob.request] using hc
  missing c hc := List.mem_of_mem_filter hc

namespace Service

variable {s s' : Service Cid}

/-- What must be kept is there, also of the deals whose copies are closed, and of the deal that is being fetched. -/
structure Sound (K : Contents Cid) (s : Service Cid) : Prop where
  deals : ∀ d root, (d, root) ∈ s.kept → ∀ c ∈ K.dealBlocks root, c ∈ s.store
  bodies : ∀ h, s.bodies h = true → ∀ c ∈ s.bodyChunks K h, c ∈ s.store
  job : ∀ j, s.dealJob = some j → j.Sound K s.store

theorem Sound.intact (h : s.Sound K) : s.Intact K r :=
  ⟨fun d root hk _ => h.deals d root hk, h.bodies⟩

theorem Sound.of_keeps (h : s.Sound K) (hkept : ∀ k ∈ s'.kept, k ∈ s.kept)
    (hbodies : ∀ n, s'.bodies n = true → s.bodies n = true ∧ s'.envelopes n = s.envelopes n)
    (hjob : ∀ j, s'.dealJob = some j → s.dealJob = some j)
    (hdeal : ∀ c ∈ s.store, s.InDeal K c → c ∈ s'.store)
    (hbody : ∀ n c, s'.bodies n = true → c ∈ s.bodyChunks K n → c ∈ s.store → c ∈ s'.store) : s'.Sound K where
  deals d root hk c hc := hdeal c (h.deals d root (hkept _ hk) c hc) (.inl ⟨d, root, hkept _ hk, hc⟩)
  bodies n hn c hc := by
    obtain ⟨hb, henv⟩ := hbodies n hn
    have hc : c ∈ s.bodyChunks K n := by
      unfold bodyChunks at hc ⊢
      rwa [henv] at hc
    exact hbody n c hn hc (h.bodies n hb c hc)
  job j hj := by
    have hj' := hjob j hj
    have hold := h.job j hj'
    refine ⟨hold.reads, fun c hc => ?_, fun c hc => ⟨(hold.out c hc).1, ?_⟩, hold.missing⟩
    · exact hdeal c (hold.secured c hc) (.inr ⟨j, hj', Stage.secured_mem hold.reads hc⟩)
    · exact hdeal c (hold.out c hc).2 (.inr ⟨j, hj', Stage.requested_mem hold.reads (hold.out c hc).1⟩)

theorem Sound.grow (h : s.Sound K) (hkept : s'.kept = s.kept) (hbodies : s'.bodies = s.bodies)
    (henv : s'.envelopes = s.envelopes) (hjob : ∀ j, s'.dealJob = some j → s.dealJob = some j)
    (hstore : s.store ⊆ s'.store) : s'.Sound K :=
  h.of_keeps (fun _ hk => hkept ▸ hk) (fun _ hn => ⟨hbodies ▸ hn, by rw [henv]⟩) hjob (fun _ hc _ => hstore hc)
    fun _ _ _ _ hc => hstore hc

section Deals

theorem Sound.with_job (h : s.Sound K) {store : Finset Cid} {job : Option (DealJob Cid)} (hstore : s.store ⊆ store)
    (hjob : ∀ j, job = some j → j.Sound K store) : Sound K { s with store, dealJob := job } where
  deals d root hk c hc := hstore (h.deals d root hk c hc)
  bodies n hn c hc := hstore (h.bodies n hn c hc)
  job := hjob

theorem Sound.give_up (h : s.Sound K) : Sound K { s with dealJob := none } :=
  h.with_job (Finset.Subset.refl _) fun _ hj => (by cases hj)

theorem Sound.dealStart (h : s.Sound K) (d : Nat) : (s.dealStart r d).Sound K := by
  unfold Service.dealStart
  split
  · exact h
  · split
    · exact h
    · rename_i root _
      refine h.with_job (Finset.Subset.refl _) fun j hj => ?_
      obtain rfl := Option.some_inj.1 hj
      have hreads : (Stage.root : Stage Cid).Reads K root := trivial
      exact .request hreads fun c hc => (by cases hc)

omit [DecidableEq Cid] in
theorem flatten_of_mapM {gs : List Cid} {lists : List (List Cid)} (h : gs.mapM K.group = some lists) :
    lists.flatten = gs.flatMap K.members := by
  induction gs generalizing lists with
  | nil =>
    cases h
    rfl
  | cons g gs ih =>
    rw [List.mapM_cons] at h
    obtain ⟨l, hl, h⟩ := Option.bind_eq_some_iff.1 h
    obtain ⟨ls, hls, h⟩ := Option.bind_eq_some_iff.1 h
    cases h
    rw [List.flatten_cons, List.flatMap_cons, ih hls, Contents.members, hl, Option.getD_some]

/-- A stage that is complete is followed by the next one, and the last by a kept deal. -/
theorem Sound.dealAdvance (h : s.Sound K) {j : DealJob Cid} (hj : j.Sound K s.store) : (s.dealAdvance K j).Sound K := by
  obtain ⟨deal, root, stage, out, missing⟩ := j
  unfold Service.dealAdvance
  cases stage with
  | root =>
    dsimp only
    split
    case h_1 => exact h.give_up
    case h_2 idx hidx =>
      obtain ⟨hroot, hidx⟩ : root ∈ out ∧ K.decodeDeal root = some idx := by simpa using hidx
      refine h.with_job (Finset.Subset.refl _) fun j' hj' => ?_
      obtain rfl := Option.some_inj.1 hj'
      have hreads : (Stage.groups idx).Reads K root := hidx
      refine .request hreads fun c hc => ?_
      exact List.mem_singleton.1 hc ▸ (hj.out root hroot).2
  | groups idx =>
    dsimp only
    split
    case h_1 => exact h.give_up
    case h_2 lists hlists =>
      obtain ⟨hall, hlists⟩ : (∀ g ∈ idx.groups, g ∈ out) ∧ idx.groups.mapM K.group = some lists := by
        simpa using hlists
      split
      · exact h.give_up
      · refine h.with_job (Finset.Subset.refl _) fun j' hj' => ?_
        obtain rfl := Option.some_inj.1 hj'
        have hreads : (Stage.leaves idx lists.flatten).Reads K root := ⟨hj.reads, flatten_of_mapM hlists⟩
        refine .request hreads fun c hc => ?_
        rcases List.mem_cons.1 hc with rfl | hc
        · exact hj.secured _ List.mem_cons_self
        · exact (hj.out c (hall c hc)).2
  | leaves idx list =>
    dsimp only
    split
    case isTrue => exact h.give_up
    case isFalse hcard =>
      -- what is there is requested, so that as many are all of them
      have hsub : out ⊆ list.toFinset := fun c hc => List.mem_toFinset.2 (hj.out c hc).1
      have hout : out = list.toFinset := Finset.eq_of_subset_of_card_le hsub (Nat.le_of_not_lt hcard)
      refine ⟨fun d x hk c hc => ?_, h.bodies, fun _ hj' => (by cases hj')⟩
      rcases List.mem_cons.1 hk with heq | hk
      · cases heq
        rcases Stage.dealBlocks_of_leaves hj.reads hc with hc | hc
        · exact hj.secured c hc
        · exact (hj.out c (by rw [hout]; exact List.mem_toFinset.2 hc)).2
      · exact h.deals d x (List.mem_of_mem_filter hk) c hc

theorem Sound.dealGo (h : s.Sound K) (answer : Option (List Cid)) : (s.dealGo K answer).Sound K := by
  unfold Service.dealGo
  cases hjob : s.dealJob with
  | none => exact h
  | some j =>
    have hj := h.job j hjob
    dsimp only
    split
    · exact h.dealAdvance hj
    · cases answer with
      | none => exact h.give_up
      | some blocks =>
        refine h.with_job Finset.subset_union_left fun j' hj' => ?_
        obtain rfl := Option.some_inj.1 hj'
        have hmono : j.Sound K (s.store ∪ (blocks.filter (· ∈ j.missing.take fetchBatch)).toFinset) :=
          hj.mono Finset.subset_union_left
        refine ⟨hj.reads, hmono.secured, fun c hc => ?_, fun c hc => hj.missing c (List.mem_of_mem_drop hc)⟩
        rcases Finset.mem_union.1 hc with hc | hc
        · exact hmono.out c hc
        · have hbatch : c ∈ j.missing.take fetchBatch := by
            have := (List.mem_filter.1 (List.mem_toFinset.1 hc)).2
            simpa using this
          exact ⟨hj.missing c (List.mem_of_mem_take hbatch), Finset.mem_union_right _ hc⟩

end Deals

section Prune

/-- What pruning blocks changes: their bodies go, and of the blockstore no more than their chunks. -/
structure Prunes (K : Contents Cid) (hs : List Nat) (s s' : Service Cid) : Prop where
  bodies : ∀ n, s'.bodies n = true ↔ s.bodies n = true ∧ n ∉ hs
  store : ∀ c ∈ s.store, (∀ n ∈ hs, s.bodies n = true → c ∉ s.bodyChunks K n) → c ∈ s'.store
  frame : s' = { s with store := s'.store, bodies := s'.bodies }

theorem pruneBlock_prunes (s : Service Cid) (n : Nat) : Prunes K [n] s (s.pruneBlock K n) := by
  unfold pruneBlock
  split
  case isTrue hbody =>
    refine ⟨fun m => ?_, fun c hc hspare => ?_, rfl⟩
    · by_cases hm : m = n
      · simp [hm]
      · simp [Function.update_of_ne hm, hm]
    · refine Finset.mem_sdiff.2 ⟨hc, fun hmem => hspare n List.mem_cons_self hbody ?_⟩
      have hmem := List.mem_toFinset.1 hmem
      unfold bodyChunks
      cases henv : s.envelopes n with
      | none =>
        rw [henv] at hmem
        exact hmem
      | some root =>
        rw [henv, Option.bind_some, read] at hmem
        split at hmem
        · exact hmem
        · cases hmem
  case isFalse hnone =>
    refine ⟨fun m => ⟨fun hm => ⟨hm, fun hmem => ?_⟩, fun hm => hm.1⟩, fun c hc _ => hc, rfl⟩
    rw [List.mem_singleton.1 hmem] at hm
    exact hnone hm

theorem Prunes.trans {hs hs' : List Nat} {s s' s'' : Service Cid} (h : Prunes K hs s s') (h' : Prunes K hs' s' s'') :
    Prunes K (hs ++ hs') s s'' where
  bodies n := by
    rw [h'.bodies, h.bodies, List.mem_append, not_or, and_assoc]
  store c hc hspare := by
    refine h'.store c (h.store c hc fun n hn => hspare n (List.mem_append_left _ hn)) fun n hn hbody => ?_
    have hsame : s'.bodyChunks K n = s.bodyChunks K n := by
      unfold bodyChunks
      rw [h.frame]
    rw [hsame]
    exact hspare n (List.mem_append_right _ hn) ((h.bodies n).1 hbody).1
  frame := by
    rw [h'.frame, h.frame]

theorem foldl_pruneBlock_prunes (hs : List Nat) (s : Service Cid) : Prunes K hs s (hs.foldl (pruneBlock K) s) := by
  induction hs generalizing s with
  | nil => exact ⟨fun n => by simp, fun c hc _ => hc, rfl⟩
  | cons n hs ih => exact (pruneBlock_prunes s n).trans (ih (s.pruneBlock K n))

theorem Sound.pruneEpoch (h : s.Sound K) {e : Nat} (hspares : ∀ n ∈ r.heights e, s.bodies n = true →
    ∀ c ∈ s.bodyChunks K n, ¬s.InDeal K c ∧ ¬s.InBody K (r.heights e) c) : (s.pruneEpoch K r e).Sound K := by
  have hp : Prunes K (r.heights e) s (s.pruneEpoch K r e) := foldl_pruneBlock_prunes (r.heights e) s
  have hframe := hp.frame
  refine h.of_keeps (fun k hk => ?_) (fun n hn => ⟨((hp.bodies n).1 hn).1, by rw [hframe]⟩) (fun j hj => ?_)
    (fun c hc hdeal => hp.store c hc fun n hn hbody hmem => (hspares n hn hbody c hmem).1 hdeal)
    fun n c hn hc hstored => hp.store c hstored fun m hm hbody hmem => (hspares m hm hbody c hmem).2
      ⟨n, ((hp.bodies n).1 hn).2, ((hp.bodies n).1 hn).1, hc⟩
  · rw [hframe] at hk
    exact hk
  · rw [hframe] at hj
    exact hj

theorem Sound.pruneNext (h : s.Sound K) (answer : Option (List Cid))
    (hspares : s.Spares K r keccak256 (.pruneNext answer)) : (s.pruneNext K r keccak256 answer).Sound K := by
  unfold Service.pruneNext
  cases hjob : s.pruneJob with
  | none => exact h
  | some j =>
    have hsame : ∀ {s' : Service Cid}, s'.kept = s.kept → s'.bodies = s.bodies → s'.envelopes = s.envelopes →
        s'.dealJob = s.dealJob → s.store ⊆ s'.store → s'.Sound K :=
      fun hk hb he hd hs => h.grow hk hb he (fun _ hj => hd ▸ hj) hs
    dsimp only
    split
    · exact hsame rfl rfl rfl rfl (Finset.Subset.refl _)
    · rename_i hindex
      split
      · split
        · exact hsame rfl rfl rfl rfl (Finset.Subset.refl _)
        · exact hsame rfl rfl rfl rfl Finset.subset_union_left
      · rename_i hassigned
        split
        · exact hsame rfl rfl rfl rfl (Finset.Subset.refl _)
        · rename_i hpruned
          have hprunes : s.prunes keccak256 j = true := by
            simp only [Service.prunes, hindex, hassigned, hpruned]
            rfl
          have hdone := h.pruneEpoch (hspares j hjob hprunes)
          exact hdone.grow rfl rfl rfl (fun _ hj => hj) (Finset.Subset.refl _)

end Prune

section Snapshots

variable {c : Cid} {keep : List Cid} {store : Finset Cid}

theorem mem_dropSnapshot {old : Cid} (hc : c ∈ store) (hne : c ≠ old)
    (hspare : c ∈ ((K.snapshot old).map Snapshot.chunks).getD [] → c ∈ keep) : c ∈ dropSnapshot K keep store old := by
  refine Finset.mem_erase.2 ⟨hne, Finset.mem_sdiff.2 ⟨hc, fun hmem => ?_⟩⟩
  obtain ⟨hchunk, hkeep⟩ := List.mem_filter.1 (List.mem_toFinset.1 hmem)
  have hkeep : c ∉ keep := by simpa using hkeep
  unfold read at hchunk
  split at hchunk
  · exact hkeep (hspare hchunk)
  · cases hchunk

theorem mem_foldl_dropSnapshot {old : List Cid} (hc : c ∈ store)
    (hspare : ∀ x ∈ old, c ≠ x ∧ (c ∈ ((K.snapshot x).map Snapshot.chunks).getD [] → c ∈ keep)) :
    c ∈ old.foldl (dropSnapshot K keep) store := by
  induction old generalizing store with
  | nil => exact hc
  | cons x old ih =>
    obtain ⟨hne, hchunk⟩ := hspare x List.mem_cons_self
    exact ih (mem_dropSnapshot hc hne hchunk) fun y hy => hspare y (List.mem_cons_of_mem x hy)

theorem Sound.snapshotFinish (h : s.Sound K) (hspares : s.Spares K r keccak256 .snapshotFinish) :
    (s.snapshotFinish K).Sound K := by
  unfold Service.snapshotFinish
  split
  case h_2 => exact h
  case h_1 existing root hjob =>
    have hkeep : ∀ c ∈ s.store, s.InDeal K c ∨ s.InBody K [] c →
        c ∈ ((SnapshotJob.split ⟨existing, root, []⟩).1.foldl
          (dropSnapshot K (keptChunks K s.store (SnapshotJob.split ⟨existing, root, []⟩).2)) s.store) := by
      intro c hc hneed
      refine mem_foldl_dropSnapshot hc fun x hx => ?_
      have hspared := hspares _ hjob x hx
      have hno : ¬(¬s.InDeal K c ∧ ¬s.InBody K [] c) := fun hboth => hneed.elim hboth.1 hboth.2
      refine ⟨fun heq => hno (hspared c (heq ▸ List.mem_cons_self) (.inr heq)), fun hchunk => ?_⟩
      by_contra hnot
      exact hno (hspared c (List.mem_cons_of_mem x hchunk) (.inl hnot))
    refine h.of_keeps (fun _ hk => hk) (fun _ hn => ⟨hn, rfl⟩) (fun _ hj => hj)
      (fun c hc hdeal => hkeep c hc (.inl hdeal)) fun n c hn hc hstored => ?_
    exact hkeep c hstored (.inr ⟨n, List.not_mem_nil, hn, hc⟩)

end Snapshots

theorem Sound.commit (h : s.Sound K) (number : Nat) (root : Cid) : (s.commit K number root).Sound K where
  deals d x hk c hc := Finset.mem_union_left _ (h.deals d x hk c hc)
  bodies n hn c hc := by
    unfold bodyChunks at hc
    by_cases heq : n = number
    · subst heq
      have hroot : (s.commit K n root).envelopes n = some root := Function.update_self ..
      rw [hroot, Option.bind_some] at hc
      exact Finset.mem_union_right _ (List.mem_toFinset.2 (List.mem_cons_of_mem root hc))
    · have hbody : (s.commit K number root).bodies n = s.bodies n := Function.update_of_ne heq ..
      have henv : (s.commit K number root).envelopes n = s.envelopes n := Function.update_of_ne heq ..
      rw [hbody] at hn
      rw [henv] at hc
      exact Finset.mem_union_left _ (h.bodies n hn c hc)
  job j hj := (h.job j hj).mono Finset.subset_union_left

theorem Sound.undo (h : s.Sound K) (number : Nat) : (s.undo number).Sound K := by
  refine h.of_keeps (fun _ hk => hk) (fun n hn => ?_) (fun _ hj => hj) (fun _ hc _ => hc) fun _ _ _ _ hc => hc
  have hne : n ≠ number := by
    rintro rfl
    have hgone : (s.undo n).bodies n = false := Function.update_self ..
    rw [hgone] at hn
    cases hn
  have hbody : (s.undo number).bodies n = s.bodies n := Function.update_of_ne hne ..
  have henv : (s.undo number).envelopes n = s.envelopes n := Function.update_of_ne hne ..
  exact ⟨hbody ▸ hn, henv⟩

theorem Sound.step (h : s.Sound K) {m : Move Cid} (hspares : s.Spares K r keccak256 m) :
    (s.step K r keccak256 m).Sound K := by
  have hsame : ∀ {s' : Service Cid}, s'.kept = s.kept → s'.bodies = s.bodies → s'.envelopes = s.envelopes →
      s'.dealJob = s.dealJob → s.store ⊆ s'.store → s'.Sound K :=
    fun hk hb he hd hs => h.grow hk hb he (fun _ hj => hd ▸ hj) hs
  cases m with
  | commit number root => exact h.commit number root
  | undo number => exact h.undo number
  | put blocks => exact hsame rfl rfl rfl rfl Finset.subset_union_left
  | observe view => exact hsame rfl rfl rfl rfl (Finset.Subset.refl _)
  | restart =>
    exact h.of_keeps (fun _ hk => (by cases hk)) (fun _ hn => ⟨hn, rfl⟩) (fun _ hj => (by cases hj)) (fun _ hc _ => hc)
      fun _ _ _ _ hc => hc
  | dealStart d => exact h.dealStart d
  | dealGo answer => exact h.dealGo answer
  | pruneStart =>
    show (s.pruneStart r).Sound K
    unfold Service.pruneStart
    dsimp only
    split
    · exact h
    · exact hsame rfl rfl rfl rfl (Finset.Subset.refl _)
  | pruneNext answer => exact h.pruneNext answer hspares
  | snapshotStart root =>
    show (s.snapshotStart K r root).Sound K
    unfold Service.snapshotStart
    dsimp only
    split
    · exact h
    · split
      · exact h
      · exact hsame rfl rfl rfl rfl (Finset.Subset.refl _)
  | snapshotWrite count =>
    show (s.snapshotWrite count).Sound K
    unfold Service.snapshotWrite
    split
    · exact h
    · exact hsame rfl rfl rfl rfl Finset.subset_union_left
  | snapshotFinish => exact h.snapshotFinish hspares

theorem Sound.run (h : s.Sound K) {moves : List (Move Cid)} (hspares : s.SparesRun K r keccak256 moves) :
    (s.run K r keccak256 moves).Sound K := by
  induction moves generalizing s with
  | nil => exact h
  | cons m moves ih => exact ih (h.step hspares.1) hspares.2

theorem Sound.opened (view : View Cid) : (Service.opened view).Sound K :=
  ⟨fun _ _ hk => (by cases hk), fun _ hn => (by cases hn), fun _ hj => (by cases hj)⟩

end Service

/-- If no deletion hits a block that is shared, the blocks of every kept deal and the chunks of every body stay. -/
theorem needed_blocks_stay (K : Contents Cid) (r : Rules) (keccak256 : Bytes → Hash) (view : View Cid)
    (moves : List (Move Cid)) (h : (Service.opened view).SparesRun K r keccak256 moves) :
    ((Service.opened view).run K r keccak256 moves).Intact K r :=
  ((Service.Sound.opened view).run h).intact

namespace Shared

/-- The body chunk 5 of block 1 is also what the deal of root 20 lists; 30 is the index of another deal, of block 6. -/
def contents : Contents Nat where
  dealIndex c := if c = 20 then some ⟨1, 0, 1, [21], none⟩ else if c = 30 then some ⟨1, 0, 1, [31], none⟩ else none
  group c := if c = 21 then some [5] else if c = 31 then some [6] else none
  envelope c := if c = 10 then some [5] else if c = 11 then some [7] else none
  snapshot _ := none

def rules : Rules := ⟨1, 0⟩

/-- Provider 1 is this node and has an open copy of a deal of the given root; epochs have an index nobody keeps. -/
def view (root head : Nat) : View Nat where
  head := head
  dealCount := 1
  deals _ := ⟨some root, false, 100, [(1, true)]⟩
  dealsOf _ := [0]
  epochIndex _ := [1]
  validators := []
  storage := []
  mine := [1]

def zeroHash : Bytes → Hash := fun _ => (0 : Nat)

/-- Two blocks are committed, the deal is fetched, and the first epoch is pruned. -/
def moves (root group leaf : Nat) : List (Move Nat) :=
  [.commit 1 10, .commit 2 11, .observe (view root 2), .dealStart 0, .dealGo (some [root]), .dealGo none,
    .dealGo (some [group]), .dealGo none, .dealGo (some [leaf]), .dealGo none, .pruneStart, .pruneNext none]

/-- The state before the first epoch is pruned, with the other deal kept. -/
def unshared : Service Nat := (Service.opened (view 30 2)).run contents rules zeroHash ((moves 30 31 6).take 11)

theorem spares : unshared.Spares contents rules zeroHash (.pruneNext none) := by
  have hjob : unshared.pruneJob = some ⟨0, 0, [], [], [1]⟩ := by decide +kernel
  have hbodies : unshared.bodies = Function.update (Function.update (fun _ => false) 1 true) 2 true := rfl
  have henvelopes : unshared.envelopes = Function.update (Function.update (fun _ => none) 1 (some 10)) 2 (some 11) := rfl
  have hkept : unshared.kept = [(0, 30)] := rfl
  have hdeal : unshared.dealJob = none := rfl
  intro j hj _ h hh _ c hc
  obtain rfl := Option.some_inj.1 (hjob.symm.trans hj)
  obtain rfl : h = 1 := by simpa [Rules.heights, rules] using hh
  obtain rfl : c = 5 := by simpa [Service.bodyChunks, henvelopes, contents, Function.update] using hc
  refine ⟨?_, ?_⟩
  · rintro (⟨d, root, hk, hmem⟩ | ⟨j, hj, -⟩)
    · obtain ⟨rfl, rfl⟩ : d = 0 ∧ root = 30 := by simpa [hkept] using hk
      exact absurd hmem (by decide)
    · rw [hdeal] at hj
      cases hj
  · rintro ⟨n, hn, hbody, hmem⟩
    have hne : n ≠ 1 := by simpa [Rules.heights, rules] using hn
    obtain rfl : n = 2 := by simpa [hbodies, Function.update, hne] using hbody
    exact absurd hmem (by decide)

end Shared

/-- Pruning an epoch deletes a block that a deal lists. -/
theorem pruning_deletes_deal_block :
    ¬((Service.opened (Shared.view 20 2)).run Shared.contents Shared.rules Shared.zeroHash
      (Shared.moves 20 21 5)).Intact Shared.contents Shared.rules := by
  intro h
  have hkept : (0, 20) ∈ ((Service.opened (Shared.view 20 2)).run Shared.contents Shared.rules Shared.zeroHash
      (Shared.moves 20 21 5)).kept := by decide +kernel
  have hblock := h.deals 0 20 hkept (by decide +kernel) 5 (by decide +kernel)
  revert hblock
  decide +kernel

theorem needed_blocks_stay_unshared :
    (Service.opened (Shared.view 30 2)).SparesRun Shared.contents Shared.rules Shared.zeroHash (Shared.moves 30 31 6) ∧
      ((Service.opened (Shared.view 30 2)).run Shared.contents Shared.rules Shared.zeroHash
        (Shared.moves 30 31 6)).Intact Shared.contents Shared.rules := by
  have hspares : (Service.opened (Shared.view 30 2)).SparesRun Shared.contents Shared.rules Shared.zeroHash
      (Shared.moves 30 31 6) := by
    refine ⟨trivial, trivial, trivial, trivial, trivial, trivial, trivial, trivial, trivial, trivial, trivial, ?_, trivial⟩
    exact Shared.spares
  exact ⟨hspares, needed_blocks_stay _ _ _ _ _ hspares⟩

end Boltchain.Storage
