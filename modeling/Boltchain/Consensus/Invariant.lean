import Boltchain.Consensus.World

namespace Boltchain.Consensus.Net

variable {S : Scheme} {ι : Type} (net : Net S ι)

/-- What inputs are taken to bring: whether certificates name nobody twice, the blocks that enter the
tree, the heights certificates come under, whether the scheme accepts what it makes, and whether
timeouts report no less than before. -/
structure Terms where
  strict : Prop
  stored : BlockInfo → Prop
  complete : Prop
  ordered : Prop
  placed : Hash → Nat → Prop
  scheme : complete → S.Complete ∧ net.base.validators.len ≤ 65536
  placed_anchor : placed net.base.anchor.hash net.base.anchor.height
  placed_valid : ∀ {b}, net.valid b → placed b.hash b.height
  placed_nil : ∀ {p k} r, net.base.endHeight ≤ k → placed p k →
    placed (net.H.nilHash net.base.epoch p r) (k + 1)

variable {net} in
def Terms.plain (stored : BlockInfo → Prop) : net.Terms where
  strict := True
  stored := stored
  complete := False
  ordered := False
  placed _ _ := True
  scheme h := h.elim
  placed_anchor := trivial
  placed_valid _ := trivial
  placed_nil _ _ _ := trivial

variable (T : net.Terms)

def ctx (ν : ι) : Ctx S where
  H := net.H
  cfg := net.cfg ν
  honest i := ∃ ν, i ∈ net.me ν
  U := net.U
  strict := T.strict
  complete := T.complete
  ordered := T.ordered
  valid := net.valid
  stored := T.stored
  placed := T.placed
  unasked := True
  imports := net.imports
  weight_lt _ := net.weight_lt
  scheme := T.scheme
  placed_anchor := T.placed_anchor
  placed_valid := T.placed_valid
  placed_nil := T.placed_nil

/-- A property of the committed block that every update keeps. -/
structure Extra (X : ι → Knowledge → BlockInfo → Ghost S → Prop) : Prop where
  init : ∀ ν K, X ν K net.base.anchor Ghost.init
  mono : ∀ {ν K K' b g}, K ⊆ K' → X ν K b g → X ν K' b g
  micro : ∀ {ν K s s'}, Mem (net.ctx T ν) K s.1 → X ν K s.1.committed s.2 →
    Micro (net.ctx T ν) K s s' → X ν K s'.1.committed s'.2

theorem Extra.trivial {net : Net S ι} {T : net.Terms} : net.Extra T fun _ _ _ _ => True :=
  ⟨fun _ _ => True.intro, fun _ _ => True.intro, fun _ _ _ => True.intro⟩

variable (X : ι → Knowledge → BlockInfo → Ghost S → Prop)

def DiskGood (ν : ι) (K : Knowledge) : Option (Persisted S) → Ghost S → Prop
  | none, gd => gd = Ghost.init
  | some p, gd => DiskOk (net.ctx T ν) K p ∧ (net.ctx T ν).Above p.committed ∧
      Safe (net.ctx T ν) K p.lastVoted p.highQc.round gd ∧ X ν K p.committed gd

/-- A node's running state and the one on disk both follow the rules. -/
structure NodeOk (w : ι → Node S) (ν : ι) (g gd : Ghost S) : Prop where
  signed : g.signed = (w ν).signed
  emitted : g.emitted = (w ν).emitted
  mem : Mem (net.ctx T ν) (known w ν) (w ν).eng
  safe : Safe (net.ctx T ν) (known w ν) (w ν).eng.lastVoted (w ν).eng.highQc.round g
  extra : X ν (known w ν) (w ν).eng.committed g
  written : gd.signed = (w ν).durable
  kept : gd.emitted = (w ν).emitted
  subset : (w ν).durable ⊆ (w ν).signed
  disk : net.DiskGood T X ν (durable w) (w ν).disk gd

variable {net T X} {w w' : ι → Node S} {ν μ : ι} {g gd : Ghost S}

variable {K : Knowledge}

theorem DiskGood.mono {K' : Knowledge} {disk : Option (Persisted S)} (hX : net.Extra T X)
    (hK : K ⊆ K') (h : net.DiskGood T X ν K disk gd) : net.DiskGood T X ν K' disk gd := by
  cases disk with
  | none => exact h
  | some p => exact ⟨h.1.mono hK, h.2.1, h.2.2.1.mono hK, hX.mono hK h.2.2.2⟩

theorem NodeOk.safe_disk (h : net.NodeOk T X w ν g gd) :
    ∃ v k, Safe (net.ctx T ν) (Net.durable w) v k gd := by
  have hdisk := h.disk
  cases hd : (w ν).disk with
  | none =>
    rw [hd] at hdisk
    rw [show gd = Ghost.init from hdisk]
    exact ⟨0, 0, .init⟩
  | some p =>
    rw [hd] at hdisk
    exact ⟨_, _, hdisk.2.2.1⟩

theorem NodeOk.mono (hX : net.Extra T X) (h : net.NodeOk T X w μ g gd) (heq : w' μ = w μ)
    (hd : durable w ⊆ durable w') : net.NodeOk T X w' μ g gd := by
  have hk : known w μ ⊆ known w' μ := by
    unfold known
    rw [heq]
    exact Set.union_subset_union_left _ hd
  refine ⟨heq ▸ h.signed, heq ▸ h.emitted, ?_, ?_, ?_, heq ▸ h.written, heq ▸ h.kept,
    heq ▸ h.subset, ?_⟩
  · rw [heq]
    exact h.mem.mono hk
  · rw [heq]
    exact h.safe.mono hk
  · rw [heq]
    exact hX.mono hk h.extra
  · rw [heq]
    exact h.disk.mono hX hd

theorem NodeOk.initial (hX : net.Extra T X) :
    net.NodeOk T X net.initial ν Ghost.init Ghost.init where
  signed := rfl
  emitted := rfl
  mem := .new
  safe := .init
  extra := hX.init ν _
  written := rfl
  kept := rfl
  subset := List.Subset.refl _
  disk := rfl

theorem Extra.steps (hX : net.Extra T X) {s s' : Engine S × Ghost S}
    (h : Steps (net.ctx T ν) K s s') (hm : Mem (net.ctx T ν) K s.1)
    (hs : X ν K s.1.committed s.2) : X ν K s'.1.committed s'.2 := by
  induction h with
  | refl => exact hs
  | tail hsteps h ih => exact hX.micro (Steps.mem hsteps hm) ih h

theorem DiskGood.restart {nd : Node S} (hX : net.Extra T X)
    (h : net.DiskGood T X ν K nd.disk gd) :
    Mem (net.ctx T ν) K (nd.restart (net.cfg ν)).eng ∧
      Safe (net.ctx T ν) K (nd.restart (net.cfg ν)).eng.lastVoted
        (nd.restart (net.cfg ν)).eng.highQc.round gd ∧
      X ν K (nd.restart (net.cfg ν)).eng.committed gd := by
  cases hdisk : nd.disk with
  | none =>
    rw [hdisk] at h
    have heng : (nd.restart (net.cfg ν)).eng = Engine.new (net.cfg ν) := by simp only [Node.restart, hdisk]
    rw [heng, show gd = Ghost.init from h]
    exact ⟨.new, .init, hX.init ν K⟩
  | some p =>
    rw [hdisk] at h
    obtain ⟨hok, habove, hsafe, hx⟩ := h
    have heng : (nd.restart (net.cfg ν)).eng = Engine.resume (net.cfg ν) p := by
      simp only [Node.restart, hdisk]
    obtain ⟨hhigh, hlast, -⟩ := resume_eq hok.epoch
    have hcommitted := resume_committed hok.epoch habove
    rw [heng]
    refine ⟨.resume hok, ?_, ?_⟩
    · rw [show Engine.resume (net.cfg ν) p = Engine.resume (net.ctx T ν).cfg p from rfl, hhigh, hlast]
      exact hsafe
    · rw [show Engine.resume (net.cfg ν) p = Engine.resume (net.ctx T ν).cfg p from rfl, hcommitted]
      exact hx

/-- The inputs `ok` allows: certificates that name nobody twice and come, as votes do, under the
heights of their blocks, proposals and imports whose block may enter the tree, and timeouts that do
not report less than before. -/
structure Fits (net : Net S ι) (T : net.Terms) (ok : Engine S → Event S → Prop) : Prop where
  clean : T.strict → ∀ {e ev}, ok e ev → ∀ qc ∈ ev.qcs, qc.Clean
  stores : ∀ {e p}, ok e (.message (.proposal p)) → e.Stores net.H p → T.stored p.block
  valid : ∀ {b}, net.valid b → T.stored b
  imports : ∀ {e b qc}, ok e (.externalCommit b qc) → net.imports → T.stored b
  levels : ∀ {e ev}, ok e ev → ∀ qc ∈ ev.qcs, qc.verify net.base.validators net.base.chainId
    net.base.epoch net.base.anchor.hash = true → T.placed qc.block qc.height
  votes : ∀ {e v}, ok e (.message (.vote v)) → T.placed v.block v.height
  reports : ∀ {e t}, ok e (.message (.timeout t)) → T.ordered → e.NotLower t

variable {ok : Engine S → Event S → Prop}

variable {e : Engine S} {ev : Event S}

theorem Fits.admits (hf : Fits net T ok) (hok : ok e ev)
    (hpr : net.Promises e ev) : (net.ctx T ν).Admits e ev := by
  cases ev with
  | message m =>
    cases m with
    | proposal p => exact hf.stores hok
    | vote => exact hf.votes hok
    | timeout => exact hf.reports hok
  | validated h pass => exact hpr
  | proposed b qc tc payload =>
    refine ⟨fun hle => ?_, hpr⟩
    rcases hpr with hlt | hv
    · exact absurd hle (not_le.2 hlt)
    · exact hf.valid hv
  | block b => exact .inr (.inl (hf.valid hpr))
  | externalCommit b qc => exact ⟨hpr, .inr (.inl (hf.imports hok hpr))⟩
  | start => trivial
  | timeout => trivial

theorem Delivers.ofEvent (h : net.Delivers w ν ev) : net.U.ofEvent (known w ν) ev := by
  cases ev with
  | message m => exact Unforgeable.ofEvent.mono Set.subset_union_left h
  | _ => exact h

variable {l : List (Effect S)}

theorem commits_eq_nil (h : ∀ a, .act a ∈ l → a.leaves = false) :
    commits l = [] := by
  refine List.flatMap_eq_nil_iff.2 fun x hx => ?_
  cases x with
  | sign => rfl
  | act a =>
    cases a with
    | commit bs pf => cases h _ hx
    | _ => rfl

variable [DecidableEq ι]

variable {save : Bool}

theorem durable_subset_after
    (hsub : (w ν).durable ⊆ (w ν).signed) :
    durable w ⊆ durable (Function.update w ν ((w ν).after save e l)) := by
  rintro x ⟨μ, hx⟩
  refine ⟨μ, ?_⟩
  by_cases hμ : μ = ν
  · subst hμ
    rw [Function.update_self]
    cases save with
    | true => exact List.mem_append_left _ (hsub hx)
    | false => exact hx
  · rwa [Function.update_of_ne hμ]

theorem durable_restart (w : ι → Node S) (ν : ι) (cfg : Config) :
    durable (Function.update w ν ((w ν).restart cfg)) = durable w := by
  ext x
  refine exists_congr fun μ => ?_
  by_cases hμ : μ = ν
  · subst hμ
    rw [Function.update_self]
    rfl
  · rw [Function.update_of_ne hμ]

theorem NodeOk.restart (hX : net.Extra T X) (h : net.NodeOk T X w ν g gd) :
    net.NodeOk T X (Function.update w ν ((w ν).restart (net.cfg ν))) ν gd gd := by
  have hd := durable_restart w ν (net.cfg ν)
  have hk : Net.durable w ⊆ known (Function.update w ν ((w ν).restart (net.cfg ν))) ν := by
    unfold known
    rw [hd]
    exact Set.subset_union_left
  obtain ⟨hmem, hsafe, hx⟩ := DiskGood.restart hX h.disk
  refine ⟨?_, ?_, ?_, ?_, ?_, ?_, ?_, ?_, ?_⟩
  all_goals rw [Function.update_self]
  · exact h.written
  · exact h.kept
  · exact hmem.mono hk
  · exact hsafe.mono hk
  · exact hX.mono hk hx
  · exact h.written
  · exact h.kept
  · exact List.Subset.refl _
  · rw [hd]
    exact h.disk

variable {n : Nat}

theorem NodeOk.on_steps (hf : Fits net T ok) (h : net.NodeOk T X w ν g gd) (hdel : net.Delivers w ν ev)
    (hpr : net.Promises (w ν).eng ev) (hok : ok (w ν).eng ev)
    (hon : (w ν).eng.on net.H n ev = some (e, l)) (hw' : w' = Function.update w ν ((w ν).after save e l)) :
    known w ν ⊆ known w' ν ∧ Says (net.ctx T ν) (known w' ν) l ∧
      (l.any Effect.ends = true → e.finished = true) ∧
      ∃ g', Steps (net.ctx T ν) (known w' ν) ((w ν).eng, g) (e, g') ∧ g'.signed = g.signed ++ signs l ∧
        g'.emitted = g.emitted ++ commits l := by
  have hnode : w' ν = (w ν).after save e l := hw' ▸ Function.update_self ..
  have hd : Net.durable w ⊆ Net.durable w' := hw' ▸ durable_subset_after h.subset
  have hk : known w ν ⊆ known w' ν := by
    refine Set.union_subset_union hd fun x hx => ?_
    rw [Set.mem_ofPred_eq, hnode]
    exact List.mem_append_left _ hx
  have hsigns : ∀ x ∈ signs l, x ∈ known w' ν := by
    intro x hx
    refine .inr ?_
    rw [Set.mem_ofPred_eq, hnode]
    exact List.mem_append_right _ hx
  obtain ⟨hsound, hend, g', hsteps, hsigned, hemitted, -⟩ := Engine.on_steps (g := g) (h.mem.mono hk)
    (hdel.ofEvent.mono hk) (fun hs => hf.clean hs hok) (hf.levels hok) (hf.admits hok hpr) (.inl trivial) hon hsigns
  exact ⟨hk, hsound, hend, g', hsteps, hsigned, hemitted⟩

theorem NodeOk.handle (hX : net.Extra T X) (hf : Fits net T ok) (h : net.NodeOk T X w ν g gd)
    (hdel : net.Delivers w ν ev) (hpr : net.Promises (w ν).eng ev) (hok : ok (w ν).eng ev)
    (hon : (w ν).eng.on net.H n ev = some (e, l))
    (hsave : save = false → ∀ a, .act a ∈ l → a.leaves = false) :
    ∃ g' gd', net.NodeOk T X (Function.update w ν ((w ν).after save e l)) ν g' gd' := by
  set w' := Function.update w ν ((w ν).after save e l) with hw'
  have hnode : w' ν = (w ν).after save e l := Function.update_self ..
  have hd : Net.durable w ⊆ Net.durable w' := durable_subset_after h.subset
  obtain ⟨hk, -, -, g', hsteps, hsigned, hemitted⟩ := h.on_steps hf hdel hpr hok hon hw'
  have hmem := h.mem.mono hk
  have hmem' := Steps.mem hsteps hmem
  have hsafe' := Steps.safe hsteps (h.safe.mono hk)
  have hx' := hX.steps hsteps hmem (hX.mono hk h.extra)
  rw [h.signed] at hsigned
  rw [h.emitted] at hemitted
  cases save with
  | true =>
    -- what is known is on disk now
    have hall : known w' ν ⊆ Net.durable w' := by
      refine Set.union_subset subset_rfl fun x hx => ⟨ν, ?_⟩
      rw [hnode]
      rwa [Set.mem_ofPred_eq, hnode] at hx
    refine ⟨g', g', ?_, ?_, ?_, ?_, ?_, ?_, ?_, ?_, ?_⟩
    all_goals rw [hnode]
    · exact hsigned
    · exact hemitted
    · exact hmem'
    · exact hsafe'
    · exact hx'
    · exact hsigned
    · exact hemitted
    · exact List.Subset.refl _
    · exact ⟨hmem'.persisted.mono hall, hmem'.committed.2, hsafe'.mono hall, hX.mono hall hx'⟩
  | false =>
    have hnil := commits_eq_nil (hsave rfl)
    refine ⟨g', gd, ?_, ?_, ?_, ?_, ?_, ?_, ?_, ?_, ?_⟩
    all_goals rw [hnode]
    · exact hsigned
    · exact hemitted
    · exact hmem'
    · exact hsafe'
    · exact hx'
    · exact h.written
    · simpa [Node.after, hnil] using h.kept
    · exact fun x hx => List.mem_append_left _ (h.subset hx)
    · exact h.disk.mono hX hd

theorem Run.nodeOk (hX : net.Extra T X) (hf : Fits net T ok) (h : net.Run ok w) (ν : ι) :
    ∃ g gd, net.NodeOk T X w ν g gd := by
  induction h generalizing ν with
  | refl => exact ⟨_, _, .initial hX⟩
  | tail _ hstep ih =>
    cases hstep with
    | handle μ n ev save hdel hpr hok hon hsave =>
      obtain ⟨g, gd, hμ⟩ := ih μ
      by_cases hν : ν = μ
      · subst hν
        exact hμ.handle hX hf hdel hpr hok hon hsave
      · obtain ⟨g, gd, hν'⟩ := ih ν
        exact ⟨g, gd, hν'.mono hX (Function.update_of_ne hν ..) (durable_subset_after hμ.subset)⟩
    | crash μ =>
      obtain ⟨g, gd, hμ⟩ := ih μ
      by_cases hν : ν = μ
      · subst hν
        exact ⟨gd, gd, hμ.restart hX⟩
      · obtain ⟨g, gd, hν'⟩ := ih ν
        exact ⟨g, gd, hν'.mono hX (Function.update_of_ne hν ..) (durable_restart ..).ge⟩

theorem Run.on_says (hf : Fits net T ok) (h : net.Run ok w) (hdel : net.Delivers w ν ev) (hpr : net.Promises (w ν).eng ev)
    (hok : ok (w ν).eng ev) (hon : (w ν).eng.on net.H n ev = some (e, l)) :
    ∃ w', net.Run ok w' ∧ known w' ν ⊆ durable w' ∧ Says (net.ctx T ν) (known w' ν) l ∧
      (l.any Effect.ends = true → e.finished = true) := by
  obtain ⟨g, gd, hnode⟩ := Run.nodeOk .trivial hf h ν
  set w' := Function.update w ν ((w ν).after true e l) with hw'
  have hself : w' ν = (w ν).after true e l := Function.update_self ..
  obtain ⟨-, hsound, hend, -⟩ := hnode.on_steps hf hdel hpr hok hon hw'
  refine ⟨w', h.tail (.handle ν n ev true hdel hpr hok hon (by simp)), ?_, hsound, hend⟩
  refine Set.union_subset subset_rfl fun x hx => ⟨ν, ?_⟩
  rw [hself]
  rwa [Set.mem_ofPred_eq, hself] at hx

end Boltchain.Consensus.Net
