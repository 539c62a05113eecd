import Boltchain.Consensus.Closure
import Boltchain.Consensus.VoteSets

namespace Boltchain.Consensus

open Lib.Assoc

variable {S : Scheme}

def signs (l : List (Effect S)) : List (Nat × SignMsg) :=
  l.filterMap fun
    | .sign i m _ => some (i, m)
    | _ => none

def commits (l : List (Effect S)) : List BlockInfo :=
  l.flatMap fun
    | .act (.commit bs _) => bs
    | _ => []

def asks (l : List (Effect S)) : List Nat :=
  l.filterMap fun
    | .act (.propose r _ _) => some r
    | _ => none

structure CertsOk (c : Ctx S) (K : Knowledge) (qc : Qc S) (tc : Option (Tc S)) : Prop where
  qc : QcOk c K qc
  tc : ∀ t ∈ tc, TcOk c K t

/-- What an engine says is signed and rests on good certificates; its own proposals rest on the
ones it asked the node to use. -/
def Message.Sound (c : Ctx S) (K : Knowledge) : Message S → Prop
  | .proposal p => (c.unasked ∨ CertsOk c K p.qc p.tc) ∧ (p.proposer,
      .proposal c.cfg.chainId p.epoch p.block.round p.block.hash (c.H.keccak256 p.payload)) ∈ K
  | .vote v => (v.signer, .vote c.cfg.chainId v.epoch v.round v.block) ∈ K
  | .timeout t => CertsOk c K t.highQc t.lastTc

/-- The proven block of a finality proof: `p`, if its child `b` is a real block; otherwise the block
below the nil blocks that end in `p` and `b`. -/
def Proven (c : Ctx S) (pf : CommitProof S) (p b : BlockInfo) : Prop :=
  b.height ≤ c.cfg.endHeight ∧ pf.nilRounds = [] ∧ pf.committed = p.hash ∧ pf.committedHeight = p.height ∨
    c.cfg.endHeight < b.height ∧ ∃ x way, c.InTree x ∧ x.height ≤ c.cfg.endHeight ∧
      Linked x.hash way p.hash ∧ (∀ y ∈ way, c.InTree y ∧ c.cfg.endHeight < y.height) ∧
      pf.nilRounds = way.map (·.round) ++ [b.round] ∧ pf.committed = x.hash ∧
      pf.committedHeight = x.height

/-- What a finality proof rests on: `p` and its child `b` of the next round, both certified. -/
structure ProofOk (c : Ctx S) (K : Knowledge) (pf : CommitProof S) (p b : BlockInfo) : Prop where
  qc : QcOk c K pf.qc
  childQc : QcOk c K pf.childQc
  block : pf.qc.block = p.hash ∨ c.Below p.hash p.height
  child : pf.childQc.block = b.hash
  inTree : c.InTree p ∧ c.InTree b
  above : c.cfg.anchor.height < p.height
  parent : b.parent = p.hash
  rounds : p.round + 1 = b.round
  proven : Proven c pf p b

def Action.Sound (c : Ctx S) (K : Knowledge) : Action S → Prop
  | .broadcast m => m.Sound c K
  | .sendTo _ (.vote v) => (Message.vote v).Sound c K
  | .sendTo _ _ => False
  | .propose r qc tc => CertsOk c K qc tc ∧ (c.complete → c.verifyQc qc = true) ∧
      (∀ t ∈ tc, t.round + 1 = r) ∧ qc.height < c.cfg.endHeight
  | .commit bs pf => ∃ p b base chain, ProofOk c K pf p b ∧ Linked base chain p.hash ∧
      (∀ x ∈ chain, c.InTree x ∧ c.cfg.anchor.height < x.height) ∧
      bs = chain.filter (fun x => x.height ≤ c.cfg.endHeight) ∧ bs ≠ []
  | .epochEnd x pf => ∃ p b, ProofOk c K pf p b ∧ c.cfg.endHeight ≤ p.height ∧ c.InTree x ∧
      x.hash = pf.committed
  | _ => True

/-- Nothing moves the engine between the votes of its seats in round `r`: there is one seat, or the
votes go to another node. -/
def Ctx.Alone (c : Ctx S) (r : Nat) : Prop :=
  c.cfg.me.length ≤ 1 ∨ c.cfg.validators.leader (r + 1) ∉ c.cfg.me

/-- A vote is signed for a checked proposal of a round above the last one voted in. -/
def Effect.Sound (c : Ctx S) (K : Knowledge) : Effect S → Prop
  | .act a => a.Sound c K
  | .sign _ (.vote _ _ r h) t => t.lastVoted < r ∧ (c.Alone r → t.round = r) ∧ t.qc ≤ t.highQc ∧
      ∃ p, Checked c K p ∧ p.block.round = r ∧ p.block.hash = h ∧ p.qc.round = t.qc
  | .sign _ _ _ => True

def Says (c : Ctx S) (K : Knowledge) (l : List (Effect S)) : Prop := ∀ x ∈ l, x.Sound c K

structure Records (g g' : Ghost S) (l : List (Effect S)) : Prop where
  signed : g'.signed = g.signed ++ signs l
  emitted : g'.emitted = g.emitted ++ commits l
  asked : g'.asked = (asks l).reverse ++ g.asked

theorem Records.refl (g : Ghost S) : Records g g [] :=
  ⟨(List.append_nil _).symm, (List.append_nil _).symm, rfl⟩

theorem Records.trans {g g₁ g₂ : Ghost S} {a b : List (Effect S)} (h : Records g g₁ a)
    (h' : Records g₁ g₂ b) : Records g g₂ (a ++ b) where
  signed := by rw [h'.signed, h.signed, List.append_assoc, signs, signs, signs, List.filterMap_append]
  emitted := by rw [h'.emitted, h.emitted, List.append_assoc, commits, commits, commits, List.flatMap_append]
  asked := by
    rw [h'.asked, h.asked, asks, asks, asks, List.filterMap_append, List.reverse_append,
      List.append_assoc]

variable {f : Engine S → Outcome S} {l : List (Effect S)}

/-- The call goes through the allowed updates only, and an `EpochEnd` finishes the engine. -/
def Runs (c : Ctx S) (K : Knowledge) (e : Engine S) (g : Ghost S) (o : Outcome S) : Prop :=
  ∀ e' l, o = some (e', l) → (∀ x ∈ signs l, x ∈ K) →
    Says c K l ∧ (l.any Effect.ends = true → e'.finished = true) ∧
      ∃ g', Steps c K (e, g) (e', g') ∧ Records g g' l

variable {c : Ctx S} {K : Knowledge} {e e₁ : Engine S} {g g₁ : Ghost S} {o : Outcome S}

theorem Says.nil : Says c K [] := fun _ hx => absurd hx List.not_mem_nil

theorem Says.append {l' : List (Effect S)} (h : Says c K l) (h' : Says c K l') : Says c K (l ++ l') :=
  fun x hx => (List.mem_append.1 hx).elim (h x) (h' x)

theorem Says.cons {x : Effect S} (hx : x.Sound c K) (h : Says c K l) :
    Says c K (x :: l) := by
  intro y hy
  rcases List.mem_cons.1 hy with rfl | hy
  · exact hx
  · exact h y hy

theorem Runs.ret (h : Steps c K (e, g) (e₁, g₁))
    (hl : (∀ x ∈ signs l, x ∈ K) → Says c K l) (hr : Records g g₁ l)
    (hend : l.any Effect.ends = true → e₁.finished = true := by rintro ⟨⟩) :
    Runs c K e g (some (e₁, l)) := by
  rintro e' l' heq hK
  cases heq
  exact ⟨hl hK, hend, g₁, h, hr⟩

theorem Runs.nothing : Runs c K e g (some (e, [])) := .ret .refl (fun _ => .nil) (.refl g)

theorem Runs.diverges : Runs c K e g none := by
  rintro e' l' heq
  cases heq

theorem Runs.after (h : Steps c K (e, g) (e₁, g₁)) (hr : Records g g₁ []) (ho : Runs c K e₁ g₁ o) :
    Runs c K e g o := by
  intro e' l heq hK
  obtain ⟨hl, hend, g', hs, hr'⟩ := ho e' l heq hK
  exact ⟨hl, hend, g', h.trans hs, hr.trans hr'⟩

theorem Runs.step (h : Micro c K (e, g) (e₁, g)) (ho : Runs c K e₁ g o) : Runs c K e g o :=
  ho.after (.single h) (.refl g)

theorem Runs.bind (ho : Runs c K e g o)
    (hf : ∀ e₁ g₁ a, (∀ x ∈ signs a, x ∈ K) → o = some (e₁, a) → Steps c K (e, g) (e₁, g₁) →
      Runs c K e₁ g₁ (f e₁)) : Runs c K e g (o.andThen f) := by
  intro e' l heq hK
  obtain ⟨e₁, a, b, ho', hf', rfl⟩ := Outcome.andThen_eq_some heq
  rw [signs, List.filterMap_append] at hK
  have ha : ∀ x ∈ signs a, x ∈ K := fun x hx => hK x (List.mem_append_left _ hx)
  obtain ⟨hl, hend, g₁, hs, hr⟩ := ho e₁ a ho' ha
  obtain ⟨hl', hend', g₂, hs', hr'⟩ :=
    hf e₁ g₁ a ha ho' hs e' b hf' fun x hx => hK x (List.mem_append_right _ hx)
  refine ⟨hl.append hl', fun h => ?_, g₂, hs.trans hs', hr.trans hr'⟩
  rw [List.any_append, Bool.or_eq_true] at h
  exact h.elim (fun h => hs'.grows.finished (hend h)) hend'

theorem Runs.scheduled {r ms : Nat} (hf : Runs c K e g (f e)) :
    Runs c K e g (Outcome.andThen (some (e, [.act (.scheduleTimeout r ms)])) f) := by
  intro e' l heq hK
  obtain ⟨e₁, a, b, ho, hf', rfl⟩ := Outcome.andThen_eq_some heq
  cases ho
  obtain ⟨hl, hend, g', hs, hr⟩ := hf e' b hf' hK
  exact ⟨.cons trivial hl, hend, g', hs, hr.signed, hr.emitted, hr.asked⟩

theorem Runs.andThen (ho : Runs c K e g o)
    (hf : ∀ e₁ g₁, Steps c K (e, g) (e₁, g₁) → Runs c K e₁ g₁ (f e₁)) :
    Runs c K e g (o.andThen f) :=
  ho.bind fun e₁ g₁ _ _ _ hs => hf e₁ g₁ hs

variable {h : Hash} {qc : Qc S}

theorem Runs.blockOn (hm : Mem c K e) (hqc : QcOk c K qc) :
    Runs c K e g (some (e.blockOn qc h)) := by
  have hlater : QcOk c K (Engine.laterQc e.blockedCommit qc) := by
    cases hb : e.blockedCommit with
    | none => exact hqc
    | some q =>
      simp only [Engine.laterQc]
      split
      · exact hqc
      · exact hm.blocked q hb
  unfold Engine.blockOn
  apply Runs.step (.block hlater)
  dsimp only
  split
  · exact .nothing
  · exact .ret (.single (.scratch _ _ _)) (fun _ => .cons trivial .nil)
      ⟨(List.append_nil _).symm, (List.append_nil _).symm, rfl⟩

variable {cur : BlockInfo} {n : Nat}

theorem walk_done {rest l : List BlockInfo}
    (hkeys : ∀ x ∈ e.blocks, x.1 = x.2.hash) (hl : Linked cur.hash rest h)
    (hin : ∀ x ∈ cur :: rest, (x.hash, x) ∈ e.blocks ∧ e.committed.height < x.height)
    (hw : e.walk n cur (cur :: rest) = .done l) :
    Linked e.committed.hash l h ∧ ∀ x ∈ l, (x.hash, x) ∈ e.blocks ∧ e.committed.height < x.height := by
  induction n generalizing cur rest with
  | zero => cases hw
  | succ n ih =>
    unfold Engine.walk at hw
    split at hw
    case isTrue hp =>
      cases hw
      exact ⟨⟨hp, hl⟩, hin⟩
    case isFalse =>
      split at hw
      case h_2 => cases hw
      case h_1 _ parent hlook =>
        split at hw
        case isFalse => cases hw
        case isTrue hlt =>
          have hmem := mem_of_lookup hlook
          have hkey := hkeys _ hmem
          have hl' : Linked parent.hash (cur :: rest) h := ⟨hkey, hl⟩
          refine ih hl' ?_ hw
          intro x hx
          rcases List.mem_cons.1 hx with rfl | hx
          · rw [← show cur.parent = x.hash from hkey]
            exact ⟨hmem, hlt⟩
          · exact hin x hx

theorem Linked.trans {a b t : Hash} {l l' : List BlockInfo} (h : Linked a l b) (h' : Linked b l' t) :
    Linked a (l ++ l') t := by
  induction l generalizing a with
  | nil =>
    obtain rfl : a = b := h
    exact h'
  | cons y l ih => exact ⟨h.1, ih h.2⟩

/-- The nil rounds are those of the blocks between the last real block and `cur`. -/
theorem nilRounds_done {x : BlockInfo} {rounds rs : List Nat}
    (hkeys : ∀ x ∈ e.blocks, x.1 = x.2.hash ∧ c.InTree x.2) (hcur : c.InTree cur)
    (h : e.nilRounds n cur rounds = some (rs, x)) :
    c.InTree x ∧ x.height ≤ e.cfg.endHeight ∧ (x = cur ∨ ∃ k, (k, x) ∈ e.blocks) ∧
      ∃ way, Linked x.hash way cur.hash ∧ (∀ y ∈ way, c.InTree y ∧ e.cfg.endHeight < y.height) ∧
        rs = way.map (·.round) ++ rounds := by
  induction n generalizing cur rounds with
  | zero => cases h
  | succ n ih =>
    unfold Engine.nilRounds at h
    split at h
    case isFalse hle =>
      cases h
      exact ⟨hcur, not_lt.1 hle, .inl rfl, [], rfl, by simp, rfl⟩
    case isTrue hlt =>
      split at h
      case h_2 => cases h
      case h_1 _ parent hlook =>
        have hmem := mem_of_lookup hlook
        obtain ⟨hkey, hin⟩ := hkeys _ hmem
        obtain ⟨hx, hle, hfrom, way, hlinked, hway, rfl⟩ := ih hin h
        refine ⟨hx, hle, .inr ?_, way ++ [cur], hlinked.trans ⟨hkey, rfl⟩, ?_, by simp⟩
        · rcases hfrom with rfl | hk
          · exact ⟨_, hmem⟩
          · exact hk
        · intro y hy
          rcases List.mem_append.1 hy with hy | hy
          · exact hway y hy
          · cases List.mem_singleton.1 hy
            exact ⟨hcur, hlt⟩

variable {pqc : Qc S}

theorem proofFor_proven {p b : BlockInfo} {bqc : Qc S} {pf : CommitProof S} (hcfg : e.cfg = c.cfg)
    (hkeys : ∀ x ∈ e.blocks, x.1 = x.2.hash ∧ c.InTree x.2) (hp : (p.hash, p) ∈ e.blocks)
    (h : e.proofFor p b pqc bqc = some pf) :
    pf.qc = pqc ∧ pf.childQc = bqc ∧ Proven c pf p b ∧ ∃ x, (pf.committed, x) ∈ e.blocks := by
  unfold Engine.proofFor at h
  split at h
  case isTrue hle =>
    cases h
    exact ⟨rfl, rfl, .inl ⟨hcfg ▸ hle, rfl, rfl, rfl⟩, p, hp⟩
  case isFalse hlt =>
    split at h
    case h_1 => cases h
    case h_2 _ rounds x hrounds =>
      cases h
      obtain ⟨hx, hle, hfrom, way, hlinked, hway, rfl⟩ := nilRounds_done hkeys (hkeys _ hp).2 hrounds
      rw [hcfg] at hlt hle hway
      refine ⟨rfl, rfl, .inr ⟨not_le.1 hlt, x, way, hx, hle, hlinked, hway, rfl, rfl, rfl⟩, ?_⟩
      rcases hfrom with rfl | ⟨k, hk⟩
      · exact ⟨_, hp⟩
      · exact ⟨x, (hkeys _ hk).1 ▸ hk⟩

theorem Runs.commitChain {p b : BlockInfo} {chain : List BlockInfo} (hm : Mem c K e)
    (hpqc : (p.hash, pqc) ∈ e.qcs) (hok : CommitOk c K e p b qc chain) :
    Runs c K e g (e.commitChain p b pqc qc chain) := by
  have hcommits : ∀ (pf : CommitProof S) (rest : List (Effect S)),
      commits ((if (chain.filter fun x => x.height ≤ e.cfg.endHeight).isEmpty then []
        else [.act (.commit (chain.filter fun x => x.height ≤ e.cfg.endHeight) pf)]) ++ rest) =
      (chain.filter fun x => x.height ≤ c.cfg.endHeight) ++ commits rest := by
    intro pf rest
    rw [hm.cfg]
    split
    case isTrue h => rw [List.isEmpty_iff.1 h]; rfl
    case isFalse => rfl
  have hsilent : ∀ (pf : CommitProof S),
      signs (if (chain.filter fun x => x.height ≤ e.cfg.endHeight).isEmpty then []
        else [.act (.commit (chain.filter fun x => x.height ≤ e.cfg.endHeight) pf)]) = [] ∧
      asks (if (chain.filter fun x => x.height ≤ e.cfg.endHeight).isEmpty then []
        else [.act (.commit (chain.filter fun x => x.height ≤ e.cfg.endHeight) pf)]) = [] := by
    intro pf
    split <;> exact ⟨rfl, rfl⟩
  obtain ⟨hbhash, hbin⟩ := hm.blocks _ hok.child
  obtain ⟨hphash, hpin⟩ := hm.blocks _ hok.parent
  have hpmem : (p.hash, p) ∈ e.blocks := (show b.parent = p.hash from hphash) ▸ hok.parent
  obtain ⟨hpqcOk, hkey⟩ := hm.qcs _ hpqc
  unfold Engine.commitChain
  dsimp only
  split
  case h_1 => exact .diverges
  case h_2 _ proof hproof =>
    obtain ⟨hpf, hchild, hproven, x, hx⟩ := proofFor_proven (c := c)
      (e := { e with committed := p, blockedCommit := _ }) hm.cfg hm.blocks hpmem hproof
    have hproofOk : ProofOk c K proof p b :=
      { qc := hpf ▸ hpqcOk
        childQc := hchild ▸ hok.qc
        block := by
          rw [hpf]
          exact hkey.imp id fun ⟨x, hx, hh, hlt⟩ => ⟨x, hx, hh, (Nat.le_of_lt_succ hlt).trans_lt hok.above⟩
        child := by rw [hchild]; exact hbhash
        inTree := ⟨hpin, hbin⟩
        above := hm.anchor_lt hok.above
        parent := hphash
        rounds := hok.rounds
        proven := hproven }
    have hsound : Says c K (if (chain.filter fun x => x.height ≤ e.cfg.endHeight).isEmpty then []
        else [.act (.commit (chain.filter fun x => x.height ≤ e.cfg.endHeight) proof)]) := by
      split
      case isTrue => exact .nil
      case isFalse hne =>
        refine .cons ⟨p, b, _, chain, hproofOk, hok.linked, fun y hy => ?_, by rw [hm.cfg], ?_⟩ .nil
        · exact ⟨(hm.blocks _ (hok.chain y hy).1).2, hm.anchor_lt (hok.chain y hy).2⟩
        · exact fun h => hne (List.isEmpty_iff.2 h)
    split
    case isTrue hend =>
      rw [hm.cfg] at hend
      obtain ⟨y, hy⟩ := lookup_of_mem_keys (mem_keys.2 ⟨x, hx⟩)
      have hyin := hm.blocks _ (mem_of_lookup hy)
      refine .ret (.single (.commit true hok (by simp [hend]))) (fun _ => hsound.append (.cons ?_ .nil))
        ⟨?_, ?_, ?_⟩ fun _ => rfl
      · rw [hy, Option.getD_some]
        exact ⟨p, b, hproofOk, hend, hyin.2, hyin.1.symm⟩
      · rw [signs, List.filterMap_append, ← signs, (hsilent proof).1]
        exact (List.append_nil _).symm
      · rw [hcommits]
        exact congrArg _ (List.append_nil _).symm
      · rw [asks, List.filterMap_append, ← asks, (hsilent proof).2]
        rfl
    case isFalse hend =>
      rw [hm.cfg] at hend
      refine .ret (.single (.commit false hok (by simpa using hend))) (fun _ => hsound) ⟨?_, ?_, ?_⟩
        fun h => ?_
      · rw [(hsilent proof).1]
        exact (List.append_nil _).symm
      · have h := hcommits proof []
        rw [List.append_nil] at h
        rw [h]
        exact congrArg _ (List.append_nil _).symm
      · rw [(hsilent proof).2]
        rfl
      · split at h <;> cases h

theorem Runs.tryCommit (hm : Mem c K e) (hqc : QcOk c K qc) :
    Runs c K e g (e.tryCommit qc) := by
  unfold Engine.tryCommit
  split
  case isTrue => exact .nothing
  case isFalse hfin =>
    split
    case h_1 => exact .blockOn hm hqc
    case h_2 _ b hb =>
      split
      case h_1 =>
        split
        · exact .blockOn hm hqc
        · exact .nothing
      case h_2 _ p hp =>
        split
        case isTrue => exact .nothing
        case isFalse hcond =>
          rw [not_or, not_not, not_le] at hcond
          split
          case h_1 => exact .nothing
          case h_2 _ pqc hpqc =>
            split
            case h_1 => exact .diverges
            case h_2 => exact .nothing
            case h_3 => exact .blockOn hm hqc
            case h_4 chain hw =>
              have hkeys : ∀ x ∈ e.blocks, x.1 = x.2.hash := fun x hx => (hm.blocks x hx).1
              have hpm := mem_of_lookup hp
              have hin : ∀ x ∈ [p], (x.hash, x) ∈ e.blocks ∧ e.committed.height < x.height := by
                intro x hx
                cases List.mem_singleton.1 hx
                rw [← show b.parent = p.hash from hkeys _ hpm]
                exact ⟨hpm, hcond.2⟩
              have hdone := walk_done hkeys (show Linked p.hash [] p.hash from rfl) hin hw
              exact .commitChain hm (mem_of_lookup hpqc) {
                running := by simpa using hfin
                child := mem_of_lookup hb
                parent := hpm
                rounds := hcond.1
                above := hcond.2
                qc := hqc
                linked := hdone.1
                chain := hdone.2 }

def Enters (c : Ctx S) (K : Knowledge) (enter : Nat → Option (Tc S) → Engine S → Outcome S) : Prop :=
  ∀ r tc e g, Mem c K e → (∀ t ∈ tc, TcOk c K t ∧ t.round + 1 = r) → Runs c K e g (enter r tc e)

variable {enter : Nat → Option (Tc S) → Engine S → Outcome S} (henter : Enters c K enter)

include henter

theorem Runs.processQc_recorded (hm : Mem c K e) (hqc : QcOk c K qc) :
    Runs c K (e.recordQc qc) g (Engine.processQc enter qc e) := by
  apply (Runs.tryCommit (hm.recordQc hqc) hqc).andThen
  intro e₁ g₁ hs
  have hm₁ := hs.mem (hm.recordQc hqc)
  split
  · refine Runs.step (.scratch e₁.timedOut e₁.requested 0) (henter _ _ _ _ { hm₁ with } ?_)
    rintro t ⟨⟩
  · exact .nothing

theorem Runs.processQc (hm : Mem c K e) (hqc : QcOk c K qc) :
    Runs c K e g (Engine.processQc enter qc e) :=
  .step (.recordQc hqc) (.processQc_recorded henter hm hqc)

theorem Runs.processTc {tc : Tc S} (hm : Mem c K e) (htc : TcOk c K tc) :
    Runs c K e g (Engine.processTc enter tc e) := by
  apply (Runs.processQc henter hm htc.highQc).andThen
  intro e₁ g₁ hs
  split
  · refine henter _ _ _ _ (hs.mem hm) ?_
    rintro t ⟨⟩
    exact ⟨htc, rfl⟩
  · exact .nothing

theorem Runs.onVote {v : Vote S} (hm : Mem c K e) (hsig : c.U.sig K v.sig)
    (hplaced : c.placed v.block v.height) :
    Runs c K e g (Engine.onVote enter v e) := by
  unfold Engine.onVote
  split
  case isTrue => exact .nothing
  case isFalse hcond =>
    simp only [Bool.or_eq_true, decide_eq_true_eq, not_or, not_le] at hcond
    have hlt : v.signer < c.cfg.validators.len := by
      rw [← hm.cfg]
      exact hcond.1.2
    have hmsg : e.voteMsg v.round v.block = .vote c.cfg.chainId c.cfg.epoch v.round v.block := by
      rw [Engine.voteMsg, hm.cfg]
    have hset : VoteSetOk c K (v.round, v.block)
        ((e.votes.lookup (v.round, v.block)).getD ⟨v.height, [], [], false⟩) := by
      cases hlook : e.votes.lookup (v.round, v.block) with
      | none => exact .empty hplaced
      | some set => exact hm.votes _ (mem_of_lookup hlook)
    dsimp only
    split
    case h_1 => exact .nothing
    case h_2 _ set hadd =>
      have hadded := hset.add hmsg hlt hsig hadd
      rcases hcert : set.certify e.cfg.validators (e.voteMsg v.round v.block) with ⟨set', cert⟩
      rw [hm.cfg] at hcert
      obtain ⟨hok, hcertifies⟩ := hadded.certify hmsg hcert
      apply Runs.step (.votes hok)
      cases cert with
      | none => exact .nothing
      | some la =>
        obtain ⟨l, a⟩ := la
        have hmem : Mem c K { e with votes := put e.votes (v.round, v.block) set' } :=
          Micro.mem (.votes (g := g) hok) hm
        have hqc : QcOk c K (⟨e.cfg.epoch, v.round, v.block, set'.height,
            Bitmap.encode l e.cfg.validators.len, some a⟩ : Qc S) := by
          rw [hm.cfg]
          exact (hcertifies l a rfl).qcOk hok.height
        exact .processQc henter hmem hqc

/-- The votes of the seats `l`: if nothing moves the engine between them, they are signed in the
proposal's round. -/
theorem Runs.voteAll {p : Proposal S} {last : Nat} {l : List Nat} (hm : Mem c K e) (hp : p ∈ g.ballots)
    (hc : Checked c K p) (hplaced : c.placed p.block.hash p.block.height)
    (hhigh : p.qc.round ≤ e.highQc.round) (hlast : last < p.block.round)
    (hround : c.Alone p.block.round → l ≠ [] → e.round = p.block.round)
    (hlen : l.length ≤ c.cfg.me.length) (hl : ∀ i ∈ l, i ∈ c.cfg.me) :
    Runs c K e g (Engine.voteAll enter p last l e) := by
  induction l generalizing e g with
  | nil => exact .nothing
  | cons me l ih =>
    have hmsg : e.voteMsg p.block.round p.block.hash =
        .vote c.cfg.chainId c.cfg.epoch p.block.round p.block.hash := by
      rw [Engine.voteMsg, hm.cfg]
    have hstep : Micro c K (e, g) (e, { g with signed :=
        g.signed ++ [(me, e.voteMsg p.block.round p.block.hash)] }) := by
      rw [hmsg]
      exact .signVote (hl me List.mem_cons_self) hp
    have hsound : (Effect.sign me (e.voteMsg p.block.round p.block.hash)
        { e.stamp with lastVoted := last, qc := p.qc.round }).Sound c K :=
      ⟨hlast, fun ha => hround ha (List.cons_ne_nil _ _), hhigh, p, hc, rfl, rfl, rfl⟩
    unfold Engine.voteAll
    apply Runs.bind
    · split
      · refine Runs.bind (Runs.ret (.single hstep) (fun _ => .cons hsound .nil)
          ⟨rfl, (List.append_nil _).symm, rfl⟩) ?_
        intro e₁ g₁ a ha heq hs
        cases heq
        exact .onVote henter (hs.mem hm) (c.U.sign (ha _ (by simp [signs]))) hplaced
      · refine .ret (.single hstep) (fun hK => .cons hsound (.cons ?_ .nil))
          ⟨rfl, (List.append_nil _).symm, rfl⟩
        have hsigned := hK (me, e.voteMsg p.block.round p.block.hash) (by simp [signs])
        rwa [Engine.voteMsg, congrArg Config.chainId hm.cfg] at hsigned
    · intro e₁ g₁ a _ heq hs
      refine ih (hs.mem hm) (hs.grows.ballots hp) (hhigh.trans hs.grows.high) ?_
        ((Nat.le_succ _).trans hlen) fun i hi => hl i (List.mem_cons_of_mem _ hi)
      intro ha hne
      -- a second seat: the votes go to another node
      have hother : e.isMe (e.leader (p.block.round + 1)) = false := by
        rw [Engine.isMe, Engine.leader, hm.cfg, List.contains_eq_mem, decide_eq_false_iff_not]
        refine ha.resolve_left fun hone => hne (List.eq_nil_of_length_eq_zero ?_)
        rw [List.length_cons] at hlen
        omega
      rw [hother] at heq
      cases heq
      exact hround ha (List.cons_ne_nil _ _)

theorem Runs.onValidated {block : Hash} {valid : Bool} (hm : Mem c K e)
    (hv : valid = true → ∀ p, e.pending.lookup block = some p →
      c.cfg.endHeight < p.block.height ∨ c.valid p.block) :
    Runs c K e g (Engine.onValidated enter block valid e) := by
  unfold Engine.onValidated
  split
  case h_1 => exact .nothing
  case h_2 _ p hp =>
    have hpend := hm.pending _ (mem_of_lookup hp)
    apply Runs.step (.drop (h := block))
    have hm₁ : Mem c K { e with pending := del e.pending block } := Micro.mem (.drop (g := g)) hm
    dsimp only
    split
    case isTrue => exact .nothing
    case isFalse hvalid =>
      split
      case isTrue => exact .nothing
      case isFalse hcond =>
        simp only [not_or, not_not, not_le, Bool.not_eq_false] at hcond
        split
        case isTrue => exact .nothing
        case isFalse =>
          have hballot : Micro c K ({ e with pending := del e.pending block }, g)
              ({ e with pending := del e.pending block, lastVoted := p.block.round },
                { g with ballots := p :: g.ballots }) :=
            .ballot hpend.2.1 hpend.2.2 (hv (by simpa using hvalid) p hp) hcond.1 hcond.2.1 hcond.2.2.1
          refine Runs.after (.single hballot)
            ⟨(List.append_nil _).symm, (List.append_nil _).symm, rfl⟩ ?_
          have hvalid := hv (by simpa using hvalid) p hp
          refine .voteAll henter (hballot.mem hm₁) List.mem_cons_self hpend.2.1 ?_ hpend.2.2 hcond.2.1
            (fun _ _ => hcond.1.symm) (by rw [hm.cfg]) (by rw [hm.cfg]; exact fun i hi => hi)
          exact hvalid.elim hpend.2.1.placed_nil c.placed_valid

end Boltchain.Consensus
