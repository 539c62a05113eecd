import Boltchain.Consensus.Inner

namespace Boltchain.Consensus

open Lib.Assoc

variable {S : Scheme} {H : Hasher} {cfg : Config} {e : Engine S} {t : Timeout S}

/-- The timeouts an engine has collected for a round: signed by members, each below the round and none
above the highest certificate among them. -/
structure Collected (cfg : Config) (round : Nat) (set : TimeoutSet S) : Prop where
  nodup : (keys set.entries).Nodup
  lt : ∀ i ∈ keys set.entries, i < cfg.validators.len
  verified : ∀ x ∈ set.entries, x.2.1 < round ∧ S.verify x.1 (.timeout cfg.chainId cfg.epoch round x.2.1) x.2.2 = true
  accepted : set.highQc.verify cfg.validators cfg.chainId cfg.epoch cfg.anchor.hash = true
  le : ∀ x ∈ set.entries, x.2.1 ≤ set.highQc.round

structure Collects (cfg : Config) (e : Engine S) : Prop where
  cfg_eq : e.cfg = cfg
  sets : ∀ x ∈ e.timeouts, Collected cfg x.1 x.2

theorem joinTimeout_round (set : TimeoutSet S) (t : Timeout S) :
    (Engine.joinTimeout set t).highQc.round = max set.highQc.round t.highQc.round := by
  simp only [Engine.joinTimeout]
  split <;> omega

variable {set : TimeoutSet S}

theorem Collected.join (h : Collected cfg t.round set) (ht : t.Fits cfg) :
    Collected cfg t.round (Engine.joinTimeout set t) := by
  have hall : ∀ {P : Nat × Nat × S.Sig → Prop}, P (t.signer, t.highQc.round, t.sig) → (∀ x ∈ set.entries, P x) →
      ∀ x ∈ (Engine.joinTimeout set t).entries, P x := fun h₀ h x hx => (mem_put hx).elim (fun heq => heq ▸ h₀) (h x)
  refine ⟨nodup_keys_put h.nodup, ?_, hall ⟨ht.round, ht.sig⟩ h.verified, ?_, ?_⟩
  · intro i hi
    obtain rfl | hi := List.mem_cons.1 hi
    · exact ht.signer
    · exact h.lt i ((keys_del_sublist _ _).subset hi)
  · simp only [Engine.joinTimeout]
    split
    · exact ht.highQc
    · exact h.accepted
  · rw [joinTimeout_round]
    exact hall (le_max_right _ _) fun x hx => (h.le x hx).trans (le_max_left _ _)

theorem Collects.timeoutSet (h : Collects cfg e) (ht : t.Fits cfg) : Collected cfg t.round (e.timeoutSet t) := by
  unfold Engine.timeoutSet
  cases hl : e.timeouts.lookup t.round with
  | none => exact ⟨List.nodup_nil, by simp [keys], by simp, ht.highQc, by simp⟩
  | some set => exact h.sets _ (mem_of_lookup hl)

theorem stable_collects : Stable H cfg (fun _ => True) (fun _ => True) (Collects (S := S) cfg) where
  cfg_eq h := h.cfg_eq
  frame h hcore := by
    obtain ⟨hcfg, -, -, -, htimeouts, -⟩ := Engine.core_eq hcore
    exact ⟨hcfg.trans h.cfg_eq, htimeouts ▸ h.sets⟩
  enter h _ := ⟨h.cfg_eq, h.sets⟩
  prune h := ⟨h.cfg_eq, fun x hx => h.sets x (List.mem_filter.1 hx).1⟩
  commit h heq := by
    obtain ⟨_, _, _, _, rfl⟩ := (Engine.settling_tryCommit heq).frame
    exact ⟨h.cfg_eq, h.sets⟩
  insert h _ _ _ := ⟨h.cfg_eq, h.sets⟩
  join {e t} done h ht := by
    refine ⟨h.cfg_eq, fun x hx => ?_⟩
    obtain rfl | hx := mem_put hx
    · have hset := (h.timeoutSet ht).join ht
      exact ⟨hset.nodup, hset.lt, hset.verified, hset.accepted, hset.le⟩
    · exact h.sets x hx
  count h _ _ _ _ := ⟨h.cfg_eq, h.sets⟩
  current _ := trivial

/-- Of the timeouts of `t`'s round, with `t` in place of an earlier one of its signer, one reports the
highest certificate seen in them. -/
def Engine.Reported (e : Engine S) (t : Timeout S) : Prop :=
  (e.timeoutSet t).highQc.round ≤ t.highQc.round ∨
    ∃ x ∈ (e.timeoutSet t).entries, x.1 ≠ t.signer ∧ x.2.1 = (e.timeoutSet t).highQc.round

theorem Engine.reported_iff : e.Reported t ↔ ∃ x ∈ (joinTimeout (e.timeoutSet t) t).entries,
    x.2.1 = (joinTimeout (e.timeoutSet t) t).highQc.round := by
  rw [joinTimeout_round]
  constructor
  · rintro (hle | ⟨x, hx, hne, heq⟩)
    · exact ⟨(t.signer, t.highQc.round, t.sig), List.mem_cons_self, (max_eq_right hle).symm⟩
    · by_cases hle : (e.timeoutSet t).highQc.round ≤ t.highQc.round
      · exact ⟨(t.signer, t.highQc.round, t.sig), List.mem_cons_self, (max_eq_right hle).symm⟩
      · refine ⟨x, List.mem_cons_of_mem _ (List.mem_filter.2 ⟨hx, decide_eq_true hne⟩), ?_⟩
        rw [heq, max_eq_left (not_le.1 hle).le]
  · rintro ⟨x, hx, heq⟩
    obtain rfl | hx := List.mem_cons.1 hx
    · exact .inl (max_eq_right_iff.1 heq.symm)
    · by_cases hle : (e.timeoutSet t).highQc.round ≤ t.highQc.round
      · exact .inl hle
      · obtain ⟨hx, hne⟩ := List.mem_filter.1 hx
        rw [max_eq_left (not_le.1 hle).le] at heq
        exact .inr ⟨x, hx, of_decide_eq_true hne, heq⟩

variable {tc : Tc S}

theorem Tc.exists_maxQcRound (h : tc.entries ≠ []) : ∃ x ∈ tc.entries, x.2.1 = tc.maxQcRound := by
  unfold Tc.maxQcRound
  revert h
  induction tc.entries with
  | nil => exact fun h => absurd rfl h
  | cons x l ih =>
    intro _
    rw [List.map_cons, List.foldr_cons]
    by_cases hl : l = []
    · exact ⟨x, List.mem_cons_self, by simp [hl]⟩
    · obtain ⟨y, hy, heq⟩ := ih hl
      obtain hle | hle := le_total x.2.1 ((l.map (·.2.1)).foldr max 0)
      · exact ⟨y, List.mem_cons_of_mem _ hy, by rw [max_eq_right hle, heq]⟩
      · exact ⟨x, List.mem_cons_self, (max_eq_left hle).symm⟩

theorem Collected.verify_iff {r : Nat} (h : Collected cfg r set)
    (hne : set.entries ≠ []) (hq : cfg.validators.isQuorum (cfg.validators.weightOf (keys set.entries)) = true) :
    (⟨cfg.epoch, r, set.highQc, set.entries.insertionSort fun a b => a.1 ≤ b.1⟩ : Tc S).verify cfg.validators
      cfg.chainId cfg.epoch cfg.anchor.hash = true ↔ ∃ x ∈ set.entries, x.2.1 = set.highQc.round := by
  set tc : Tc S := ⟨cfg.epoch, r, set.highQc, set.entries.insertionSort fun a b => a.1 ≤ b.1⟩ with htc
  have hperm : tc.entries.Perm set.entries := List.perm_insertionSort _ _
  have hkeys : (tc.entries.map (·.1)).Perm (keys set.entries) := hperm.map _
  have hdedup : (tc.entries.map (·.1)).dedup = tc.entries.map (·.1) := (hkeys.nodup_iff.2 h.nodup).dedup
  have hweight : cfg.validators.weightOf (tc.entries.map (·.1)) = cfg.validators.weightOf (keys set.entries) :=
    (hkeys.map _).sum_eq
  have hverify : tc.verify cfg.validators cfg.chainId cfg.epoch cfg.anchor.hash = true ↔
      tc.highQc.round = tc.maxQcRound := by
    simp only [Tc.verify, hdedup, hweight, hq, Bool.and_eq_true, beq_iff_eq, List.length_map, List.all_eq_true,
      decide_eq_true_eq, and_true]
    have hlt : ∀ i ∈ tc.entries.map (·.1), i < cfg.validators.len := fun i hi => h.lt i (hkeys.mem_iff.1 hi)
    have hentries : ∀ x ∈ tc.entries, x.2.1 < tc.round ∧
        S.verify x.1 (.timeout cfg.chainId cfg.epoch tc.round x.2.1) x.2.2 = true :=
      fun x hx => h.verified x (hperm.mem_iff.1 hx)
    have haccepted : tc.highQc.verify cfg.validators cfg.chainId cfg.epoch cfg.anchor.hash = true := h.accepted
    exact ⟨fun hv => hv.1.2, fun hmax => ⟨⟨⟨⟨rfl, hlt⟩, hentries⟩, hmax⟩, haccepted⟩⟩
  have hle : tc.maxQcRound ≤ tc.highQc.round := Tc.maxQcRound_le fun x hx => h.le x (hperm.mem_iff.1 hx)
  rw [hverify]
  constructor
  · intro hmax
    obtain ⟨x, hx, heq⟩ := tc.exists_maxQcRound fun hnil => hne (List.Perm.nil_eq (hnil ▸ hperm)).symm
    exact ⟨x, hperm.mem_iff.1 hx, heq.trans hmax.symm⟩
  · rintro ⟨x, hx, heq⟩
    exact le_antisymm (heq ▸ Tc.le_maxQcRound (hperm.mem_iff.2 hx)) hle

theorem Collects.assembled_verify_iff (h : Collects cfg e) (ht : t.Fits cfg) (htc : e.assembled t = some tc) :
    tc.verify cfg.validators cfg.chainId cfg.epoch cfg.anchor.hash = true ↔ e.Reported t := by
  rw [Engine.reported_iff]
  simp only [Engine.assembled, h.cfg_eq] at htc
  split at htc
  case isTrue => cases htc
  case isFalse =>
    split at htc
    case isFalse => cases htc
    case isTrue hq =>
      cases htc
      exact ((h.timeoutSet ht).join ht).verify_iff (List.cons_ne_nil _ _) hq

/-- In every run, with any inputs and restarts, a timeout certificate that `on_timeout_msg` assembles
verifies just if one of the timeouts it is made of reports the highest certificate seen in them. -/
theorem assembled_certificates_verify_iff {e₀ e₁ e : Engine S} {ev : Event S} {c : Inner S} {n k : Nat} {t : Timeout S}
    {tc : Tc S} (hlives : Lives H cfg (fun _ _ => True) (fun _ => True) e₀) (hbegins : Begins H ev e₀ c e₁)
    (hmakes : Makes H n k c e₁ (.join t) e) (htc : e.assembled t = some tc) :
    tc.verify cfg.validators cfg.chainId cfg.epoch cfg.anchor.hash = true ↔ e.Reported t := by
  have hadmitted : ∀ (e : Engine S) (ev : Event S), Collects cfg e → True →
      ev.Admitted H cfg (fun _ => True) (fun _ => True) (Collects cfg) e := by
    intro e ev h _
    cases ev with
    | message m => cases m <;> simp [Event.Admitted]
    | block b => exact ⟨h.cfg_eq, h.sets⟩
    | externalCommit b qc => exact fun _ _ _ => ⟨h.cfg_eq, h.sets⟩
    | _ => simp [Event.Admitted]
  have hresume : ∀ e : Engine S, Collects cfg e → True → Collects cfg (Engine.resume cfg e.persisted) := by
    intro e _ _
    obtain ⟨hcfg, htimeouts, -⟩ := Engine.resume_frame cfg e.persisted
    exact ⟨hcfg, by simp [htimeouts]⟩
  have h₀ := hlives.keeps stable_collects (fun _ => ⟨rfl, by simp [Engine.reanchored, Engine.new]⟩) hresume hadmitted
  obtain ⟨h₁, hargs⟩ := Begins.keeps h₀ (hadmitted e₀ ev h₀ trivial) hbegins
  obtain ⟨h, ht⟩ := hmakes.keeps stable_collects h₁ hargs
  exact h.assembled_verify_iff ht htc

namespace Watcher

def gaveUp (signer : Nat) (qc : Qc MockScheme) : Timeout MockScheme :=
  ⟨0, 2, qc, signer, (signer, .timeout 7 0 2 qc.round), none⟩

/-- The second member reports the certificate of block 1 in round 2, and then, or not, the anchor's. -/
def reports (twice : Bool) : List (Event MockScheme) :=
  [.start, .message (.timeout (gaveUp 1 (qc 1 1 1)))] ++
    (if twice then [.message (.timeout (gaveUp 1 (Engine.anchorQc (base []))))] else [])

/-- The first member, which has the rest of the weight, reports a certificate after them. -/
def lastReport : Timeout MockScheme := gaveUp 0 (Engine.anchorQc (base []))

def outcome (twice : Bool) : Option Bool :=
  ((Engine.new (base [])).play ledger.hasher 20 (fun _ _ => True) (reports twice)).bind fun s =>
    if s.1.cfg = base [] ∧ s.1.finished = false ∧ s.1.checkTimeout lastReport = true then
      (Engine.processQc (Engine.enterRound ledger.hasher 20) lastReport.highQc s.1).bind fun x =>
        (x.1.assembled lastReport).map fun tc => tc.verify (base []).validators 7 0 100
    else none

theorem of_outcome (twice : Bool) {v : Bool} (h : outcome twice = some v) : ∃ e₀ e tc,
    Lives ledger.hasher (base []) (fun _ _ => True) (fun _ => True) e₀ ∧
    Begins ledger.hasher (.message (.timeout lastReport)) e₀ (.timeout lastReport) e₀ ∧
    Makes ledger.hasher 20 20 (.timeout lastReport) e₀ (.join lastReport) e ∧
    e.assembled lastReport = some tc ∧ tc.verify (base []).validators 7 0 100 = v := by
  obtain ⟨⟨e₀, a⟩, hplay, h⟩ := Option.bind_eq_some_iff.1 h
  split at h
  case isFalse => cases h
  case isTrue hcond =>
    obtain ⟨⟨e, b⟩, hqc, h⟩ := Option.bind_eq_some_iff.1 h
    obtain ⟨tc, htc, h⟩ := Option.map_eq_some_iff.1 h
    refine ⟨e₀, e, tc, Lives.new.play hplay, .timeoutMsg ?_ hcond.2.1, ?_, htc, h⟩
    · rw [hcond.1]
      rfl
    · exact .timeoutJoin hcond.2.2 rfl hqc .self

end Watcher

/-- The second member's later, lower report replaces its first, and no entry is left that reports the
certificate the set has kept. -/
theorem assembled_certificate_refused : ∃ e₀ e : Engine MockScheme, ∃ tc : Tc MockScheme,
    Lives Watcher.ledger.hasher (Watcher.base []) (fun _ _ => True) (fun _ => True) e₀ ∧
    Begins Watcher.ledger.hasher (.message (.timeout Watcher.lastReport)) e₀ (.timeout Watcher.lastReport) e₀ ∧
    Makes Watcher.ledger.hasher 20 20 (.timeout Watcher.lastReport) e₀ (.join Watcher.lastReport) e ∧
    e.assembled Watcher.lastReport = some tc ∧ tc.verify (Watcher.base []).validators 7 0 100 = false :=
  Watcher.of_outcome true (by decide +kernel)

theorem assembled_certificates_verify_once : ∃ e : Engine MockScheme, ∃ tc : Tc MockScheme,
    e.assembled Watcher.lastReport = some tc ∧ tc.verify (Watcher.base []).validators 7 0 100 = true ∧
    e.Reported Watcher.lastReport := by
  obtain ⟨e₀, e, tc, hlives, hbegins, hmakes, htc, hv⟩ := Watcher.of_outcome false (v := true)
    (by decide +kernel)
  exact ⟨e, tc, htc, hv, (assembled_certificates_verify_iff hlives hbegins hmakes htc).1 hv⟩

end Boltchain.Consensus
