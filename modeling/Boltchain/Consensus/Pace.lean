import Boltchain.Consensus.RefineEvents

namespace Boltchain.Consensus

variable {S : Scheme}

/-- The high certificate is of a round below the current one; with `k = 1`, as before the start, it
may also be of the current one. -/
def Engine.Paced (k : Nat) (e : Engine S) : Prop := e.highQc.round < e.round + k

def Effect.InTurn : Effect S → Prop
  | .act (.propose r qc _) => qc.round < r
  | _ => True

def Paces (k : Nat) (o : Outcome S) : Prop :=
  ∀ e' l, o = some (e', l) → e'.Paced k ∧ ∀ x ∈ l, x.InTurn

variable {e e' : Engine S} {l : List (Effect S)}

/-- A call keeps the pace, and asks for proposals in turn. -/
def InPace : Rel S := fun e e' l => (∀ k ≤ 1, e.Paced k → e'.Paced k) ∧ (e.Paced 1 → ∀ x ∈ l, x.InTurn)

/-- Entering a round above the high certificate's. -/
def EntersInPace (r : Nat) : Rel S := fun e e' l => e.highQc.round < r → e'.Paced 0 ∧ ∀ x ∈ l, x.InTurn

theorem Engine.Paced.mono {j k : Nat} (h : e.Paced j) (hjk : j ≤ k) : e.Paced k :=
  h.trans_le (Nat.add_le_add_left hjk _)

theorem inPace_of_frame (hround : e'.round = e.round) (hhigh : e'.highQc = e.highQc) (hl : ∀ x ∈ l, x.InTurn) :
    InPace e e' l := by
  refine ⟨fun k _ h => ?_, fun _ => hl⟩
  unfold Engine.Paced
  rwa [hround, hhigh]

theorem inTurn_append {a b : List (Effect S)} (ha : ∀ x ∈ a, x.InTurn) (hb : ∀ x ∈ b, x.InTurn) :
    ∀ x ∈ a ++ b, x.InTurn :=
  fun x hx => (List.mem_append.1 hx).elim (ha x) (hb x)

theorem Engine.Settling.inTurn (h : e.Settling e' l) : ∀ x ∈ l, x.InTurn := by
  intro x hx
  cases h.settles x hx <;> trivial

theorem inTurn_of_utters (h : ∀ x ∈ l, x.Utters) : ∀ x ∈ l, x.InTurn := by
  intro x hx
  cases h x hx <;> trivial

theorem Engine.Settling.recorded {qc : Qc S} (h : (e.recordQc qc).Settling e' l) :
    e'.round = e.round ∧ e'.highQc.round = max e.highQc.round qc.round := by
  obtain ⟨_, _, _, _, rfl⟩ := h.frame
  refine ⟨rfl, ?_⟩
  simp only [Engine.recordQc]
  split <;> omega

theorem EntersInPace.inPace {e₁ : Engine S} {r : Nat} (h : EntersInPace r e₁ e' l) (hhigh : e.Paced 1 → e₁.highQc.round < r) :
    InPace e e' l :=
  ⟨fun k hk hp => (h (hhigh (hp.mono hk))).1.mono (Nat.zero_le k), fun hp => (h (hhigh hp)).2⟩

theorem carries_inPace (H : Hasher) :
    CarriesTimeouts H (fun _ => True) (fun _ => True) (InPace (S := S)) EntersInPace where
  nothing := inPace_of_frame rfl rfl (by simp)
  trans h h' := ⟨fun k hk hp => h'.1 k hk (h.1 k hk hp),
    fun hp => inTurn_append (h.2 hp) (h'.2 (h.1 1 le_rfl hp))⟩
  erase _ h := ⟨h.1, fun hp x hx => h.2 hp x (List.mem_of_mem_eraseP hx)⟩
  stay hcommit hlt := by
    have hsettling := Engine.settling_tryCommit hcommit
    obtain ⟨hround, hhigh⟩ := hsettling.recorded
    refine ⟨fun k hk hp => ?_, fun _ => hsettling.inTurn⟩
    unfold Engine.Paced at hp ⊢
    omega
  leave {e e₁ e' qc a b} hcommit hle henter := by
    have hsettling := Engine.settling_tryCommit hcommit
    obtain ⟨hround, hhigh⟩ := hsettling.recorded
    have hpaces : InPace e e' b := henter.inPace fun hp => by
      unfold Engine.Paced at hp
      show e₁.highQc.round < qc.round + 1
      omega
    exact ⟨hpaces.1, fun hp => inTurn_append hsettling.inTurn (hpaces.2 hp)⟩
  enter hr h := h.inPace fun hp => by
    unfold Engine.Paced at hp
    omega
  opens {_ e₁ _ r _ _ _} hr hretry hopens hhigh := by
    have hsettling := Engine.settling_retryCommit hretry
    have hpaced : e₁.highQc.round < r := by
      obtain ⟨_, _, _, _, rfl⟩ := hsettling.frame
      exact hhigh
    have hround : e₁.round = r := hsettling.frame.round
    have hpaced' : e₁.Paced 0 := by
      unfold Engine.Paced
      omega
    cases hopens with
    | asks => exact ⟨hpaced', inTurn_append hsettling.inTurn (by simpa [Effect.InTurn] using hpaced)⟩
    | _ => exact ⟨hpaced', inTurn_append hsettling.inTurn (by simp [Effect.InTurn])⟩
  follow h h' hhigh := ⟨h'.1 0 (Nat.zero_le 1) (h hhigh).1,
    inTurn_append (h hhigh).2 (h'.2 ((h hhigh).1.mono (Nat.zero_le 1)))⟩
  insert _ _ _ := inPace_of_frame rfl rfl (by simp)
  count _ _ _ := inPace_of_frame rfl rfl (by simp)
  pend _ _ := inPace_of_frame rfl rfl (by simp)
  validate _ := inPace_of_frame rfl rfl (by simp [Effect.InTurn])
  utter _ hl := inPace_of_frame rfl rfl (inTurn_of_utters hl)
  join _ _ := inPace_of_frame rfl rfl (by simp)
  quit := inPace_of_frame rfl rfl (by simp [Effect.InTurn])
  pass := inPace_of_frame rfl rfl (by simp [Effect.InTurn])
  speak hl := inPace_of_frame rfl rfl (inTurn_of_utters hl)
  retry heq := by
    have hsettling := Engine.settling_retryCommit heq
    obtain ⟨_, _, _, _, rfl⟩ := hsettling.frame
    exact inPace_of_frame rfl rfl hsettling.inTurn

variable {H : Hasher} {n k : Nat}

/-- Every call keeps the pace. -/
theorem Engine.on_paces {ev : Event S} (hk : k ≤ 1) (h : e.Paced k) : Paces k (e.on H n ev) := by
  have hev : ev.Carried H (fun _ => True) InPace e := by
    cases ev with
    | message m => cases m <;> simp [Event.Carried]
    | proposed => exact fun _ => trivial
    | block => exact inPace_of_frame rfl rfl (by simp)
    | externalCommit => exact fun _ _ _ => inPace_of_frame rfl rfl (by simp)
    | _ => trivial
  intro e' l hon
  have hpace := (Does.on (carries_inPace H) hev e' l hon).2
  exact ⟨hpace.1 k hk h, hpace.2 (h.mono hk)⟩

theorem Engine.start_paces (h : e.Paced 1) : Paces 0 (e.start H n) := fun _ _ hon =>
  (Does.enterRound (carries_inPace H).toCarries n _ _ _ (Nat.lt_succ_self _) _ _ hon).2 h

theorem Engine.paced_new (cfg : Config) : (Engine.new cfg : Engine S).Paced 1 := Nat.zero_lt_one

theorem Engine.paced_reanchored (cfg : Config) (lastVoted : Nat) :
    (Engine.reanchored cfg lastVoted : Engine S).Paced 1 := Nat.succ_pos lastVoted

theorem Engine.paced_resume (cfg : Config) (p : Persisted S) : (Engine.resume cfg p).Paced 1 := by
  unfold Engine.resume
  split
  · exact Engine.paced_new cfg
  · exact Nat.lt_succ_of_le (le_max_left _ _)

end Boltchain.Consensus
