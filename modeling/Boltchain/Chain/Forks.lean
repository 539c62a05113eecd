import Boltchain.Consensus.Evidence

namespace Boltchain.Chain.Forks

open Consensus (Bytes toBeBytes)

/-- A hard fork: its name and the first block under the new rules. -/
structure Fork where
  name : String
  activation : Nat

/-- Fork identifier: CRC32 of the genesis hash and the activations passed, and the next activation height (0: none). -/
structure ForkId where
  hash : UInt32
  next : Nat
  deriving DecidableEq

inductive Compatibility where
  | compatible
  | peerKnowsNewerFork
  | incompatible
  deriving DecidableEq

def crc32Bit (crc : UInt32) : UInt32 := if crc &&& 1 ≠ 0 then (crc >>> 1) ^^^ 0xEDB88320 else crc >>> 1

def crc32Update (crc : UInt32) (data : Bytes) : UInt32 :=
  ~~~ (data.foldl (fun crc b => crc32Bit^[8] (crc ^^^ b.toUInt32)) (~~~ crc))

/-- Fork hashes after each prefix of `activations` (index 0: genesis only). -/
def hashes (genesis : Bytes) (activations : List Nat) : List UInt32 :=
  activations.scanl (fun crc a => crc32Update crc (toBeBytes 8 a)) (crc32Update 0 genesis)

/-- Distinct activation heights, ascending; the largest height stands for no activation. -/
def activations (forks : List Fork) : List Nat :=
  (((forks.map Fork.activation).filter fun a => 0 < a ∧ a ≠ 2 ^ 64 - 1).insertionSort (· ≤ ·)).dedup

def passed (acts : List Nat) (head : Nat) : Nat := (acts.takeWhile (· ≤ head)).length

def next (acts : List Nat) (head : Nat) : Nat := acts.getD (passed acts head) 0

def forkId (genesis : Bytes) (forks : List Fork) (head : Nat) : ForkId :=
  let acts := activations forks
  ⟨(hashes genesis acts).getD (passed acts head) 0, next acts head⟩

def check (genesis : Bytes) (forks : List Fork) (head : Nat) (remote : ForkId) : Compatibility :=
  let acts := activations forks
  let all := hashes genesis acts
  let passed := passed acts head
  if remote.hash = all.getD passed 0 then
    -- a next fork we have passed without them means they are stale; one we do not schedule, newer software
    if remote.next ≠ 0 ∧ remote.next ≤ head then .incompatible
    else if remote.next ≠ 0 ∧ remote.next ∉ acts then .peerKnowsNewerFork
    else .compatible
  else
    match (all.take passed).findIdx? (· = remote.hash) with
    | some i => if remote.next = acts.getD i 0 then .compatible else .incompatible
    | none => if remote.hash ∈ all.drop (passed + 1) then .compatible else .incompatible

section Prefixes

variable {l : List Nat} {a i h : Nat}

theorem sorted_activations (forks : List Fork) : (activations forks).Pairwise (· < ·) := by
  have hle := (List.pairwise_insertionSort (· ≤ ·)
    ((forks.map Fork.activation).filter fun a => 0 < a ∧ a ≠ 2 ^ 64 - 1)).sublist (List.dedup_sublist _)
  exact (hle.and (List.nodup_dedup _)).imp fun hab => lt_of_le_of_ne hab.1 hab.2

theorem activations_pos {forks : List Fork} (h : a ∈ activations forks) : 0 < a := by
  rw [activations, List.mem_dedup, List.mem_insertionSort, List.mem_filter] at h
  exact (of_decide_eq_true h.2).1

theorem mem_take_iff (hl : l.Pairwise (· < ·)) (hi : i < l.length) : a ∈ l.take i ↔ a ∈ l ∧ a < l[i] := by
  have hsplit : l.take i ++ l.drop i = l := List.take_append_drop i l
  have hdrop : l.drop i = l[i] :: l.drop (i + 1) := List.drop_eq_getElem_cons hi
  rw [← hsplit, List.pairwise_append, hdrop] at hl
  constructor
  · intro ha
    exact ⟨List.mem_of_mem_take ha, hl.2.2 a ha _ List.mem_cons_self⟩
  · rintro ⟨ha, hlt⟩
    rw [← hsplit, List.mem_append, hdrop, List.mem_cons] at ha
    rcases ha with ha | rfl | ha
    · exact ha
    · exact absurd hlt (lt_irrefl _)
    · exact absurd (List.rel_of_pairwise_cons hl.2.1 ha) (lt_asymm hlt)

theorem take_passed (l : List Nat) (h : Nat) : l.take (passed l h) = l.takeWhile (· ≤ h) :=
  (List.prefix_iff_eq_take.1 (List.takeWhile_prefix _)).symm

theorem mem_passed_iff (hl : l.Pairwise (· < ·)) : a ∈ l.take (passed l h) ↔ a ∈ l ∧ a ≤ h := by
  rw [take_passed]
  induction l with
  | nil => simp
  | cons b l ih =>
    obtain ⟨hb, hl⟩ := List.pairwise_cons.1 hl
    rw [List.takeWhile_cons]
    by_cases hbh : b ≤ h
    · rw [if_pos (by simpa using hbh), List.mem_cons, List.mem_cons, ih hl]
      constructor
      · rintro (rfl | ⟨ha, hah⟩)
        · exact ⟨.inl rfl, hbh⟩
        · exact ⟨.inr ha, hah⟩
      · rintro ⟨rfl | ha, hah⟩
        · exact .inl rfl
        · exact .inr ⟨ha, hah⟩
    · rw [if_neg (by simpa using hbh)]
      refine ⟨nofun, fun ⟨ha, hah⟩ => absurd hah ?_⟩
      rcases List.mem_cons.1 ha with rfl | ha
      · exact hbh
      · have := hb a ha
        omega

theorem lt_getElem_passed (hl : l.Pairwise (· < ·)) (hi : passed l h < l.length) : h < l[passed l h] := by
  by_contra hle
  have hmem := (mem_passed_iff hl).2 ⟨List.getElem_mem hi, not_lt.1 hle⟩
  exact lt_irrefl _ ((mem_take_iff hl hi).1 hmem).2

theorem next_of_ne_zero (hl : l.Pairwise (· < ·)) (hne : next l h ≠ 0) :
    next l h ∈ l ∧ h < next l h ∧ ∀ a ∈ l.take (passed l h), a < next l h := by
  have hi : passed l h < l.length := by
    by_contra hge
    exact hne (List.getD_eq_default _ _ (not_lt.1 hge))
  have hnext : next l h = l[passed l h] := List.getD_eq_getElem _ _ hi
  rw [hnext]
  exact ⟨List.getElem_mem hi, lt_getElem_passed hl hi, fun a ha => ((mem_take_iff hl hi).1 ha).2⟩

theorem passed_le (l : List Nat) (h : Nat) : passed l h ≤ l.length := (List.takeWhile_prefix _).length_le

end Prefixes

section Hashes

variable {genesis : Bytes} {acts : List Nat} {i : Nat} {x : UInt32}

def crc (genesis : Bytes) (past : List Nat) : UInt32 :=
  past.foldl (fun crc a => crc32Update crc (toBeBytes 8 a)) (crc32Update 0 genesis)

theorem hashes_getD (hi : i ≤ acts.length) : (hashes genesis acts).getD i 0 = crc genesis (acts.take i) := by
  rw [List.getD_eq_getElem?_getD, hashes, List.getElem?_scanl, if_pos hi]
  rfl

theorem findIdx_past_eq_some {j : Nat} (h : ((hashes genesis acts).take i).findIdx? (· = x) = some j) :
    j < i ∧ x = crc genesis (acts.take j) := by
  obtain ⟨hj, hx, -⟩ := List.findIdx?_eq_some_iff_getElem.1 h
  have hji : j < i := (List.length_take_le i _).trans_lt' hj
  have hget : ((hashes genesis acts).take i)[j] = crc genesis (acts.take j) := by
    rw [List.getElem_take]
    exact List.getElem_scanl _
  rw [hget] at hx
  exact ⟨hji, (of_decide_eq_true hx).symm⟩

theorem findIdx_past_eq_none (hi : i ≤ acts.length) (h : ((hashes genesis acts).take i).findIdx? (· = x) = none) :
    ∀ j < i, x ≠ crc genesis (acts.take j) := by
  rintro j hj rfl
  refine absurd (List.findIdx?_eq_none_iff.1 h (crc genesis (acts.take j)) ?_) (by simp)
  refine List.mem_iff_getElem?.2 ⟨j, ?_⟩
  rw [List.getElem?_take_of_lt hj, hashes, List.getElem?_scanl, if_pos (by omega)]
  rfl

theorem mem_future_iff : x ∈ (hashes genesis acts).drop (i + 1) ↔
    ∃ j, i < j ∧ j ≤ acts.length ∧ x = crc genesis (acts.take j) := by
  rw [List.mem_drop_iff_getElem, hashes]
  simp only [List.getElem_scanl, List.length_scanl]
  constructor
  · rintro ⟨j, hj, rfl⟩
    exact ⟨i + 1 + j, by omega, by omega, rfl⟩
  · rintro ⟨j, hij, hj, rfl⟩
    refine ⟨j - (i + 1), by omega, ?_⟩
    rw [Nat.add_sub_cancel' hij]
    rfl

end Hashes

section Check

variable {genesis : Bytes} {ours theirs : List Fork} {h₁ h₂ : Nat}

/-- Different activations passed under one of the two tables have different CRCs. -/
def Distinct (genesis : Bytes) (ours theirs : List Fork) : Prop :=
  ∀ p ∈ (activations ours).inits ++ (activations theirs).inits,
    ∀ q ∈ (activations ours).inits ++ (activations theirs).inits, crc genesis p = crc genesis q → p = q

theorem Distinct.take_eq (h : Distinct genesis ours theirs) {i j : Nat}
    (heq : crc genesis ((activations theirs).take j) = crc genesis ((activations ours).take i)) :
    (activations theirs).take j = (activations ours).take i :=
  h _ (List.mem_append_right _ ((List.mem_inits _ _).2 (List.take_prefix _ _))) _
    (List.mem_append_left _ ((List.mem_inits _ _).2 (List.take_prefix _ _))) heq

/-- The verdict on a peer: what both have passed, and the peer's next activation. -/
theorem check_cases (h₁ h₂ : Nat) (hfree : Distinct genesis ours theirs) :
    let a := activations ours
    let b := activations theirs
    let next := next b h₂
    let verdict := check genesis ours h₁ (forkId genesis theirs h₂)
    (b.take (passed b h₂) = a.take (passed a h₁) ∧
      verdict = if next ≠ 0 ∧ next ≤ h₁ then .incompatible
        else if next ≠ 0 ∧ next ∉ a then .peerKnowsNewerFork else .compatible) ∨
    (∃ i < passed a h₁, b.take (passed b h₂) = a.take i ∧
      verdict = if next = a.getD i 0 then .compatible else .incompatible) ∨
    (∃ j, passed a h₁ < j ∧ j ≤ a.length ∧ b.take (passed b h₂) = a.take j ∧ verdict = .compatible) ∨
    ((∀ i ≤ a.length, b.take (passed b h₂) ≠ a.take i) ∧ verdict = .incompatible) := by
  intro a b next verdict
  have hpast := passed_le a h₁
  have hhash : (forkId genesis theirs h₂).hash = crc genesis (b.take (passed b h₂)) := hashes_getD (passed_le b h₂)
  have hverdict : verdict = check genesis ours h₁ (forkId genesis theirs h₂) := rfl
  rw [check] at hverdict
  simp only [hhash] at hverdict
  rw [hashes_getD hpast] at hverdict
  split at hverdict
  case isTrue heq => exact .inl ⟨hfree.take_eq heq, hverdict⟩
  case isFalse hne =>
    split at hverdict
    case h_1 i hfind =>
      obtain ⟨hi, heq⟩ := findIdx_past_eq_some hfind
      exact .inr (.inl ⟨i, hi, hfree.take_eq heq, hverdict⟩)
    case h_2 hfind =>
      have hbefore := findIdx_past_eq_none hpast hfind
      split at hverdict
      case isTrue hmem =>
        obtain ⟨j, hj, hle, heq⟩ := mem_future_iff.1 hmem
        exact .inr (.inr (.inl ⟨j, hj, hle, hfree.take_eq heq, hverdict⟩))
      case isFalse hmem =>
        refine .inr (.inr (.inr ⟨fun i hi heq => ?_, hverdict⟩))
        rcases lt_trichotomy i (passed a h₁) with hlt | rfl | hgt
        · exact hbefore i hlt (by rw [heq])
        · exact hne (by rw [heq])
        · exact hmem (mem_future_iff.2 ⟨i, hgt, hi, by rw [heq]⟩)

theorem take_injective {l : List Nat} {i j : Nat} (hi : i ≤ l.length) (hj : j ≤ l.length) (h : l.take i = l.take j) : i = j := by
  have := congrArg List.length h
  rwa [List.length_take_of_le hi, List.length_take_of_le hj] at this

theorem mem_iff_of_ahead {a b : List Nat} (ha : a.Pairwise (· < ·)) (hb : b.Pairwise (· < ·)) {j x : Nat}
    (hj : passed a h₁ ≤ j) (heq : b.take (passed b h₂) = a.take j) (hx : x ≤ min h₁ h₂) : x ∈ a ↔ x ∈ b := by
  obtain ⟨hx₁, hx₂⟩ := le_min_iff.1 hx
  constructor
  · intro hmem
    have hpassed := (List.take_prefix_take_left hj).subset ((mem_passed_iff ha).2 ⟨hmem, hx₁⟩)
    rw [← heq] at hpassed
    exact List.mem_of_mem_take hpassed
  · intro hmem
    have hpassed := (mem_passed_iff hb).2 ⟨hmem, hx₂⟩
    rw [heq] at hpassed
    exact List.mem_of_mem_take hpassed

theorem check_of_same (hfree : Distinct genesis ours theirs) (hsame : activations ours = activations theirs) :
    check genesis ours h₁ (forkId genesis theirs h₂) = .compatible := by
  have hcases := check_cases h₁ h₂ hfree
  have hsorted := sorted_activations theirs
  have hpast := passed_le (activations theirs) h₁
  have hpeer := passed_le (activations theirs) h₂
  rw [hsame] at hcases
  rcases hcases with ⟨heq, hverdict⟩ | ⟨i, hi, heq, hverdict⟩ | ⟨j, -, -, -, hverdict⟩ | ⟨hnone, -⟩
  · have hnext : next (activations theirs) h₂ = next (activations theirs) h₁ := by
      rw [next, next, take_injective hpeer hpast heq]
    rw [hverdict, hnext, if_neg, if_neg]
    · exact fun hout => hout.2 (next_of_ne_zero hsorted hout.1).1
    · exact fun hpassed => absurd hpassed.2 (not_le.2 (next_of_ne_zero hsorted hpassed.1).2.1)
  · rw [hverdict, next, take_injective hpeer (hi.le.trans hpast) heq, if_pos rfl]
  · exact hverdict
  · exact absurd rfl (hnone _ hpeer)

/-- Fork ids tell nodes with other rules apart: equal tables are compatible at any heads, and a peer that is not
incompatible has passed the same activations up to the lower head and schedules none that was passed without it. -/
theorem fork_ids_complete_and_sound (genesis : Bytes) (ours theirs : List Fork) (h₁ h₂ : Nat)
    (hfree : Distinct genesis ours theirs) :
    (activations ours = activations theirs → check genesis ours h₁ (forkId genesis theirs h₂) = .compatible) ∧
      (check genesis ours h₁ (forkId genesis theirs h₂) ≠ .incompatible →
        (∀ a, 1 ≤ a → a ≤ min h₁ h₂ → (a ∈ activations ours ↔ a ∈ activations theirs)) ∧
          ((forkId genesis theirs h₂).next ≠ 0 → (forkId genesis theirs h₂).next ≤ h₁ →
            (forkId genesis theirs h₂).next ∈ activations ours)) := by
  refine ⟨check_of_same hfree, fun hok => ?_⟩
  have hcases := check_cases h₁ h₂ hfree
  have ha := sorted_activations ours
  have hb := sorted_activations theirs
  show _ ∧ (next (activations theirs) h₂ ≠ 0 → next (activations theirs) h₂ ≤ h₁ → next (activations theirs) h₂ ∈ _)
  rcases hcases with ⟨heq, hverdict⟩ | ⟨i, hi, heq, hverdict⟩ | ⟨j, hj, hle, heq, hverdict⟩ | ⟨-, hverdict⟩
  · -- the same state: the next fork lies above our head
    refine ⟨fun x _ hx => mem_iff_of_ahead ha hb le_rfl heq hx, fun hne hpassed => ?_⟩
    rw [if_pos ⟨hne, hpassed⟩] at hverdict
    exact absurd hverdict hok
  · -- a past state: their next fork is the one we passed from there
    have hlt : i < (activations ours).length := hi.trans_le (passed_le _ _)
    have hsame : next (activations theirs) h₂ = (activations ours)[i] := by
      rw [← List.getD_eq_getElem _ 0 hlt]
      by_contra hne
      rw [if_neg hne] at hverdict
      exact hok hverdict
    have hpos := activations_pos (List.getElem_mem hlt)
    obtain ⟨-, habove, -⟩ := next_of_ne_zero hb (h := h₂) (by omega)
    refine ⟨fun x _ hx => ?_, fun _ _ => hsame ▸ List.getElem_mem hlt⟩
    have hbelow : x ≤ h₂ ∧ x < (activations ours)[i] := by omega
    rw [← and_iff_left (a := x ∈ activations theirs) hbelow.1, ← mem_passed_iff hb, heq, mem_take_iff ha hlt,
      and_iff_left hbelow.2]
  · -- a future state: they have passed our next fork, and theirs lies above it
    have hlt : passed (activations ours) h₁ < (activations ours).length := hj.trans_le hle
    refine ⟨fun x _ hx => mem_iff_of_ahead ha hb hj.le heq hx, fun hne hpassed => ?_⟩
    have hmem : (activations ours)[passed (activations ours) h₁] ∈ (activations ours).take j :=
      List.mem_take_iff_getElem.2 ⟨_, by omega, rfl⟩
    rw [← heq] at hmem
    have hbelow := (next_of_ne_zero hb hne).2.2 _ hmem
    have habove := lt_getElem_passed ha hlt
    omega
  · exact absurd hverdict hok

def twoForks : List Fork := [⟨"f", 200⟩, ⟨"f", 100⟩]

theorem fork_ids_complete_and_sound_two :
    check [0x11] twoForks 150 (forkId [0x11] twoForks 10) = .compatible :=
  (fork_ids_complete_and_sound [0x11] twoForks twoForks 150 10 (by unfold Distinct; decide +kernel)).1 rfl

end Check

end Boltchain.Chain.Forks
