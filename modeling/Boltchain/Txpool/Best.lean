import Boltchain.Txpool.Admission

namespace Boltchain.Txpool

open Lib

section Runs

variable {c : PoolConfig} {st : AccountState} {pool : Inner} {a : Address} {baseFee : Nat} {tx : Tx}

theorem Tx.effectiveTip_eq_none : tx.effectiveTip baseFee = none ↔ tx.maxFeePerGas < baseFee := by
  unfold Tx.effectiveTip
  split
  · simp [*]
  · rename_i hle
    cases tx.maxPriorityFeePerGas <;> simp [hle]

/-- The transactions pooled for the nonces of a sender from `start` on, as far as they follow one another
and their fee caps cover the base fee. -/
structure MaximalRun (pool : Inner) (baseFee : Nat) (a : Address) (start : Nat) (run : List Tx) : Prop where
  entries : ∀ k tx, run[k]? = some tx → pool.pooled a (start + k) = some tx ∧ baseFee ≤ tx.maxFeePerGas
  maximal : ∀ tx, pool.pooled a (start + run.length) = some tx → tx.maxFeePerGas < baseFee

variable {start : Nat}

theorem MaximalRun.nil (h : ∀ tx, pool.pooled a start = some tx → tx.maxFeePerGas < baseFee) :
    MaximalRun pool baseFee a start [] := ⟨nofun, h⟩

theorem MaximalRun.cons {run : List Tx} (htx : pool.pooled a start = some tx)
    (hfee : baseFee ≤ tx.maxFeePerGas) (h : MaximalRun pool baseFee a (start + 1) run) :
    MaximalRun pool baseFee a start (tx :: run) := by
  refine ⟨fun k tx' hk => ?_, fun tx' htx' => h.maximal tx' ?_⟩
  · cases k with
    | zero =>
      cases hk
      exact ⟨htx, hfee⟩
    | succ k =>
      rw [show start + (k + 1) = start + 1 + k by omega]
      exact h.entries k tx' hk
  · rw [List.length_cons, ← Nat.add_assoc, Nat.add_right_comm] at htx'
    exact htx'

/-- The entries of the map from nonces to hashes from `expected` on, in their order. -/
structure Range (pool : Inner) (a : Address) (expected : Nat) (nonces : List (Nat × Hash)) : Prop where
  sorted : nonces.Pairwise fun e e' => e.1 < e'.1
  mem_iff : ∀ n h, (n, h) ∈ nonces ↔ pool.hashAt a n = some h ∧ expected ≤ n

variable {expected : Nat} {h : Hash} {nonces : List (Nat × Hash)}

theorem Range.tail
    (hr : Range pool a expected ((expected, h) :: nonces)) : Range pool a (expected + 1) nonces := by
  obtain ⟨hfirst, hsorted⟩ := List.pairwise_cons.1 hr.sorted
  refine ⟨hsorted, fun n k => ⟨fun hmem => ?_, fun ⟨hat, hle⟩ => ?_⟩⟩
  · exact ⟨((hr.mem_iff n k).1 (List.mem_cons_of_mem _ hmem)).1, hfirst _ hmem⟩
  · have hmem := (hr.mem_iff n k).2 ⟨hat, by omega⟩
    obtain heq | hmem := List.mem_cons.1 hmem
    · cases heq
      omega
    · exact hmem

theorem Inner.Sound.nonce_lt (hs : pool.Sound c) {n : Nat} (hat : pool.hashAt a n = some h) : n < 2 ^ 64 := by
  obtain ⟨p, -, -, rfl⟩ := (hs.indexed _ _ _).1 hat
  exact p.tx.nonce_lt

/-- The loop over the nonces of a sender collects its maximal run. -/
theorem Inner.Sound.run_spec (hs : pool.Sound c) (baseFee : Nat)
    (hr : Range pool a expected nonces) :
    ∃ ps, pool.run baseFee expected nonces = some ps ∧ (∀ p ∈ ps, p.sender = a) ∧
      MaximalRun pool baseFee a expected (ps.map PooledTx.tx) := by
  induction nonces generalizing expected with
  | nil =>
    refine ⟨[], rfl, nofun, .nil fun tx htx => ?_⟩
    obtain ⟨k, p, hat, -⟩ := Inner.pooled_eq_some.1 htx
    exact absurd ((hr.mem_iff expected k).2 ⟨hat, le_rfl⟩) List.not_mem_nil
  | cons e nonces ih =>
    obtain ⟨n, h⟩ := e
    obtain ⟨hat, hle⟩ := (hr.mem_iff n h).1 List.mem_cons_self
    by_cases hn : n = expected
    · subst hn
      obtain ⟨p, hp, hsender, -⟩ := (hs.indexed _ _ _).1 hat
      have hpooled : pool.pooled a n = some p.tx := Inner.pooled_eq_some.2 ⟨h, p, hat, hp, rfl⟩
      cases htip : p.tx.effectiveTip baseFee with
      | none =>
        refine ⟨[], by simp [Inner.run, hp, htip], nofun, .nil fun tx htx => ?_⟩
        rw [hpooled] at htx
        cases htx
        exact Tx.effectiveTip_eq_none.1 htip
      | some tip =>
        obtain ⟨ps, hps, hsenders, hrun⟩ := ih hr.tail
        -- The counter of expected nonces wraps only after the last nonce.
        have hwrap : pool.run baseFee ((n + 1) % 2 ^ 64) nonces = pool.run baseFee (n + 1) nonces := by
          cases nonces with
          | nil => rfl
          | cons e' nonces =>
            obtain ⟨hat', hle'⟩ := (hr.tail.mem_iff e'.1 e'.2).1 List.mem_cons_self
            have := hs.nonce_lt hat'
            rw [Nat.mod_eq_of_lt (by omega)]
        have hfee : baseFee ≤ p.tx.maxFeePerGas := by
          by_contra hlt
          rw [Tx.effectiveTip_eq_none.2 (by omega)] at htip
          cases htip
        refine ⟨p :: ps, ?_, List.forall_mem_cons.2 ⟨hsender, hsenders⟩, .cons hpooled hfee hrun⟩
        rw [Inner.run, if_neg (not_not.2 rfl), hp, Option.bind_eq_bind, Option.bind_some]
        simp only [htip]
        rw [hwrap, hps]
        rfl
    · refine ⟨[], by simp [Inner.run, hn], nofun, .nil fun tx htx => ?_⟩
      obtain ⟨k, p, hat', -⟩ := Inner.pooled_eq_some.1 htx
      have hmem := (hr.mem_iff expected k).2 ⟨hat', le_rfl⟩
      obtain heq | hmem := List.mem_cons.1 hmem
      · cases heq
        exact absurd rfl hn
      · have := (List.pairwise_cons.1 hr.sorted).1 _ hmem
        simp only at this
        omega

theorem Inner.Sound.runOf_spec (hs : pool.Sound c) (st : AccountState) (baseFee : Nat) {m : Table Nat Hash}
    (hm : pool.bySender.get a = some m) :
    ∃ ps, pool.runOf st baseFee a = some ps ∧ (∀ p ∈ ps, p.sender = a) ∧
      MaximalRun pool baseFee a (st a).nonce (ps.map PooledTx.tx) := by
  have hr : Range pool a (st a).nonce (m.entries.filter fun e => (st a).nonce ≤ e.1) := by
    refine ⟨m.sorted.filter _, fun n h => ?_⟩
    rw [List.mem_filter, Inner.hashAt, hm, Option.bind_some, Table.get_eq_some, decide_eq_true_eq]
  obtain ⟨ps, hps, hspec⟩ := hs.run_spec baseFee hr
  exact ⟨ps, by rw [Inner.runOf, hm]; exact hps, hspec⟩

end Runs

theorem mapM_eq_map {α β : Type} {f : α → Option β} {g : α → β} {l : List α} (h : ∀ a ∈ l, f a = some (g a)) :
    l.mapM f = some (l.map g) := by
  induction l with
  | nil => rfl
  | cons a l ih =>
    obtain ⟨ha, hl⟩ := List.forall_mem_cons.1 h
    rw [List.mapM_cons, ha, ih hl]
    rfl

section Merging

variable {c : PoolConfig} {pool : Inner} {order : List Address} {g : Address → List PooledTx}

theorem ownedBy_sender (hnodup : order.Nodup) (hmine : ∀ a ∈ order, ∀ p ∈ g a, p.sender = a)
    (hother : ∀ a, a ∉ order → g a = []) (a : Address) :
    ∃ i : Nat, ((order.map g).filter fun run => !run.isEmpty)[i]?.getD [] = g a ∧
      Merge.OwnedBy (fun i : Nat => ((order.map g).filter fun run => !run.isEmpty)[i]?.getD []) PooledTx.sender i a := by
  have hmem : ∀ l, l ∈ (order.map g).filter (fun run => !run.isEmpty) ↔ (∃ b ∈ order, g b = l) ∧ l ≠ [] := by
    intro l
    simp [List.mem_filter]
  have hdisj : ((order.map g).filter fun run => !run.isEmpty).Pairwise
      fun l l' => ∀ x ∈ l, ∀ y ∈ l', x.sender ≠ y.sender := by
    apply List.Pairwise.filter
    rw [List.pairwise_map]
    refine hnodup.imp_of_mem fun {b b'} hb hb' hne x hx y hy => ?_
    rw [hmine b hb x hx, hmine b' hb' y hy]
    exact hne
  by_cases hempty : g a = []
  · refine ⟨_, by simp [hempty], Merge.ownedBy_of_absent fun l hl x hx hsender => ?_⟩
    obtain ⟨⟨b, hb, rfl⟩, -⟩ := (hmem l).1 hl
    rw [hmine b hb x hx] at hsender
    subst hsender
    rw [hempty] at hx
    cases hx
  · have ha : a ∈ order := by
      by_contra ha
      exact hempty (hother a ha)
    exact Merge.ownedBy_of_mem hdisj ((hmem _).2 ⟨⟨a, ha, rfl⟩, hempty⟩) hempty (hmine a ha)

end Merging

/-- For every pool that calls lead to, every account state, base fee and order of the senders, `best`
returns. It gives each sender's maximal run, whole and in the order of nonces; and what it gives at each
place has the greatest effective tip among the transactions that are next in the runs of all senders. -/
theorem best_is_greedy_merge (c : PoolConfig) (pool : Inner) (h : Reached c (fun _ _ => True) pool) (st : AccountState)
    (order : List Address) (horder : order.Perm (pool.bySender.entries.map Prod.fst)) (baseFee : Nat) :
    ∃ out, pool.best st order baseFee = some out ∧ ∃ runs : Address → List Tx,
      (∀ a, MaximalRun pool baseFee a (st a).nonce (runs a)) ∧
      (∀ a, (out.filter fun e => e.2 = a).map Prod.fst = runs a) ∧
      ∀ n tx sender, out[n]? = some (tx, sender) → ∀ a tx', (runs a)[(out.take n).countP fun e => e.2 = a]? = some tx' →
        ∃ tip tip', tx.effectiveTip baseFee = some tip ∧ tx'.effectiveTip baseFee = some tip' ∧ tip' ≤ tip := by
  have hs := h.sound
  have hnodup : order.Nodup := horder.nodup_iff.2 pool.bySender.nodup_keys
  let g : Address → List PooledTx := fun a => (pool.runOf st baseFee a).getD []
  have hin : ∀ a ∈ order, ∃ ps, pool.runOf st baseFee a = some ps ∧ (∀ p ∈ ps, p.sender = a) ∧
      MaximalRun pool baseFee a (st a).nonce (ps.map PooledTx.tx) := by
    intro a ha
    obtain ⟨⟨b, m⟩, hmem, rfl⟩ := List.mem_map.1 (horder.mem_iff.1 ha)
    exact hs.runOf_spec st baseFee (Table.get_eq_some.2 hmem)
  have hget : ∀ a, a ∉ order → pool.bySender.get a = none := by
    intro a ha
    refine Option.eq_none_iff_forall_ne_some.2 fun m hm => ha (horder.mem_iff.2 ?_)
    exact List.mem_map.2 ⟨_, Table.get_eq_some.1 hm, rfl⟩
  have hother : ∀ a, a ∉ order → g a = [] := by
    intro a ha
    simp [g, Inner.runOf, hget a ha]
  have hmine : ∀ a ∈ order, ∀ p ∈ g a, p.sender = a := by
    intro a ha p hp
    obtain ⟨ps, hps, hsender, -⟩ := hin a ha
    simp only [g, hps, Option.getD_some] at hp
    exact hsender p hp
  have hmaximal : ∀ a, MaximalRun pool baseFee a (st a).nonce ((g a).map PooledTx.tx) := by
    intro a
    by_cases ha : a ∈ order
    · obtain ⟨ps, hps, -, hrun⟩ := hin a ha
      simpa only [g, hps, Option.getD_some] using hrun
    · rw [hother a ha]
      refine .nil fun tx htx => ?_
      simp [Inner.pooled, Inner.hashAt, hget a ha] at htx
  have hruns : order.mapM (pool.runOf st baseFee) = some (order.map g) := by
    apply mapM_eq_map
    intro a ha
    obtain ⟨ps, hps, -⟩ := hin a ha
    simp [g, hps]
  obtain ⟨merged, hmerge, hmerges⟩ := Merge.merge_merges (fun p : PooledTx => (p.tx.effectiveTip baseFee).getD 0)
    ((order.map g).filter fun run => !run.isEmpty)
  -- What is merged covers the base fee.
  have hfee : ∀ a, ∀ p ∈ g a, ∃ tip, p.tx.effectiveTip baseFee = some tip := by
    intro a p hp
    obtain ⟨k, hk⟩ := List.mem_iff_getElem?.1 hp
    have hle := ((hmaximal a).entries k p.tx (by simp [hk])).2
    refine Option.ne_none_iff_exists'.1 fun hnone => ?_
    have := Tx.effectiveTip_eq_none.1 hnone
    omega
  have hfilter : ∀ a, merged.filter (fun p => p.sender = a) = g a := by
    intro a
    obtain ⟨i, hi, howned⟩ := ownedBy_sender hnodup hmine hother a
    rw [hmerges.filter_eq howned, hi]
  refine ⟨merged.map fun p => (p.tx, p.sender), ?_, fun a => (g a).map PooledTx.tx, hmaximal, fun a => ?_, ?_⟩
  · rw [Inner.best, hruns, Option.bind_eq_bind, Option.bind_some, hmerge]
    rfl
  · have hown : g a = merged.filter fun p => p.sender = a := (hfilter a).symm
    simp only [hown, List.filter_map, List.map_map]
    rfl
  · intro n tx sender hn a tx' htx'
    rw [List.getElem?_map, Option.map_eq_some_iff] at hn
    obtain ⟨p, hp, heq⟩ := hn
    cases heq
    rw [← List.map_take, List.countP_map, List.getElem?_map, Option.map_eq_some_iff] at htx'
    obtain ⟨q, hq, rfl⟩ := htx'
    obtain ⟨i, hi, howned⟩ := ownedBy_sender hnodup hmine hother a
    have hrank := hmerges.greatest howned hp (y := q) (by rw [hi]; exact hq)
    have hmem : p ∈ g p.sender := by
      rw [← hfilter, List.mem_filter]
      exact ⟨List.mem_of_getElem? hp, by simp⟩
    obtain ⟨tip, htip⟩ := hfee _ p hmem
    obtain ⟨tip', htip'⟩ := hfee a q (List.mem_of_getElem? hq)
    refine ⟨tip, tip', htip, htip', ?_⟩
    simpa [htip, htip'] using hrank

section Mock

def mockPair : List Call :=
  [.add (mockState (2 ^ 255) half_lt_word) (mockTx 1500 0 1 (by decide)),
    .add (mockState (2 ^ 255) half_lt_word) { mockTx 2000 0 2 (by decide) with signer := some 8 }]

theorem best_is_greedy_merge_pair : ∃ pool : Inner, ∃ out, pool.best (mockState 0 (by decide)) [7, 8] 1000 = some out ∧
    out.map Prod.snd = [8, 7] ∧ ∀ a, MaximalRun pool 1000 a 0 ((out.filter fun e => e.2 = a).map Prod.fst) := by
  have hpair : (mockPair.foldlM (Inner.step mockConfig) .empty).map (fun pool =>
      (pool.bySender.entries.map Prod.fst, (pool.best (mockState 0 (by decide)) [7, 8] 1000).map (·.map Prod.snd))) =
      some ([7, 8], some [8, 7]) := by decide +kernel
  obtain ⟨pool, hpool, heq⟩ := Option.map_eq_some_iff.1 hpair
  rw [Prod.mk.injEq] at heq
  obtain ⟨out, hout, runs, hmaximal, hruns, -⟩ := best_is_greedy_merge mockConfig pool (reached_of_foldlM .empty hpool)
    (mockState 0 (by decide)) [7, 8] (by rw [heq.1]) 1000
  rw [hout, Option.map_some, Option.some_inj] at heq
  refine ⟨pool, out, hout, heq.2, fun a => ?_⟩
  rw [hruns a]
  exact hmaximal a

end Mock

end Boltchain.Txpool
