import Mathlib

namespace Boltchain.Lib.Merge

variable {α ι κ : Type}

section Greedy

variable [DecidableEq ι] [DecidableEq κ] (rank : α → Nat)

/-- `out` takes, one after the other, an element of the greatest rank among the heads of `rest`, until
nothing is left. -/
inductive Merges : (ι → List α) → List α → Prop
  | nil {rest : ι → List α} : (∀ i, rest i = []) → Merges rest []
  | cons {rest : ι → List α} {out : List α} (i : ι) (x : α) (xs : List α) :
      rest i = x :: xs → (∀ j y ys, rest j = y :: ys → rank y ≤ rank x) →
      Merges (Function.update rest i xs) out → Merges rest (x :: out)

variable {rank} {rest : ι → List α} {out : List α} {own : α → κ} {i : ι} {k : κ}

/-- The elements of one list, told apart by their owner. -/
structure OwnedBy (rest : ι → List α) (own : α → κ) (i : ι) (k : κ) : Prop where
  mine : ∀ x ∈ rest i, own x = k
  others : ∀ j, j ≠ i → ∀ x ∈ rest j, own x ≠ k

omit [DecidableEq κ] in
theorem OwnedBy.update {j : ι} {x : α} {xs : List α} (h : OwnedBy rest own i k) (hj : rest j = x :: xs) :
    OwnedBy (Function.update rest j xs) own i k := by
  have hsub : ∀ l, ∀ y ∈ Function.update rest j xs l, y ∈ rest l := by
    intro l y hy
    by_cases hl : l = j
    · subst hl
      rw [Function.update_self] at hy
      rw [hj]
      exact List.mem_cons_of_mem x hy
    · rwa [Function.update_of_ne hl] at hy
  exact ⟨fun y hy => h.mine y (hsub i y hy), fun l hl y hy => h.others l hl y (hsub l y hy)⟩

section Lists

variable {lists : List (List α)}

omit [DecidableEq ι] [DecidableEq κ] in
theorem ownedBy_of_mem {l : List α} (hdisj : lists.Pairwise fun l l' => ∀ x ∈ l, ∀ y ∈ l', own x ≠ own y)
    (hl : l ∈ lists) (hne : l ≠ []) (hmine : ∀ x ∈ l, own x = k) :
    ∃ i : Nat, lists[i]?.getD [] = l ∧ OwnedBy (fun i : Nat => lists[i]?.getD []) own i k := by
  obtain ⟨i, hi⟩ := List.mem_iff_getElem?.1 hl
  obtain ⟨hlt, hget⟩ := List.getElem?_eq_some_iff.1 hi
  obtain ⟨x, hx⟩ := List.exists_mem_of_ne_nil l hne
  refine ⟨i, by simp [hi], ⟨by simpa [hi] using hmine, fun j hj y hy => ?_⟩⟩
  by_cases hjlt : j < lists.length
  · rw [List.getElem?_eq_getElem hjlt, Option.getD_some] at hy
    rw [List.pairwise_iff_getElem] at hdisj
    rw [← hmine x hx]
    rw [← hget] at hx
    obtain hlt' | hlt' := Nat.lt_or_gt_of_ne hj
    · exact hdisj j i hjlt hlt hlt' y hy x hx
    · exact (hdisj i j hlt hjlt hlt' x hx y hy).symm
  · rw [List.getElem?_eq_none (by omega), Option.getD_none] at hy
    cases hy

omit [DecidableEq ι] [DecidableEq κ] in
theorem ownedBy_of_absent (h : ∀ l ∈ lists, ∀ x ∈ l, own x ≠ k) :
    OwnedBy (fun i : Nat => lists[i]?.getD []) own lists.length k := by
  refine ⟨by simp, fun j _ x hx => ?_⟩
  cases hj : lists[j]? with
  | none => simp [hj] at hx
  | some l =>
    simp only [hj, Option.getD_some] at hx
    exact h l (List.mem_of_getElem? hj) x hx

end Lists

theorem Merges.filter_eq (h : Merges rank rest out) (hown : OwnedBy rest own i k) :
    out.filter (fun x => own x = k) = rest i := by
  induction h with
  | nil hrest => simp [hrest i]
  | @cons rest out j x xs hj _ _ ih =>
    have hout := ih (hown.update hj)
    by_cases hji : j = i
    · subst hji
      have hx : own x = k := hown.mine x (by simp [hj])
      rw [List.filter_cons_of_pos (by simpa using hx), hout, Function.update_self, hj]
    · have hx : own x ≠ k := hown.others j hji x (by simp [hj])
      rw [List.filter_cons_of_neg (by simpa using hx), hout, Function.update_of_ne (Ne.symm hji)]

theorem Merges.greatest (h : Merges rank rest out) (hown : OwnedBy rest own i k) {n : Nat} {x y : α}
    (hx : out[n]? = some x) (hy : (rest i)[(out.take n).countP fun z => own z = k]? = some y) : rank y ≤ rank x := by
  induction h generalizing n with
  | nil hrest => simp at hx
  | @cons rest out j z zs hj hmax _ ih =>
    cases n with
    | zero =>
      obtain rfl : z = x := by simpa using hx
      rw [List.take_zero, List.countP_nil] at hy
      obtain ⟨ys, hys⟩ : ∃ ys, rest i = y :: ys := by
        cases hi : rest i with
        | nil => simp [hi] at hy
        | cons y' ys =>
          rw [hi] at hy
          cases hy
          exact ⟨ys, rfl⟩
      exact hmax i y ys hys
    | succ n =>
      apply ih (hown.update hj) (by simpa using hx)
      rw [List.take_succ_cons] at hy
      by_cases hji : j = i
      · subst hji
        have hz : own z = k := hown.mine z (by simp [hj])
        rw [List.countP_cons_of_pos (by simpa using hz), hj, List.getElem?_cons_succ] at hy
        rwa [Function.update_self]
      · have hz : own z ≠ k := hown.others j hji z (by simp [hj])
        rw [List.countP_cons_of_neg (by simpa using hz)] at hy
        rwa [Function.update_of_ne (Ne.symm hji)]

end Greedy

/-- The next element of a list that takes part in a merge: its rank, the list and the place in it. -/
structure Head where
  rank : Nat
  list : Nat
  place : Nat
deriving DecidableEq, Repr

/-- Heads of a higher rank come first, then those of an earlier list. -/
def Head.Before (a b : Head) : Prop := b.rank < a.rank ∨ a.rank = b.rank ∧ a.list ≤ b.list

instance : DecidableRel Head.Before := fun a b => inferInstanceAs (Decidable (b.rank < a.rank ∨ _))

/-- A priority queue of heads, in the order in which they leave it. -/
def push (a : Head) (queue : List Head) : List Head := queue.orderedInsert Head.Before a

section Drain

variable (rank : α → Nat) (lists : List (List α))

/-- The queue after a head has left it: the next element of its list is put in, if there is one. -/
def requeue (a : Head) (queue : List Head) : List Head :=
  match lists[a.list]?.bind (·[a.place + 1]?) with
  | some next => push ⟨rank next, a.list, a.place + 1⟩ queue
  | none => queue

/-- Takes the first head out of the queue and puts the next element of its list in, until the queue is
empty. -/
def drain : Nat → List Head → Option (List α)
  | _, [] => some []
  | 0, _ :: _ => none
  | fuel + 1, a :: queue => do
    let x ← lists[a.list]?.bind (·[a.place]?)
    let out ← drain fuel (requeue rank lists a queue)
    some (x :: out)

def heads : List Head :=
  lists.zipIdx.filterMap fun p => p.1.head?.map fun x => ⟨rank x, p.2, 0⟩

def start : List Head := (heads rank lists).foldl (fun queue a => push a queue) []

def merge : Option (List α) := drain rank lists (lists.map List.length).sum (start rank lists)

/-- What is left of each list when the first `cur i` elements of list `i` are taken. -/
def remaining (cur : Nat → Nat) (i : Nat) : List α := (lists[i]?.getD []).drop (cur i)

/-- The queue holds the next element of every list that has one left, and no other. -/
structure Queued (cur : Nat → Nat) (queue : List Head) : Prop where
  sorted : queue.Pairwise Head.Before
  nodup : (queue.map Head.list).Nodup
  sound : ∀ a ∈ queue, ∃ x xs, remaining lists cur a.list = x :: xs ∧ a = ⟨rank x, a.list, cur a.list⟩
  complete : ∀ i x xs, remaining lists cur i = x :: xs → ⟨rank x, i, cur i⟩ ∈ queue

variable {rank lists} {cur : Nat → Nat} {queue : List Head} {a : Head} {i : Nat} {x : α} {xs : List α}

theorem Head.Before.rank_le {a b : Head} (h : a.Before b) : b.rank ≤ a.rank := by
  obtain h | ⟨h, -⟩ := h <;> omega

instance : Std.Total Head.Before where
  total a b := by
    unfold Head.Before
    omega

instance : IsTrans Head Head.Before where
  trans a b c hab hbc := by
    unfold Head.Before at *
    omega

theorem mem_push {b : Head} : b ∈ push a queue ↔ b = a ∨ b ∈ queue := List.mem_orderedInsert ..

theorem perm_push (a : Head) (queue : List Head) : (push a queue).Perm (a :: queue) := List.perm_orderedInsert ..

theorem sorted_push (h : queue.Pairwise Head.Before) : (push a queue).Pairwise Head.Before :=
  List.Pairwise.orderedInsert a queue h

theorem lookup_eq (i j : Nat) : lists[i]?.bind (·[j]?) = (lists[i]?.getD [])[j]? := by
  cases lists[i]? <;> simp

theorem lookup_of_remaining (h : remaining lists cur i = x :: xs) :
    lists[i]?.bind (·[cur i]?) = some x ∧ lists[i]?.bind (·[cur i + 1]?) = xs.head? := by
  rw [lookup_eq, lookup_eq]
  have hdrop : ∀ k, (lists[i]?.getD [])[cur i + k]? = (x :: xs)[k]? := by
    intro k
    rw [← h, remaining, List.getElem?_drop]
  exact ⟨hdrop 0, (hdrop 1).trans (by simp [List.head?_eq_getElem?])⟩

theorem remaining_update (h : remaining lists cur i = x :: xs) :
    remaining lists (Function.update cur i (cur i + 1)) = Function.update (remaining lists cur) i xs := by
  funext j
  by_cases hj : j = i
  · subst hj
    rw [Function.update_self, remaining, Function.update_self, ← List.drop_drop]
    rw [remaining] at h
    rw [h]
    rfl
  · rw [Function.update_of_ne hj, remaining, remaining, Function.update_of_ne hj]

theorem Queued.step (h : Queued rank lists cur (a :: queue)) : ∃ x xs, remaining lists cur a.list = x :: xs ∧
    a = ⟨rank x, a.list, cur a.list⟩ ∧
    Queued rank lists (Function.update cur a.list (cur a.list + 1)) (requeue rank lists a queue) := by
  obtain ⟨x, xs, hrest, ha⟩ := h.sound a List.mem_cons_self
  refine ⟨x, xs, hrest, ha, ?_⟩
  obtain ⟨hfirst, hsorted⟩ := List.pairwise_cons.1 h.sorted
  obtain ⟨hfresh, hnodup⟩ := List.nodup_cons.1 h.nodup
  -- Heads of other lists stay as they are.
  have hother : ∀ b, b.list ≠ a.list → (b ∈ a :: queue ↔ b ∈ queue) := by
    intro b hb
    rw [List.mem_cons]
    exact or_iff_right fun heq => hb (congrArg Head.list heq)
  have hlist : ∀ b ∈ queue, b.list ≠ a.list := fun b hb heq => hfresh (heq ▸ List.mem_map_of_mem hb)
  have hplace : a.place = cur a.list := congrArg Head.place ha
  have hnext := (lookup_of_remaining hrest).2
  have hcases : (xs = [] ∧ requeue rank lists a queue = queue) ∨
      ∃ y ys, xs = y :: ys ∧ requeue rank lists a queue = push ⟨rank y, a.list, cur a.list + 1⟩ queue := by
    cases xs with
    | nil => exact .inl ⟨rfl, by rw [requeue, hplace, hnext]; rfl⟩
    | cons y ys => exact .inr ⟨y, ys, rfl, by rw [requeue, hplace, hnext]; rfl⟩
  have hmem : ∀ b, b ∈ requeue rank lists a queue ↔
      (∃ y ys, xs = y :: ys ∧ b = ⟨rank y, a.list, cur a.list + 1⟩) ∨ b ∈ queue := by
    intro b
    obtain ⟨hxs, hq⟩ | ⟨y, ys, hxs, hq⟩ := hcases
    · simp [hq, hxs]
    · rw [hq, mem_push, hxs]
      simp
  refine ⟨?_, ?_, fun b hb => ?_, fun i y ys hi => ?_⟩
  · obtain ⟨-, hq⟩ | ⟨y, ys, -, hq⟩ := hcases
    · rwa [hq]
    · rw [hq]
      exact sorted_push hsorted
  · obtain ⟨-, hq⟩ | ⟨y, ys, -, hq⟩ := hcases
    · rwa [hq]
    · rw [hq, ((perm_push _ queue).map Head.list).nodup_iff]
      exact List.nodup_cons.2 ⟨hfresh, hnodup⟩
  · rw [remaining_update hrest]
    obtain ⟨y, ys, hxs, rfl⟩ | hb := (hmem b).1 hb
    · exact ⟨y, ys, by simp [hxs], by simp⟩
    · obtain ⟨z, zs, hz, hbz⟩ := h.sound b (List.mem_cons_of_mem a hb)
      rw [Function.update_of_ne (hlist b hb), Function.update_of_ne (hlist b hb)]
      exact ⟨z, zs, hz, hbz⟩
  · rw [remaining_update hrest] at hi
    rw [hmem]
    by_cases hia : i = a.list
    · subst hia
      rw [Function.update_self] at hi
      rw [Function.update_self]
      exact .inl ⟨y, ys, hi, rfl⟩
    · rw [Function.update_of_ne hia] at hi
      rw [Function.update_of_ne hia]
      exact .inr ((hother _ hia).1 (h.complete i y ys hi))

theorem foldl_push (added queue : List Head) (h : queue.Pairwise Head.Before) :
    (added.foldl (fun queue a => push a queue) queue).Perm (added ++ queue) ∧
      (added.foldl (fun queue a => push a queue) queue).Pairwise Head.Before := by
  induction added generalizing queue with
  | nil => exact ⟨.refl _, h⟩
  | cons a added ih =>
    obtain ⟨hperm, hsorted⟩ := ih (push a queue) (sorted_push h)
    refine ⟨hperm.trans ?_, hsorted⟩
    exact ((perm_push a queue).append_left added).trans List.perm_middle

theorem mem_heads : a ∈ heads rank lists ↔
    ∃ x xs, lists[a.list]? = some (x :: xs) ∧ a = ⟨rank x, a.list, 0⟩ := by
  simp only [heads, List.mem_filterMap, Prod.exists, List.mem_zipIdx_iff_getElem?, Option.map_eq_some_iff]
  constructor
  · rintro ⟨l, i, hl, x, hx, rfl⟩
    obtain ⟨xs, rfl⟩ := List.head?_eq_some_iff.1 hx
    exact ⟨x, xs, hl, rfl⟩
  · rintro ⟨x, xs, hl, ha⟩
    exact ⟨x :: xs, a.list, hl, x, rfl, ha.symm⟩

theorem nodup_heads : ((heads rank lists).map Head.list).Nodup := by
  have hindex : lists.zipIdx.Pairwise fun p q => p.2 ≠ q.2 := by
    have hnodup : (lists.zipIdx.map Prod.snd).Nodup := by
      rw [List.zipIdx_map_snd]
      exact List.nodup_range'
    exact List.pairwise_map.1 hnodup
  rw [List.Nodup, List.pairwise_map, heads, List.pairwise_filterMap]
  refine hindex.imp fun hne a ha b hb => ?_
  obtain ⟨x, -, rfl⟩ := Option.map_eq_some_iff.1 ha
  obtain ⟨y, -, rfl⟩ := Option.map_eq_some_iff.1 hb
  exact hne

theorem queued_start (rank : α → Nat) (lists : List (List α)) : Queued rank lists (fun _ => 0) (start rank lists) := by
  obtain ⟨hperm, hsorted⟩ := foldl_push (heads rank lists) [] .nil
  rw [List.append_nil] at hperm
  have hremaining : ∀ i x xs, remaining lists (fun _ => 0) i = x :: xs ↔ lists[i]? = some (x :: xs) := by
    intro i x xs
    rw [remaining, List.drop_zero]
    cases lists[i]? <;> simp
  refine ⟨hsorted, ((hperm.map Head.list).nodup_iff).2 nodup_heads, fun a ha => ?_, fun i x xs hi => ?_⟩
  · obtain ⟨x, xs, hl, heq⟩ := mem_heads.1 (hperm.mem_iff.1 ha)
    exact ⟨x, xs, (hremaining _ x xs).2 hl, heq⟩
  · exact hperm.mem_iff.2 (mem_heads.2 ⟨x, xs, (hremaining i x xs).1 hi, rfl⟩)

def left (lists : List (List α)) (cur : Nat → Nat) : Nat :=
  ∑ i ∈ Finset.range lists.length, (remaining lists cur i).length

theorem left_update (h : remaining lists cur i = x :: xs) :
    left lists (Function.update cur i (cur i + 1)) + 1 = left lists cur := by
  have hi : i ∈ Finset.range lists.length := by
    rw [Finset.mem_range]
    by_contra hle
    rw [remaining, List.getElem?_eq_none (by omega)] at h
    simp at h
  have hsame : ∀ j ∈ (Finset.range lists.length).erase i,
      (remaining lists (Function.update cur i (cur i + 1)) j).length = (remaining lists cur j).length := by
    intro j hj
    rw [remaining_update h, Function.update_of_ne (Finset.ne_of_mem_erase hj)]
  rw [left, left, ← Finset.add_sum_erase _ _ hi, ← Finset.add_sum_erase _ _ hi, Finset.sum_congr rfl hsame,
    remaining_update h, Function.update_self, h, List.length_cons]
  omega

theorem Queued.remaining_eq_nil (h : Queued rank lists cur []) (i : Nat) : remaining lists cur i = [] := by
  cases hi : remaining lists cur i with
  | nil => rfl
  | cons x xs => exact absurd (h.complete i x xs hi) List.not_mem_nil

/-- With a step for each element that is left, draining the queue merges the lists. -/
theorem drain_merges {fuel : Nat} (h : Queued rank lists cur queue) (hfuel : left lists cur ≤ fuel) :
    ∃ out, drain rank lists fuel queue = some out ∧ Merges rank (remaining lists cur) out := by
  induction fuel generalizing cur queue with
  | zero =>
    cases queue with
    | nil => exact ⟨[], rfl, .nil h.remaining_eq_nil⟩
    | cons a queue =>
      obtain ⟨x, xs, hrest, -, -⟩ := h.step
      have := left_update hrest
      omega
  | succ fuel ih =>
    cases queue with
    | nil => exact ⟨[], rfl, .nil h.remaining_eq_nil⟩
    | cons a queue =>
      obtain ⟨x, xs, hrest, ha, hnext⟩ := h.step
      have hleft := left_update hrest
      obtain ⟨out, hout, hmerges⟩ := ih hnext (by omega)
      rw [remaining_update hrest] at hmerges
      have hplace : a.place = cur a.list := congrArg Head.place ha
      refine ⟨x :: out, ?_, .cons a.list x xs hrest (fun j y ys hj => ?_) hmerges⟩
      · rw [drain, hplace, (lookup_of_remaining hrest).1, Option.bind_eq_bind, Option.bind_some, hout]
        rfl
      · have hy := h.complete j y ys hj
        have hrank : a.rank = rank x := congrArg Head.rank ha
        obtain heq | hmem := List.mem_cons.1 hy
        · have : rank y = a.rank := congrArg Head.rank heq
          omega
        · have := ((List.pairwise_cons.1 h.sorted).1 _ hmem).rank_le
          simp only at this
          omega

theorem merge_merges (rank : α → Nat) (lists : List (List α)) :
    ∃ out, merge rank lists = some out ∧ Merges rank (fun i : Nat => lists[i]?.getD []) out := by
  have hleft : left lists (fun _ => 0) = (lists.map List.length).sum := by
    rw [left, Finset.sum_range, ← List.sum_ofFn]
    congr 1
    apply List.ext_getElem?
    intro i
    by_cases hi : i < lists.length
    · simp [hi, remaining]
    · simp [hi]
  exact drain_merges (queued_start rank lists) hleft.le

end Drain

end Boltchain.Lib.Merge
