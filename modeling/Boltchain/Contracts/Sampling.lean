import Boltchain.Contracts.Committee

namespace Boltchain.Contracts

open Boltchain.Consensus (Bytes ValidatorSet toBeBytes ofBeBytes)

namespace Committee

def cumulativeWords : Nat → List Nat → List Nat
  | _, [] => []
  | total, s :: stakes => ((total + s) % 2 ^ 256) :: cumulativeWords ((total + s) % 2 ^ 256) stakes

def totalWords (stakes : List Nat) : Nat := stakes.foldl (fun total s => (total + s) % 2 ^ 256) 0

/-- A committee while its seats are drawn, with the 16-bit index that each id was given. -/
structure Draft where
  committee : Committee
  indexOf : List (Nat × Nat)

namespace Draft

def give (d : Draft) (m : Nat) : Draft :=
  { d with committee := { d.committee with
      weights := d.committee.weights.modify m fun w => (w + 1) % 2 ^ 16
      seats := d.committee.seats ++ [m] } }

def enter (d : Draft) (id : Nat) : Draft × Nat :=
  match d.indexOf.lookup id with
  | some m => (d, m)
  | none =>
    let m := d.committee.members.length % 2 ^ 16
    (⟨{ d.committee with members := d.committee.members ++ [id], weights := d.committee.weights ++ [0] },
      (id, m) :: d.indexOf⟩, m)

def addSeat (d : Draft) (id : Nat) : Draft := (d.enter id).1.give (d.enter id).2

end Draft

/-- `Committee::sample` with the widths of its words; `none` if it would index past the ids. -/
def sampleWords (keccak256 : Bytes → Nat) (seed epoch : Nat) (ids stakes : List Nat) (size : Nat) : Option Committee :=
  if totalWords stakes = 0 then some empty
  else ((List.range size).foldlM (fun (d : Draft) i => do
      let id ← ids[(cumulativeWords 0 stakes).findIdx (draw keccak256 seed epoch i (totalWords stakes) < ·)]?
      some (d.addSeat id)) (⟨empty, []⟩ : Draft)).map Draft.committee

variable {stakes : List Nat} {total : Nat}

theorem cumulativeWords_eq (h : total + stakes.sum < 2 ^ 256) :
    cumulativeWords total stakes = cumulative total stakes := by
  induction stakes generalizing total with
  | nil => rfl
  | cons s stakes ih =>
    rw [List.sum_cons] at h
    rw [cumulativeWords, cumulative, Nat.mod_eq_of_lt (by omega), ih (by omega)]

theorem totalWords_eq (h : stakes.sum < 2 ^ 256) : totalWords stakes = stakes.sum := by
  have hfold : ∀ (l : List Nat) (t : Nat), t + l.sum < 2 ^ 256 →
      l.foldl (fun total s => (total + s) % 2 ^ 256) t = t + l.sum := by
    intro l
    induction l with
    | nil => intro t _; rfl
    | cons s l ih =>
      intro t ht
      rw [List.sum_cons] at ht ⊢
      rw [List.foldl_cons, Nat.mod_eq_of_lt (by omega), ih _ (by omega), Nat.add_assoc]
  rw [totalWords, hfold stakes 0 (by omega), Nat.zero_add]

def Staked (ids stakes : List Nat) (id : Nat) : Prop := ∃ i s : Nat, ids[i]? = some id ∧ stakes[i]? = some s ∧ 0 < s

variable {r : Nat}

theorem stake_of_findIdx (hr : total ≤ r)
    (hlt : (cumulative total stakes).findIdx (r < ·) < stakes.length) :
    ∃ s, stakes[(cumulative total stakes).findIdx (r < ·)]? = some s ∧ 0 < s := by
  induction stakes generalizing total with
  | nil => simp at hlt
  | cons s stakes ih =>
    rw [cumulative, List.findIdx_cons] at hlt ⊢
    by_cases hs : r < total + s
    · simp only [hs, decide_true, cond_true]
      exact ⟨s, rfl, by omega⟩
    · simp only [hs, decide_false, cond_false] at hlt ⊢
      rw [List.getElem?_cons_succ]
      exact ih (by omega) (by simpa using hlt)

variable {ids : List Nat}

theorem pick_staked {id : Nat} (hl : ids.length = stakes.length)
    (h : pick ids stakes r = some id) : Staked ids stakes id := by
  obtain ⟨hlt, -⟩ := List.getElem?_eq_some_iff.1 h
  obtain ⟨s, hs, hpos⟩ := stake_of_findIdx (Nat.zero_le r) (hl ▸ hlt)
  exact ⟨_, s, h, hs, hpos⟩

/-- What a committee of `count` seats is: distinct staked members, each of them seated, with their seats counted. -/
structure Seated (ids stakes : List Nat) (count : Nat) (c : Committee) : Prop where
  nodup : c.members.Nodup
  staked : ∀ id ∈ c.members, Staked ids stakes id
  seats_length : c.seats.length = count
  seats_lt : ∀ m ∈ c.seats, m < c.members.length
  weights_eq : c.weights = (List.range c.members.length).map fun i => c.seats.count i
  seated : ∀ m < c.members.length, m ∈ c.seats
  weights_sum : c.weights.sum = count

variable {c : Committee} {count : Nat}

theorem Seated.weights_pos (h : Seated ids stakes count c) :
    ∀ w ∈ c.weights, 0 < w := by
  rw [h.weights_eq]
  intro w hw
  obtain ⟨i, hi, rfl⟩ := List.mem_map.1 hw
  exact List.count_pos_iff.2 (h.seated i (List.mem_range.1 hi))

theorem Seated.length_le (h : Seated ids stakes count c) :
    c.members.length ≤ count := by
  have hlen : c.weights.length = c.members.length := by rw [h.weights_eq, List.length_map, List.length_range]
  have hsum := List.length_le_sum_of_one_le c.weights fun w hw => h.weights_pos w hw
  rw [h.weights_sum] at hsum
  omega

theorem sum_modify {l : List Nat} {m : Nat} (h : m < l.length) : (l.modify m (· + 1)).sum = l.sum + 1 := by
  induction l generalizing m with
  | nil => simp at h
  | cons a l ih =>
    cases m with
    | zero =>
      rw [List.modify_zero_cons, List.sum_cons, List.sum_cons]
      omega
    | succ m =>
      rw [List.modify_succ_cons, List.sum_cons, List.sum_cons, ih (by simpa using h)]
      omega

section

variable {ids stakes : List Nat} {count id : Nat} {c : Committee} {d : Draft}

variable {m : Nat}

theorem Seated.again (h : Seated ids stakes count c) (hm : m < c.members.length) :
    Seated ids stakes (count + 1) { c with weights := c.weights.modify m (· + 1), seats := c.seats ++ [m] } where
  nodup := h.nodup
  staked := h.staked
  seats_length := by rw [List.length_append, h.seats_length, List.length_singleton]
  seats_lt x hx := by
    rcases List.mem_append.1 hx with hx | hx
    · exact h.seats_lt x hx
    · rwa [List.mem_singleton.1 hx]
  weights_eq := by
    simp only [h.weights_eq]
    refine List.ext_getElem? fun i => ?_
    rw [List.getElem?_modify, List.getElem?_map, List.getElem?_map]
    by_cases hi : i < c.members.length
    · rw [List.getElem?_range hi]
      simp only [Option.map_some, Option.map_eq_map, List.count_append, List.count_singleton, beq_iff_eq]
      split <;> rfl
    · simp [hi]
  seated x hx := List.mem_append_left _ (h.seated x hx)
  weights_sum := by
    have hlen : c.weights.length = c.members.length := by rw [h.weights_eq, List.length_map, List.length_range]
    rw [sum_modify (hlen ▸ hm), h.weights_sum]

/-- A first seat for a new member. -/
theorem Seated.first (h : Seated ids stakes count c) (hnew : id ∉ c.members) (hid : Staked ids stakes id) :
    Seated ids stakes (count + 1)
      ⟨c.members ++ [id], c.weights ++ [1], c.seats ++ [c.members.length]⟩ where
  nodup := List.nodup_append.2 ⟨h.nodup, List.nodup_singleton id, fun a ha b hb => by
    rw [List.mem_singleton.1 hb]
    exact fun heq => hnew (heq ▸ ha)⟩
  staked x hx := by
    rcases List.mem_append.1 hx with hx | hx
    · exact h.staked x hx
    · rwa [List.mem_singleton.1 hx]
  seats_length := by rw [List.length_append, h.seats_length, List.length_singleton]
  seats_lt x hx := by
    rw [List.length_append, List.length_singleton]
    rcases List.mem_append.1 hx with hx | hx
    · exact (h.seats_lt x hx).trans (Nat.lt_succ_self _)
    · rw [List.mem_singleton.1 hx]
      exact Nat.lt_succ_self _
  weights_eq := by
    have hnone : c.seats.count c.members.length = 0 :=
      List.count_eq_zero.2 fun hmem => absurd (h.seats_lt _ hmem) (Nat.lt_irrefl _)
    rw [List.length_append, List.length_singleton, List.range_succ, List.map_append, List.map_singleton,
      List.count_append, hnone, List.count_singleton_self, h.weights_eq]
    refine congrArg (· ++ [1]) (List.map_congr_left fun i hi => ?_)
    have hne : c.members.length ≠ i := (List.mem_range.1 hi).ne'
    rw [List.count_append, List.count_singleton, if_neg (by simpa using hne), Nat.add_zero]
  seated x hx := by
    rw [List.length_append, List.length_singleton] at hx
    by_cases hlt : x < c.members.length
    · exact List.mem_append_left _ (h.seated x hlt)
    · obtain rfl : x = c.members.length := by omega
      exact List.mem_append_right _ (List.mem_singleton_self _)
  weights_sum := by rw [List.sum_append, h.weights_sum, List.sum_singleton]

theorem Seated.addSeat (h : Seated ids stakes count c) (hid : Staked ids stakes id) :
    Seated ids stakes (count + 1) (c.addSeat id) := by
  rw [Committee.addSeat]
  split
  case h_1 m hm =>
    exact h.again (List.idxOf?_eq_some_iff.1 hm).1
  case h_2 hnone => exact h.first (List.idxOf?_eq_none_iff.1 hnone) hid

theorem modify_concat (l : List Nat) : (l ++ [0]).modify l.length (· + 1) = l ++ [1] := by
  induction l with
  | nil => rfl
  | cons a l ih => rw [List.cons_append, List.length_cons, List.modify_succ_cons, ih, List.cons_append]

/-- The index that each id was given is its place among the members. -/
def Draft.Tracks (d : Draft) : Prop := ∀ id, d.indexOf.lookup id = d.committee.members.idxOf? id

theorem modify_words {l : List Nat} (h : l.sum < 2 ^ 16 - 1) :
    (l.modify m fun w => (w + 1) % 2 ^ 16) = l.modify m (· + 1) := by
  refine List.ext_getElem? fun i => ?_
  rw [List.getElem?_modify, List.getElem?_modify]
  cases hi : l[i]? with
  | none => rfl
  | some w =>
    have hle : w ≤ l.sum := List.single_le_sum (fun _ _ => Nat.zero_le _) w (List.mem_of_getElem? hi)
    simp only [Option.map_eq_map, Option.map_some]
    rw [Nat.mod_eq_of_lt (by omega)]

theorem Draft.addSeat_eq (id : Nat) (hd : d.Tracks) (h : Seated ids stakes count d.committee) (hcount : count < 2 ^ 16 - 1) :
    (d.addSeat id).committee = d.committee.addSeat id ∧ (d.addSeat id).Tracks := by
  have hsum : d.committee.weights.sum < 2 ^ 16 - 1 := h.weights_sum ▸ hcount
  have hlen : d.committee.weights.length = d.committee.members.length := by
    rw [h.weights_eq, List.length_map, List.length_range]
  cases hidx : d.committee.members.idxOf? id with
  | some m =>
    rw [Draft.addSeat, Draft.enter, hd id, hidx, Committee.addSeat, hidx]
    simp only [Draft.give, modify_words hsum]
    exact ⟨trivial, hd⟩
  | none =>
    have hlt : d.committee.members.length < 2 ^ 16 := by
      have := h.length_le
      omega
    have hwords : (d.committee.weights ++ [0]).sum < 2 ^ 16 - 1 := by
      rw [List.sum_append, List.sum_singleton]
      omega
    rw [Draft.addSeat, Draft.enter, hd id, hidx, Committee.addSeat, hidx]
    simp only [Draft.give, modify_words hwords, Nat.mod_eq_of_lt hlt]
    refine ⟨by rw [← hlen, modify_concat], fun x => ?_⟩
    rw [List.lookup_cons, List.idxOf?, List.findIdx?_append, ← List.idxOf?]
    by_cases hx : x = id
    · subst hx
      rw [hidx]
      simp
    · rw [beq_eq_false_iff_ne.2 hx, hd x]
      have hne : (id == x) = false := beq_eq_false_iff_ne.2 fun heq => hx heq.symm
      simp [hne]

theorem exists_drafted (draws : Nat → Nat) (hl : ids.length = stakes.length) (hdraws : ∀ i, draws i < stakes.sum)
    (hcount : count < 2 ^ 16) : ∃ d : Draft, (List.range count).foldlM (fun (d : Draft) i => do
        let id ← pick ids stakes (draws i)
        some (d.addSeat id)) (⟨empty, []⟩ : Draft) = some d ∧ d.Tracks ∧ Seated ids stakes count d.committee := by
  induction count with
  | zero => exact ⟨⟨empty, []⟩, rfl, fun _ => rfl, List.nodup_nil, by simp [empty], rfl, by simp [empty], rfl,
      by simp [empty], rfl⟩
  | succ n ih =>
    obtain ⟨d, hrun, htracks, hseated⟩ := ih (by omega)
    obtain ⟨id, -, hpick⟩ := exists_pick hl (hdraws n)
    obtain ⟨heq, htracks'⟩ := Draft.addSeat_eq id htracks hseated (by omega)
    refine ⟨d.addSeat id, ?_, htracks', ?_⟩
    · rw [List.range_succ, List.foldlM_append, hrun]
      simp [hpick]
    · rw [heq]
      exact hseated.addSeat (pick_staked hl hpick)

theorem seatsOf_flatMap {seats : List Nat} (h : ∀ m ∈ seats, m < 2 ^ 16) :
    seatsOf (seats.flatMap (toBeBytes 2)) = seats := by
  induction seats with
  | nil => rfl
  | cons m seats ih =>
    have hm := h m List.mem_cons_self
    have hbytes : ofBeBytes (toBeBytes 2 m) = m := by
      rw [Consensus.ofBeBytes_toBeBytes, Nat.mod_eq_of_lt (by simpa using hm)]
    rw [List.flatMap_cons]
    have htwo : toBeBytes 2 m = [UInt8.ofNat (m / 256), UInt8.ofNat m] := rfl
    rw [htwo] at hbytes ⊢
    rw [List.cons_append, List.cons_append, List.nil_append, seatsOf, hbytes,
      ih fun x hx => h x (List.mem_cons_of_mem m hx)]

/-- A sampled committee has distinct members with stakes, as many seats as asked for, each of a member, and counts
the seats of each; the consensus engine gives it the same weights, and it is read back from its parts. -/
theorem sample_well_formed (keccak256 : Bytes → Nat) (seed epoch : Nat) {size : Nat} (hl : ids.length = stakes.length)
    (hpos : 0 < stakes.sum) (hsum : stakes.sum < 2 ^ 256) (hsize : 1 ≤ size ∧ size ≤ 65535) :
    ∃ c, sampleWords keccak256 seed epoch ids stakes size = some c ∧ c.members.Nodup ∧
      (∀ id ∈ c.members, ∃ i s : Nat, ids[i]? = some id ∧ stakes[i]? = some s ∧ 0 < s) ∧
      c.seats.length = size ∧ (∀ m ∈ c.seats, m < c.members.length) ∧
      c.weights.length = c.members.length ∧
      (∀ i < c.members.length, c.weights[i]? = some (c.seats.count i)) ∧ (∀ w ∈ c.weights, 1 ≤ w) ∧
      c.weights.sum = size ∧
      (ValidatorSet.fromSeats c.members.length c.seats).weights = c.weights.map UInt64.ofNat ∧
      fromParts ⟨c.members, c.weights, c.seatsBytes⟩ = c := by
  have hcount : size < 2 ^ 16 := by omega
  obtain ⟨d, hrun, -, hseated⟩ := exists_drafted (fun i => draw keccak256 seed epoch i stakes.sum) hl
    (fun i => Nat.mod_lt _ hpos) hcount
  have hwords : sampleWords keccak256 seed epoch ids stakes size = some d.committee := by
    rw [sampleWords, totalWords_eq hsum, if_neg hpos.ne', cumulativeWords_eq (by omega)]
    exact congrArg (Option.map Draft.committee) hrun
  have hlt : ∀ m ∈ d.committee.seats, m < 2 ^ 16 := fun m hm => by
    have hm := hseated.seats_lt m hm
    have hle := hseated.length_le
    omega
  refine ⟨d.committee, hwords, hseated.nodup, hseated.staked, hseated.seats_length, hseated.seats_lt, ?_, ?_,
    hseated.weights_pos, hseated.weights_sum, ?_, ?_⟩
  · rw [hseated.weights_eq, List.length_map, List.length_range]
  · intro i hi
    rw [hseated.weights_eq, List.getElem?_map, List.getElem?_range hi]
    rfl
  · rw [hseated.weights_eq, List.map_map]
    rfl
  · rw [fromParts, seatsBytes, seatsOf_flatMap hlt]

end

theorem sample_well_formed_two : ∃ c, sampleWords (fun _ => 5) 0 0 [1, 2, 3] [0, 4, 3] 2 = some c ∧
    c.members.Nodup ∧ c.seats.length = 2 := by
  have hl : ([1, 2, 3] : List Nat).length = ([0, 4, 3] : List Nat).length := rfl
  have hsize : 1 ≤ 2 ∧ 2 ≤ 65535 := by decide
  obtain ⟨c, hc, hnodup, -, hlen, -⟩ := sample_well_formed (fun _ => 5) 0 0 hl (by decide) (by decide) hsize
  exact ⟨c, hc, hnodup, hlen⟩

end Committee

end Boltchain.Contracts
