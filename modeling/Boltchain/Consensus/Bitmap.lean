import Boltchain.Consensus.Types

namespace Boltchain.Consensus.Bitmap

/-- The set bits of the bytes that start at byte `k` of a bitmap. -/
def positionsFrom (k : Nat) (b : Bytes) : List Nat :=
  (b.zipIdx k).flatMap fun p => ((List.range 8).filter p.1.toNat.testBit).map (p.2 * 8 + ·)

theorem positions_eq (b : Bytes) : positions b = positionsFrom 0 b := rfl

@[simp] theorem positionsFrom_nil (k : Nat) : positionsFrom k [] = [] := rfl

theorem positionsFrom_cons (k : Nat) (a : UInt8) (b : Bytes) :
    positionsFrom k (a :: b) =
      ((List.range 8).filter a.toNat.testBit).map (k * 8 + ·) ++ positionsFrom (k + 1) b := rfl

theorem positionsFrom_append (k : Nat) (a b : Bytes) :
    positionsFrom k (a ++ b) = positionsFrom k a ++ positionsFrom (k + a.length) b := by
  simp [positionsFrom, List.zipIdx_append, List.flatMap_append]

theorem positionsFrom_replicate_zero (k n : Nat) : positionsFrom k (List.replicate n 0) = [] := by
  induction n generalizing k with
  | zero => rfl
  | succ n ih => simp [List.replicate_succ, positionsFrom_cons, ih]

theorem positionsFrom_bounds (k : Nat) (b : Bytes) :
    ∀ p ∈ positionsFrom k b, k * 8 ≤ p ∧ p < (k + b.length) * 8 := by
  induction b generalizing k with
  | nil => simp
  | cons a b ih =>
    intro p hp
    rw [positionsFrom_cons, List.mem_append] at hp
    rcases hp with hp | hp
    · simp only [List.mem_map, List.mem_filter, List.mem_range] at hp
      obtain ⟨i, ⟨hi, -⟩, rfl⟩ := hp
      simp only [List.length_cons]
      omega
    · have h := ih (k + 1) p hp
      simp only [List.length_cons]
      omega

theorem positionsFrom_sorted (k : Nat) (b : Bytes) : (positionsFrom k b).Pairwise (· < ·) := by
  induction b generalizing k with
  | nil => simp
  | cons a b ih =>
    rw [positionsFrom_cons, List.pairwise_append]
    refine ⟨?_, ih (k + 1), ?_⟩
    · rw [List.pairwise_map]
      exact (List.pairwise_lt_range.filter _).imp (by omega)
    · intro p hp q hq
      simp only [List.mem_map, List.mem_filter, List.mem_range] at hp
      obtain ⟨i, ⟨hi, -⟩, rfl⟩ := hp
      have h := (positionsFrom_bounds (k + 1) b q hq).1
      omega

variable {b : Bytes} {p : Nat}

theorem positions_lt (hp : p ∈ positions b) : p < b.length * 8 := by
  have h := (positionsFrom_bounds 0 b p hp).2
  omega

theorem positions_nodup (b : Bytes) : (positions b).Nodup :=
  (positionsFrom_sorted 0 b).imp (fun h => Nat.ne_of_lt h)

theorem decode_eq_positions (hb : b.length ≤ 8192) : decode b = positions b := by
  have h : ∀ p ∈ positions b, p % 2 ^ 16 = p := by
    intro p hp
    have hlt := positions_lt hp
    omega
  exact (List.map_congr_left h).trans (List.map_id _)

theorem decode_nodup (hb : b.length ≤ 8192) : (decode b).Nodup := by
  rw [decode_eq_positions hb]
  exact positions_nodup b

theorem count_decode_le (b : Bytes) (i : Nat) : (decode b).count i ≤ b.length * 8 / 2 ^ 16 + 1 := by
  let l := (positions b).filter (fun p => p % 2 ^ 16 == i)
  have hcount : (decode b).count i = (l.map (· / 2 ^ 16)).length := by
    rw [decode, List.count, List.countP_map, List.countP_eq_length_filter, List.length_map]
    rfl
  have hnodup : (l.map (· / 2 ^ 16)).Nodup := by
    apply List.Nodup.map_on
    · intro p hp q hq hpq
      have hp := (List.mem_filter.1 hp).2
      have hq := (List.mem_filter.1 hq).2
      rw [beq_iff_eq] at hp hq
      omega
    · exact (positions_nodup b).filter _
  have hsub : l.map (· / 2 ^ 16) ⊆ List.range (b.length * 8 / 2 ^ 16 + 1) := by
    intro q hq
    obtain ⟨p, hp, rfl⟩ := List.mem_map.1 hq
    have hlt := positions_lt (List.mem_filter.1 hp).1
    rw [List.mem_range]
    omega
  have hle := (List.subperm_of_subset hnodup hsub).length_le
  rw [List.length_range] at hle
  rw [hcount]
  exact hle

variable {i : Nat}

theorem decode_lt (hi : i ∈ decode b) : i < 65536 := by
  obtain ⟨p, -, rfl⟩ := List.mem_map.1 hi
  exact Nat.mod_lt _ (by decide)

theorem mem_positionsFrom {k : Nat} :
    p ∈ positionsFrom k b ↔
      k * 8 ≤ p ∧ ∃ byte, b[p / 8 - k]? = some byte ∧ byte.toNat.testBit (p % 8) = true := by
  induction b generalizing k with
  | nil => simp
  | cons a b ih =>
    rw [positionsFrom_cons, List.mem_append, ih]
    simp only [List.mem_map, List.mem_filter, List.mem_range]
    constructor
    · rintro (⟨i, ⟨hi, ht⟩, rfl⟩ | ⟨hk, byte, hb, ht⟩)
      · refine ⟨by omega, a, ?_, ?_⟩
        · rw [show (k * 8 + i) / 8 - k = 0 by omega]
          rfl
        · rw [show (k * 8 + i) % 8 = i by omega]
          exact ht
      · refine ⟨by omega, byte, ?_, ht⟩
        rw [show p / 8 - k = (p / 8 - (k + 1)) + 1 by omega, List.getElem?_cons_succ]
        exact hb
    · rintro ⟨hk, byte, hb, ht⟩
      by_cases h : p / 8 = k
      · rw [h, Nat.sub_self] at hb
        cases hb
        exact .inl ⟨p % 8, ⟨by omega, ht⟩, by omega⟩
      · refine .inr ⟨by omega, byte, ?_, ht⟩
        rw [show p / 8 - k = (p / 8 - (k + 1)) + 1 by omega, List.getElem?_cons_succ] at hb
        exact hb

theorem mem_positions :
    p ∈ positions b ↔ ∃ byte, b[p / 8]? = some byte ∧ byte.toNat.testBit (p % 8) = true := by
  rw [positions_eq, mem_positionsFrom]
  simp

theorem testBit_setBit (x : UInt8) {j : Nat} (hi : i < 8) :
    (x ||| (1 <<< UInt8.ofNat i)).toNat.testBit j = true ↔ x.toNat.testBit j = true ∨ j = i := by
  have h1 : (1 <<< UInt8.ofNat i : UInt8).toNat = 2 ^ i := by
    interval_cases i <;> rfl
  rw [UInt8.toNat_or, Nat.testBit_or, h1, Nat.testBit_two_pow, Bool.or_eq_true, decide_eq_true_eq]
  exact or_congr_right eq_comm

theorem length_setBit (n : Nat) (b : Bytes) (i : Nat) : (setBit n b i).length = b.length := by
  unfold setBit
  split <;> simp

variable {n : Nat}

theorem mem_positions_setBit (hb : n ≤ b.length * 8) :
    p ∈ positions (setBit n b i) ↔ p ∈ positions b ∨ p = i ∧ i < n := by
  by_cases hi : i < n
  · rw [setBit, if_pos hi, mem_positions, mem_positions]
    by_cases hp : i / 8 = p / 8
    · have hlt : p / 8 < b.length := by omega
      have hmod : p % 8 = i % 8 ↔ p = i := by omega
      have hset := testBit_setBit (b.get ⟨p / 8, hlt⟩) (j := p % 8) (Nat.mod_lt i (by decide : 0 < 8))
      rw [hp, List.getElem?_modify_eq, List.getElem?_eq_getElem hlt]
      simpa [hi, hmod] using hset
    · have hne : p ≠ i := fun h => hp (h ▸ rfl)
      rw [List.getElem?_modify_ne _ _ hp]
      simp [hne]
  · simp [setBit, hi]

variable {l : List Nat}

theorem mem_positions_foldl (hb : n ≤ b.length * 8) :
    p ∈ positions (l.foldl (setBit n) b) ↔ p ∈ positions b ∨ p ∈ l ∧ p < n := by
  induction l generalizing b with
  | nil => simp
  | cons i l ih =>
    rw [List.foldl_cons, ih ((length_setBit n b i).symm ▸ hb), mem_positions_setBit hb, List.mem_cons, or_assoc]
    refine or_congr_right ⟨?_, ?_⟩
    · rintro (⟨rfl, hi⟩ | h)
      · exact ⟨.inl rfl, hi⟩
      · exact ⟨.inr h.1, h.2⟩
    · rintro ⟨rfl | h, hp⟩
      · exact .inl ⟨rfl, hp⟩
      · exact .inr ⟨h, hp⟩

theorem length_encode (l : List Nat) (n : Nat) : (encode l n).length = (n + 7) / 8 := by
  have h : ∀ b : Bytes, (l.foldl (setBit n) b).length = b.length := by
    induction l with
    | nil => exact fun b => rfl
    | cons i l ih => exact fun b => (ih _).trans (length_setBit n b i)
  rw [encode, h, List.length_replicate]

theorem mem_positions_encode : p ∈ positions (encode l n) ↔ p ∈ l ∧ p < n := by
  have hb : n ≤ (List.replicate ((n + 7) / 8) (0 : UInt8)).length * 8 := by
    rw [List.length_replicate]
    omega
  rw [encode, mem_positions_foldl hb, positions_eq, positionsFrom_replicate_zero]
  simp

theorem decode_encode (hn : n ≤ 65536) (hl : ∀ i ∈ l, i < n)
    (hs : l.Pairwise (· < ·)) : decode (encode l n) = l := by
  have hlen : (encode l n).length ≤ 8192 := by
    rw [length_encode]
    omega
  rw [decode_eq_positions hlen]
  refine List.Perm.eq_of_pairwise' (r := (· < ·)) (positionsFrom_sorted 0 _) hs ?_
  refine (List.perm_ext_iff_of_nodup (positions_nodup _) (hs.imp Nat.ne_of_lt)).2 fun p => ?_
  rw [mem_positions_encode]
  exact ⟨And.left, fun h => ⟨h, hl p h⟩⟩

theorem mem_of_mem_decode_encode (hn : n ≤ 65536)
    (h : i ∈ decode (encode l n)) : i ∈ l := by
  obtain ⟨p, hp, rfl⟩ := List.mem_map.1 h
  obtain ⟨hl, hlt⟩ := mem_positions_encode.1 hp
  rw [Nat.mod_eq_of_lt (by omega)]
  exact hl

def twoBits (n : Nat) : Bytes := 1 :: List.replicate n 0 ++ [1]

theorem twoBits_length (n : Nat) : (twoBits n).length = n + 2 := by simp [twoBits]

theorem positions_twoBits (n : Nat) : positions (twoBits n) = [0, (n + 1) * 8] := by
  have h1 : (List.range 8).filter (1 : UInt8).toNat.testBit = [0] := by decide
  rw [positions_eq, twoBits, List.cons_append, positionsFrom_cons, positionsFrom_append,
    positionsFrom_replicate_zero, positionsFrom_cons, h1]
  simp [Nat.add_comm]

theorem decode_twoBits_wrapped : decode (twoBits 8191) = [0, 0] := by
  rw [decode, positions_twoBits]
  rfl

def page (n : Nat) : Bytes := 1 :: List.replicate n 0

theorem page_length (n : Nat) : (page n).length = n + 1 := by simp [page]

theorem decode_page (n : Nat) : decode (page n) = [0] := by
  have h1 : (List.range 8).filter (1 : UInt8).toNat.testBit = [0] := by decide
  rw [decode, positions_eq, page, positionsFrom_cons, positionsFrom_replicate_zero, h1]
  rfl

theorem positionsFrom_add (k j : Nat) (b : Bytes) :
    positionsFrom (k + j) b = (positionsFrom j b).map (k * 8 + ·) := by
  induction b generalizing j with
  | nil => rfl
  | cons a b ih =>
    rw [positionsFrom_cons, positionsFrom_cons, Nat.add_assoc, ih, List.map_append, List.map_map]
    refine congrArg (· ++ _) (List.map_congr_left fun i _ => ?_)
    simp only [Function.comp_apply]
    ring

theorem decode_append {a : Bytes} (ha : a.length % 8192 = 0) (b : Bytes) :
    decode (a ++ b) = decode a ++ decode b := by
  rw [decode, positions_eq, positionsFrom_append, List.map_append, Nat.add_comm, positionsFrom_add,
    List.map_map]
  refine congrArg (_ ++ ·) (List.map_congr_left fun i _ => ?_)
  simp only [Function.comp_apply]
  omega

end Boltchain.Consensus.Bitmap
