import Boltchain.Store.Trie

namespace Boltchain.Store

open Consensus (Bytes)
open Lib

section HexPrefix

theorem nibbles_byte (a b : Nibble) :
    highNibble (UInt8.ofNat (a.val * 16 + b.val)) = a ∧ lowNibble (UInt8.ofNat (a.val * 16 + b.val)) = b := by
  have hlt : a.val * 16 + b.val < 256 := by omega
  have hval : (UInt8.ofNat (a.val * 16 + b.val)).toNat = a.val * 16 + b.val := UInt8.toNat_ofNat_of_lt' hlt
  constructor
  · refine Fin.ext ?_
    show (UInt8.ofNat (a.val * 16 + b.val)).toNat / 16 = a.val
    omega
  · refine Fin.ext ?_
    show (UInt8.ofNat (a.val * 16 + b.val)).toNat % 16 = b.val
    omega

theorem flatMap_pairs {k : Path} (h : k.length % 2 = 0) :
    (pairs k).flatMap (fun b => [highNibble b, lowNibble b]) = k := by
  induction k using pairs.induct with
  | case1 a b rest ih =>
    rw [pairs, List.flatMap_cons, ih (by simp only [List.length_cons] at h; omega), (nibbles_byte a b).1,
      (nibbles_byte a b).2]
    rfl
  | case2 k hk =>
    match k with
    | [] => rfl
    | [a] => simp at h
    | a :: b :: rest => exact absurd rfl (hk a b rest)

theorem length_pairs (k : Path) : (pairs k).length = k.length / 2 := by
  induction k using pairs.induct with
  | case1 a b rest ih =>
    rw [pairs, List.length_cons, ih, List.length_cons, List.length_cons]
    omega
  | case2 k hk =>
    match k with
    | [] => rfl
    | [a] => simp [pairs]
    | a :: b :: rest => exact absurd rfl (hk a b rest)

theorem hexPrefixDecode_hexPrefix (k : Path) (leaf : Bool) : hexPrefixDecode (hexPrefix k leaf) = some (k, leaf) := by
  by_cases hodd : k.length % 2 = 1
  · cases k with
    | nil => simp at hodd
    | cons a k =>
      have hflag : (if leaf then 2 else 0) + 1 < 4 := by split <;> omega
      have hval : (UInt8.ofNat (((if leaf then 2 else 0) + 1) * 16 + a.val)).toNat =
          ((if leaf then 2 else 0) + 1) * 16 + a.val := UInt8.toNat_ofNat_of_lt' (by simp [UInt8.size]; omega)
      have hdiv : (((if leaf then 2 else 0) + 1) * 16 + a.val) / 16 = (if leaf then 2 else 0) + 1 := by omega
      have hlow : lowNibble (UInt8.ofNat (((if leaf then 2 else 0) + 1) * 16 + a.val)) = a :=
        Fin.ext (by show (UInt8.ofNat _).toNat % 16 = _; omega)
      simp only [hexPrefix, if_pos hodd, List.head?_cons, Option.elim_some, List.tail_cons, hexPrefixDecode, hval, hdiv]
      rw [if_neg (by omega), flatMap_pairs (by simp only [List.length_cons] at hodd; omega), hlow]
      cases leaf <;> rfl
  · have hval : (UInt8.ofNat ((if leaf then 2 else 0) * 16)).toNat = (if leaf then 2 else 0) * 16 :=
      UInt8.toNat_ofNat_of_lt' (by simp [UInt8.size]; split <;> omega)
    have hdiv : ((if leaf then 2 else 0) * 16) / 16 = if leaf then 2 else 0 := by omega
    simp only [hexPrefix, if_neg hodd, hexPrefixDecode, hval, hdiv]
    rw [if_neg (by split <;> omega), flatMap_pairs (by omega)]
    cases leaf <;> rfl

theorem length_hexPrefix (k : Path) (leaf : Bool) : (hexPrefix k leaf).length = k.length / 2 + 1 := by
  unfold hexPrefix
  simp only
  split
  case isTrue h =>
    rw [List.length_cons, length_pairs, List.length_tail]
    omega
  case isFalse h => rw [List.length_cons, length_pairs]

end HexPrefix

section Nodes

def IsRef (r : Bytes) : Prop := r.length = 32 ∨ r.length < 32 ∧ ∃ payload, Rlp.IsItem r true payload

/-- Nodes as they are stored: references resolved, keys no longer than a path. -/
inductive Resolved : Node → Prop where
  | leaf {key : Path} {value : Bytes} (hkey : key.length ≤ 64) (hvalue : value.length < 2 ^ 63) :
      Resolved (.leaf key value)
  | ext {key : Path} {r : Bytes} (hkey : key.length ≤ 64) (hr : IsRef r) : Resolved (.ext key (some r))
  | branch {children : Nibble → Option ChildRef} (h : ∀ i c, children i = some c → ∃ r, c = some r ∧ IsRef r) :
      Resolved (.branch children)

/-- Nodes with resolved references, as long as a vector can be. -/
inductive Codable : Node → Prop where
  | leaf {key : Path} {value : Bytes} (hkey : key.length < 2 ^ 63) (hvalue : value.length < 2 ^ 63) :
      Codable (.leaf key value)
  | ext {key : Path} {r : Bytes} (hkey : key.length < 2 ^ 63) (hr : IsRef r) : Codable (.ext key (some r))
  | branch {children : Nibble → Option ChildRef} (h : ∀ i c, children i = some c → ∃ r, c = some r ∧ IsRef r) :
      Codable (.branch children)

variable {n : Node}

theorem Resolved.codable (h : Resolved n) : Codable n := by
  cases h with
  | leaf hkey hvalue => exact .leaf (by omega) hvalue
  | ext hkey hr => exact .ext (by omega) hr
  | branch h => exact .branch h

variable {r : Bytes}

theorem IsRef.item (h : IsRef r) : ∃ isList payload, Rlp.IsItem (encodeRef r) isList payload := by
  unfold encodeRef
  split
  case isTrue h32 => exact ⟨false, r, Rlp.isItem_string (by omega)⟩
  case isFalse hne =>
    obtain ⟨payload, hp⟩ := (h.resolve_left hne).2
    exact ⟨true, payload, hp⟩

theorem IsRef.decodeRef_encodeRef (h : IsRef r) : decodeRef (encodeRef r) = some r := by
  unfold encodeRef
  split
  case isTrue h32 =>
    have hitem := (Rlp.isItem_string (s := r) (by omega)).decode []
    rw [List.append_nil, List.append_nil] at hitem
    simp only [decodeRef, hitem, Option.bind_eq_bind, Option.bind_some, Bool.false_eq_true, if_false, if_pos h32]
    rw [List.take_of_length_le h32.le]
  case isFalse hne =>
    obtain ⟨payload, hp⟩ := (h.resolve_left hne).2
    have hitem := hp.decode []
    rw [List.append_nil, List.append_nil] at hitem
    simp only [decodeRef, hitem, Option.bind_eq_bind, Option.bind_some, if_true]

theorem IsRef.encodeRef_ne (h : IsRef r) : encodeRef r ≠ emptyString := by
  intro heq
  have hdec := h.decodeRef_encodeRef
  rw [heq] at hdec
  simp [emptyString, decodeRef, Rlp.decodeHeader, Rlp.checkLength] at hdec

theorem length_encodeRef_le (h : IsRef r) : (encodeRef r).length ≤ 33 := by
  unfold encodeRef
  split
  case isTrue h32 =>
    match r with
    | b :: c :: r =>
      simp only [List.length_cons] at h32
      simp only [Rlp.string, Rlp.header, List.length_append, List.length_cons]
      rw [if_pos (by omega)]
      simp
      omega
    | [b] => simp at h32
    | [] => simp at h32
  case isFalse hne =>
    have := (h.resolve_left hne).1
    omega

variable {s : Bytes}

theorem stringPayload_string (h : s.length < 2 ^ 64) : stringPayload (Rlp.string s) = some s := by
  have hitem := (Rlp.isItem_string h).decode []
  rw [List.append_nil, List.append_nil] at hitem
  simp [stringPayload, hitem]

theorem length_string_le (h : s.length < 2 ^ 64) : (Rlp.string s).length ≤ s.length + 9 := by
  have hheader : (Rlp.header false s.length).length ≤ 9 := by
    unfold Rlp.header
    split
    · simp
    · have := Rlp.length_toBe_le h
      simp only [List.length_cons]
      omega
  match s with
  | [] => simp [Rlp.string] at hheader ⊢; omega
  | [b] =>
    rw [Rlp.string]
    split
    · simp
    · rw [List.length_append]
      simp only [List.length_cons, List.length_nil, Nat.zero_add] at hheader ⊢
      omega
  | b :: c :: s =>
    rw [Rlp.string, List.length_append]
    · omega
    · simp

theorem decodeNode_list (items : List Bytes) (hitems : ∀ x ∈ items, ∃ isList payload, Rlp.IsItem x isList payload)
    (hlen : items.flatten.length < 2 ^ 64) : decodeNode (Rlp.list items.flatten) = decodeItems items := by
  have hitem := (Rlp.isItem_list hlen).decode []
  rw [List.append_nil, List.append_nil] at hitem
  have hcount : items.length ≤ items.flatten.length := by
    rw [List.length_flatten, ← List.length_map (f := List.length)]
    refine List.length_le_sum_of_one_le _ fun n hn => ?_
    obtain ⟨x, hx, rfl⟩ := List.mem_map.1 hn
    obtain ⟨_, _, hx⟩ := hitems x hx
    exact hx.pos
  simp only [decodeNode, hitem, Option.bind_eq_bind, Option.bind_some, le_refl, decide_true, Bool.and_self, if_true,
    List.take_length, Rlp.rawItems_flatten hcount hitems]

theorem decodeItems_branch {items : List Bytes} (h : items.length = 17) :
    decodeItems items =
      ((items.take 16).mapM decodeChild).map fun children => .branch fun i => children.getD i.val none := by
  unfold decodeItems
  split
  · simp at h
  · exact if_pos h

theorem mapM_decodeChild {ι : Type} {f : ι → Bytes} {g : ι → Option ChildRef} (l : List ι)
    (h : ∀ i, decodeChild (f i) = some (g i)) : (l.map f).mapM decodeChild = some (l.map g) := by
  induction l with
  | nil => rfl
  | cons i l ih =>
    rw [List.map_cons, List.mapM_cons, h i, ih]
    rfl

theorem isItem_emptyString : Rlp.IsItem emptyString false [] := Rlp.isItem_string (s := []) (by simp)

theorem decodeNode_encodeNode (h : Codable n) : decodeNode (encodeNode n) = some n := by
  cases h with
  | @leaf key value hkey hvalue =>
    have hhex := length_hexPrefix key true
    have hl₁ := length_string_le (s := hexPrefix key true) (by omega)
    have hl₂ := length_string_le (s := value) (by omega)
    have hlist := decodeNode_list [Rlp.string (hexPrefix key true), Rlp.string value] (by
      simp only [List.mem_cons, List.not_mem_nil, or_false, forall_eq_or_imp, forall_eq]
      exact ⟨⟨_, _, Rlp.isItem_string (by omega)⟩, _, _, Rlp.isItem_string (by omega)⟩) (by simp; omega)
    simp only [List.flatten_cons, List.flatten_nil, List.append_nil] at hlist
    rw [encodeNode, hlist]
    simp [decodeItems, stringPayload_string (s := hexPrefix key true) (by omega),
      stringPayload_string (s := value) (by omega), hexPrefixDecode_hexPrefix]
  | @ext key r hkey hr =>
    have hhex := length_hexPrefix key false
    have hl₁ := length_string_le (s := hexPrefix key false) (by omega)
    have hl₂ := length_encodeRef_le hr
    have hlist := decodeNode_list [Rlp.string (hexPrefix key false), encodeRef r] (by
      simp only [List.mem_cons, List.not_mem_nil, or_false, forall_eq_or_imp, forall_eq]
      exact ⟨⟨_, _, Rlp.isItem_string (by omega)⟩, hr.item⟩) (by simp; omega)
    simp only [List.flatten_cons, List.flatten_nil, List.append_nil] at hlist
    rw [encodeNode, Option.getD_some, hlist]
    simp [decodeItems, stringPayload_string (s := hexPrefix key false) (by omega), hexPrefixDecode_hexPrefix,
      hr.decodeRef_encodeRef]
  | @branch children hall =>
    have hitem : ∀ i, ∃ isList payload, Rlp.IsItem (encodeChild (children i)) isList payload := by
      intro i
      cases hi : children i with
      | none => exact ⟨_, _, isItem_emptyString⟩
      | some c =>
        obtain ⟨r, rfl, hr⟩ := hall i c hi
        exact hr.item
    have hdecode : ∀ i, decodeChild (encodeChild (children i)) = some (children i) := by
      intro i
      cases hi : children i with
      | none => rfl
      | some c =>
        obtain ⟨r, rfl, hr⟩ := hall i c hi
        show decodeChild (encodeRef r) = _
        rw [decodeChild, if_neg hr.encodeRef_ne, hr.decodeRef_encodeRef]
        rfl
    have hlen : ∀ i, (encodeChild (children i)).length ≤ 33 := by
      intro i
      cases hi : children i with
      | none => exact (by decide : emptyString.length ≤ 33)
      | some c =>
        obtain ⟨r, rfl, hr⟩ := hall i c hi
        exact length_encodeRef_le hr
    have hsum : (((List.finRange 16).map fun i => encodeChild (children i)).map List.length).sum ≤ 16 * 33 := by
      have := List.sum_le_card_nsmul (((List.finRange 16).map fun i => encodeChild (children i)).map List.length) 33
        (by simpa using hlen)
      simpa using this
    have hlist := decodeNode_list (((List.finRange 16).map fun i => encodeChild (children i)) ++ [emptyString])
      (by
        intro x hx
        rcases List.mem_append.1 hx with hx | hx
        · obtain ⟨i, -, rfl⟩ := List.mem_map.1 hx
          exact hitem i
        · exact ⟨_, _, List.mem_singleton.1 hx ▸ isItem_emptyString⟩) (by
        rw [List.flatten_append, List.length_append, List.length_flatten]
        have : [emptyString].flatten.length = 1 := rfl
        omega)
    rw [List.flatten_append, List.flatten_singleton, decodeItems_branch (by simp), List.take_left' (by simp),
      mapM_decodeChild _ hdecode] at hlist
    rw [encodeNode, hlist, Option.map_some]
    simp

end Nodes

end Boltchain.Store
