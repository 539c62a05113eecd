import Mathlib

namespace Boltchain.Lib.Rlp

def toBe (n : Nat) : List UInt8 := ((Nat.digits 256 n).map UInt8.ofNat).reverse

def ofBe (bs : List UInt8) : Nat := Nat.ofDigits 256 (bs.reverse.map UInt8.toNat)

def header (list : Bool) (n : Nat) : List UInt8 :=
  if n < 56 then [UInt8.ofNat ((if list then 0xc0 else 0x80) + n)]
  else UInt8.ofNat ((if list then 0xf7 else 0xb7) + (toBe n).length) :: toBe n

def string (s : List UInt8) : List UInt8 :=
  match s with
  | [b] => if b.toNat < 0x80 then [b] else header false 1 ++ [b]
  | s => header false s.length ++ s

def list (payload : List UInt8) : List UInt8 := header true payload.length ++ payload

def checkLength (h : Bool × Nat) (rest : List UInt8) : Option ((Bool × Nat) × List UInt8) :=
  if h.2 ≤ rest.length then some (h, rest) else none

/-- Reads a header: whether a list follows, the length of the payload, and the bytes from there on. -/
def decodeHeader : List UInt8 → Option ((Bool × Nat) × List UInt8)
  | [] => none
  | b :: rest =>
    if b.toNat < 0x80 then some ((false, 1), b :: rest)
    else if b.toNat ≤ 0xb7 then
      if b.toNat = 0x81 && rest.head?.all (·.toNat < 0x80) then none
      else checkLength (false, b.toNat - 0x80) rest
    else if 0xc0 ≤ b.toNat ∧ b.toNat ≤ 0xf7 then checkLength (true, b.toNat - 0xc0) rest
    else
      let isList := decide (0xf8 ≤ b.toNat)
      let lenOfLen := b.toNat - if isList then 0xf7 else 0xb7
      let len := rest.take lenOfLen
      if len.length < lenOfLen || len.head?.all (· == 0) || ofBe len < 56 then none
      else checkLength (isList, ofBe len) (rest.drop lenOfLen)

theorem ofBe_toBe (n : Nat) : ofBe (toBe n) = n := by
  have hdigits : (Nat.digits 256 n).map (fun d => (UInt8.ofNat d).toNat) = Nat.digits 256 n := by
    refine (List.map_congr_left fun d hd => ?_).trans (List.map_id _)
    exact UInt8.toNat_ofNat_of_lt' (Nat.digits_lt_base (by norm_num) hd)
  rw [ofBe, toBe, List.reverse_reverse, List.map_map]
  show Nat.ofDigits 256 ((Nat.digits 256 n).map fun d => (UInt8.ofNat d).toNat) = n
  rw [hdigits, Nat.ofDigits_digits]

theorem length_toBe (n : Nat) : (toBe n).length = (Nat.digits 256 n).length := by
  rw [toBe, List.length_reverse, List.length_map]

variable {n : Nat}

theorem length_toBe_le (h : n < 2 ^ 64) : (toBe n).length ≤ 8 := by
  rw [length_toBe]
  exact (Nat.digits_length_le_iff (by norm_num) n).2 (by simpa using h)

theorem toBe_ne_nil (h : 0 < n) : toBe n ≠ [] := by
  rw [toBe, ne_eq, List.reverse_eq_nil_iff, List.map_eq_nil_iff, Nat.digits_eq_nil_iff_eq_zero]
  omega

theorem head_toBe (h : 0 < n) : (toBe n).head?.all (· == 0) = false := by
  have hne : Nat.digits 256 n ≠ [] := Nat.digits_ne_nil_iff_ne_zero.2 h.ne'
  have hlast := Nat.getLast_digit_ne_zero 256 h.ne'
  have hlt : (Nat.digits 256 n).getLast hne < 256 := Nat.digits_lt_base (by norm_num) (List.getLast_mem hne)
  rw [toBe, List.head?_reverse, List.getLast?_map, List.getLast?_eq_some_getLast hne]
  simp only [Option.map_some, Option.all_some, beq_eq_false_iff_ne, ne_eq]
  intro hzero
  have := congrArg UInt8.toNat hzero
  rw [UInt8.toNat_ofNat_of_lt' hlt] at this
  exact hlast this

theorem length_header_pos (l : Bool) (n : Nat) : 0 < (header l n).length := by
  unfold header
  split <;> simp

variable {l : Bool} {rest : List UInt8}

/-- Reading a header that was written gives it back, if the payload is there and is not a single small
byte. -/
theorem decodeHeader_header (hn : n < 2 ^ 64) (hrest : n ≤ rest.length)
    (hsmall : l = false → n = 1 → ∀ b ∈ rest.head?, 0x80 ≤ b.toNat) :
    decodeHeader (header l n ++ rest) = some ((l, n), rest) := by
  have hcheck : checkLength (l, n) rest = some ((l, n), rest) := if_pos hrest
  unfold header
  split
  case isTrue hlt =>
    cases l with
    | true =>
      have hb : (UInt8.ofNat (0xc0 + n)).toNat = 0xc0 + n := UInt8.toNat_ofNat_of_lt' (by simp [UInt8.size]; omega)
      simp only [List.cons_append, List.nil_append, decodeHeader, if_true, hb]
      rw [if_neg (by omega), if_neg (by omega), if_pos (by omega)]
      simpa using hcheck
    | false =>
      have hb : (UInt8.ofNat (0x80 + n)).toNat = 0x80 + n := UInt8.toNat_ofNat_of_lt' (by simp [UInt8.size]; omega)
      simp only [List.cons_append, List.nil_append, decodeHeader, Bool.false_eq_true, if_false, hb]
      rw [if_neg (by omega), if_pos (by omega), if_neg]
      · simpa using hcheck
      · simp only [Bool.and_eq_true, decide_eq_true_eq, not_and]
        intro hone hall
        have hn1 : n = 1 := by omega
        cases rest with
        | nil => simp at hrest; omega
        | cons b rest =>
          have := hsmall rfl hn1 b rfl
          simp at hall
          omega
  case isFalse hge =>
    have hlen := length_toBe_le hn
    have hpos : 0 < (toBe n).length := List.length_pos_iff.2 (toBe_ne_nil (by omega))
    have htake : (toBe n ++ rest).take (toBe n).length = toBe n := List.take_left
    have hdrop : (toBe n ++ rest).drop (toBe n).length = rest := List.drop_left
    have hguard : (decide ((toBe n).length < (toBe n).length) || (toBe n).head?.all (· == 0) ||
        decide (n < 56)) = false := by
      rw [head_toBe (by omega)]
      simpa using hge
    cases l with
    | true =>
      have hb : (UInt8.ofNat (0xf7 + (toBe n).length)).toNat = 0xf7 + (toBe n).length :=
        UInt8.toNat_ofNat_of_lt' (by simp [UInt8.size]; omega)
      simp only [List.cons_append, decodeHeader, if_true, hb]
      rw [if_neg (by omega), if_neg (by omega), if_neg (by omega)]
      have hlist : decide (0xf8 ≤ 0xf7 + (toBe n).length) = true := by simp; omega
      simp only [hlist, if_true, Nat.add_sub_cancel_left, htake, hdrop, ofBe_toBe]
      rw [if_neg (by rw [hguard]; exact Bool.false_ne_true)]
      exact hcheck
    | false =>
      have hb : (UInt8.ofNat (0xb7 + (toBe n).length)).toNat = 0xb7 + (toBe n).length :=
        UInt8.toNat_ofNat_of_lt' (by simp [UInt8.size]; omega)
      simp only [List.cons_append, decodeHeader, Bool.false_eq_true, if_false, hb]
      rw [if_neg (by omega), if_neg (by omega), if_neg (by omega)]
      have hlist : decide (0xf8 ≤ 0xb7 + (toBe n).length) = false := by simp; omega
      simp only [hlist, Bool.false_eq_true, if_false, Nat.add_sub_cancel_left, htake, hdrop, ofBe_toBe]
      rw [if_neg (by rw [hguard]; exact Bool.false_ne_true)]
      exact hcheck

/-- `x` is one item, a list or not, with the given payload at its end. -/
structure IsItem (x : List UInt8) (isList : Bool) (payload : List UInt8) : Prop where
  decode : ∀ rest, decodeHeader (x ++ rest) = some ((isList, payload.length), payload ++ rest)
  pos : 0 < x.length
  le : payload.length ≤ x.length

variable {payload : List UInt8}

theorem isItem_list (h : payload.length < 2 ^ 64) : IsItem (list payload) true payload where
  decode rest := by
    rw [list, List.append_assoc]
    exact decodeHeader_header h (by simp) (by simp)
  pos := by
    have := length_header_pos true payload.length
    rw [list, List.length_append]
    omega
  le := by simp [list]

variable {s : List UInt8}

theorem isItem_string (h : s.length < 2 ^ 64) : IsItem (string s) false s := by
  have hplain : (∀ b, s = [b] → 0x80 ≤ b.toNat) → IsItem (header false s.length ++ s) false s := by
    intro hs
    refine ⟨fun rest => ?_, ?_, by simp⟩
    · rw [List.append_assoc]
      refine decodeHeader_header h (by simp) fun _ hone b hb => ?_
      obtain ⟨c, rfl⟩ := List.length_eq_one_iff.1 hone
      cases hb
      exact hs b rfl
    · have := length_header_pos false s.length
      rw [List.length_append]
      omega
  match s with
  | [] => exact hplain (by simp)
  | [b] =>
    rw [string]
    split
    case isTrue hb => exact ⟨fun rest => if_pos hb, by simp, by simp⟩
    case isFalse hb =>
      refine hplain fun c hc => ?_
      cases hc
      omega
  | b :: c :: s => exact hplain (by simp)

/-- Reads items one after the other. The number bounds how many there may be. -/
def rawItems : Nat → List UInt8 → Option (List (List UInt8))
  | _, [] => some []
  | 0, _ :: _ => none
  | n + 1, buf => do
    let (h, rest) ← decodeHeader buf
    let total := (buf.length - rest.length) + h.2
    if total ≤ buf.length then
      let items ← rawItems n (buf.drop total)
      return buf.take total :: items
    else none

variable {isList : Bool}

theorem rawItems_append {x : List UInt8} (hx : IsItem x isList payload) :
    rawItems (n + 1) (x ++ rest) = (rawItems n rest).map (x :: ·) := by
  have htotal : (x ++ rest).length - (payload ++ rest).length + payload.length = x.length := by
    have := hx.le
    simp only [List.length_append]
    omega
  cases x with
  | nil => exact absurd hx.pos (by simp)
  | cons b x =>
    rw [List.cons_append, rawItems, ← List.cons_append, hx.decode]
    · simp only [Option.bind_eq_bind, Option.bind_some]
      rw [htotal, if_pos (by simp), List.drop_left, List.take_left]
      cases rawItems n rest <;> rfl
    · simp

theorem rawItems_flatten {items : List (List UInt8)} (hn : items.length ≤ n)
    (h : ∀ x ∈ items, ∃ isList payload, IsItem x isList payload) : rawItems n items.flatten = some items := by
  induction items generalizing n with
  | nil => cases n <;> rfl
  | cons x items ih =>
    obtain ⟨isList, payload, hx⟩ := h x List.mem_cons_self
    cases n with
    | zero => simp at hn
    | succ n =>
      rw [List.flatten_cons, rawItems_append hx, ih (by simpa using hn) fun y hy => h y (List.mem_cons_of_mem _ hy)]
      rfl

variable {bs : List UInt8}

theorem toBe_ofBe (h : bs.head?.all (· == 0) = false) : toBe (ofBe bs) = bs := by
  have hdigits : Nat.digits 256 (ofBe bs) = bs.reverse.map UInt8.toNat := by
    refine Nat.digits_ofDigits 256 (by norm_num) _ ?_ ?_
    · simp only [List.mem_map, forall_exists_index, and_imp]
      rintro _ b - rfl
      exact b.toNat_lt
    · intro hne hzero
      cases bs with
      | nil => simp at hne
      | cons b bs =>
        rw [List.getLast_map, List.getLast_reverse] at hzero
        simp only [List.head_cons] at hzero
        simp only [List.head?_cons, Option.all_some, beq_eq_false_iff_ne, ne_eq] at h
        exact h (UInt8.toNat_inj.1 hzero)
  rw [toBe, hdigits, List.map_map, List.map_reverse, List.reverse_reverse]
  exact (List.map_congr_left fun b _ => by simp).trans (List.map_id bs)

theorem ofBe_lt (bs : List UInt8) : ofBe bs < 256 ^ bs.length := by
  have hlt := Nat.ofDigits_lt_base_pow_length (b := 256) (l := bs.reverse.map UInt8.toNat) (by norm_num) (by
    simp only [List.mem_map, forall_exists_index, and_imp]
    rintro _ b - rfl
    exact b.toNat_lt)
  simpa [ofBe] using hlt

def item (isList : Bool) (payload : List UInt8) : List UInt8 := if isList then list payload else string payload

theorem checkLength_eq_some {x h : Bool × Nat} {rest' : List UInt8} (hx : checkLength x rest = some (h, rest')) :
    x = h ∧ rest = rest' ∧ h.2 ≤ rest'.length := by
  rw [checkLength] at hx
  split at hx
  case isTrue hle =>
    cases hx
    exact ⟨rfl, rfl, hle⟩
  case isFalse => cases hx

theorem string_eq (h : ∀ b, s = [b] → 0x80 ≤ b.toNat) : string s = header false s.length ++ s := by
  match s with
  | [] => rfl
  | [b] =>
    have hb := h b rfl
    rw [string, if_neg (by omega)]
    rfl
  | b :: c :: s => rfl

theorem item_eq
    (h : isList = false → ∀ b, payload = [b] → 0x80 ≤ b.toNat) :
    item isList payload = header isList payload.length ++ payload := by
  cases isList with
  | true => rfl
  | false => exact string_eq (h rfl)

theorem header_append (hle : n ≤ rest.length)
    (h : isList = false → n = 1 → ∀ b ∈ rest.head?, 0x80 ≤ b.toNat) :
    header isList n ++ rest = item isList (rest.take n) ++ rest.drop n := by
  have hlen : (rest.take n).length = n := by rw [List.length_take, Nat.min_eq_left hle]
  rw [item_eq, hlen, List.append_assoc, List.take_append_drop]
  intro hl b hb
  have hone : n = 1 := by rw [← hlen, hb]; rfl
  refine h hl hone b ?_
  subst hone
  cases rest with
  | nil => cases hb
  | cons c rest => simpa using hb

theorem header_short {b : UInt8} (hn : n < 56)
    (hb : b.toNat = (if isList then 0xc0 else 0x80) + n) : header isList n = [b] := by
  rw [header, if_pos hn, ← hb, UInt8.ofNat_toNat]

theorem header_long {b : UInt8} {len : List UInt8} (hlen : 56 ≤ ofBe len)
    (hhead : len.head?.all (· == 0) = false) (hb : b.toNat = (if isList then 0xf7 else 0xb7) + len.length) :
    header isList (ofBe len) = b :: len := by
  rw [header, if_neg (by omega), toBe_ofBe hhead, ← hb, UInt8.ofNat_toNat]

/-- `b` is an item and what follows it, and its payload starts `rest`. -/
def Announces (b : List UInt8) (isList : Bool) (n : Nat) (rest : List UInt8) : Prop :=
  n ≤ rest.length ∧ n < 2 ^ 64 ∧ b = item isList (rest.take n) ++ rest.drop n

theorem announces_long {x : UInt8} {k : Nat} (hk : k ≤ 8)
    (hx : x.toNat = (if l then 0xf7 else 0xb7) + k)
    (h : (if (decide ((bs.take k).length < k) || (bs.take k).head?.all (· == 0) || decide (ofBe (bs.take k) < 56)) = true
      then none else checkLength (l, ofBe (bs.take k)) (bs.drop k)) = some ((isList, n), rest)) :
    Announces (x :: bs) isList n rest := by
  split at h
  case isTrue => cases h
  case isFalse hlen =>
    obtain ⟨heq, rfl, hfits⟩ := checkLength_eq_some h
    cases heq
    simp only [Bool.or_eq_true, decide_eq_true_eq, not_or, Bool.not_eq_true] at hlen
    obtain ⟨⟨hcount, hhead⟩, h56⟩ := hlen
    have htake : (bs.take k).length = k := by
      have := List.length_take_le k bs
      omega
    have hlt : ofBe (bs.take k) < 256 ^ 8 :=
      (ofBe_lt _).trans_le (Nat.pow_le_pow_right (by norm_num) (htake.le.trans hk))
    refine ⟨hfits, by simpa using hlt, ?_⟩
    rw [← header_append hfits (fun _ hone => by omega), header_long (b := x) (by omega) hhead (by rw [htake, hx]),
      List.cons_append, List.take_append_drop]

variable {b : List UInt8}

/-- What a header is read from is the item with the payload that it announces: nothing else is accepted. -/
theorem decodeHeader_canonical
    (h : decodeHeader b = some ((isList, n), rest)) : Announces b isList n rest := by
  cases b with
  | nil => cases h
  | cons x bs =>
    have hx := x.toNat_lt
    rw [decodeHeader] at h
    split at h
    case isTrue hsmall =>
      cases h
      refine ⟨by simp, by norm_num, ?_⟩
      simp [item, string, hsmall]
    case isFalse hge =>
      split at h
      case isTrue hle =>
        split at h
        case isTrue => cases h
        case isFalse hbyte =>
          obtain ⟨heq, rfl, hfits⟩ := checkLength_eq_some h
          cases heq
          refine ⟨hfits, by omega, ?_⟩
          rw [← header_append hfits, header_short (b := x) (by omega) (by simp; omega)]
          · rfl
          · intro _ hone b hb
            have h81 : x.toNat = 0x81 := by omega
            by_contra hlt
            rw [Option.mem_def] at hb
            simp [h81, hb] at hbyte
            omega
      case isFalse hgt =>
        split at h
        case isTrue hlist =>
          obtain ⟨heq, rfl, hfits⟩ := checkLength_eq_some h
          cases heq
          refine ⟨hfits, by omega, ?_⟩
          rw [← header_append hfits (by simp), header_short (b := x) (by omega) (by simp; omega)]
          rfl
        case isFalse hlong =>
          refine announces_long ?_ ?_ h
          · split <;> simp_all <;> omega
          · split <;> simp_all <;> omega

def decodeBytes (isList : Bool) (buf : List UInt8) : Option (List UInt8 × List UInt8) := do
  let (h, rest) ← decodeHeader buf
  if h.1 = isList then some (rest.take h.2, rest.drop h.2) else none

theorem decodeBytes_item (h : payload.length < 2 ^ 64) (rest : List UInt8) :
    decodeBytes isList (item isList payload ++ rest) = some (payload, rest) := by
  have hitem : IsItem (item isList payload) isList payload := by
    cases isList with
    | true => exact isItem_list h
    | false => exact isItem_string h
  simp only [decodeBytes, hitem.decode rest, Option.bind_eq_bind, Option.bind_some, if_true, List.take_left,
    List.drop_left]

theorem decodeBytes_eq_some
    (h : decodeBytes isList b = some (payload, rest)) : b = item isList payload ++ rest ∧ payload.length < 2 ^ 64 := by
  obtain ⟨⟨⟨l, n⟩, rest'⟩, hdec, hpart⟩ := Option.bind_eq_some_iff.1 h
  obtain ⟨-, hlt, heq⟩ := decodeHeader_canonical hdec
  simp only at hpart
  split at hpart
  case isTrue hl =>
    cases hpart
    subst hl
    exact ⟨heq, (List.length_take_le _ _).trans_lt hlt⟩
  case isFalse => cases hpart

theorem length_item (isList : Bool) (payload : List UInt8) :
    0 < (item isList payload).length ∧ payload.length ≤ (item isList payload).length := by
  have hpos := length_header_pos isList payload.length
  cases isList with
  | true =>
    rw [item, if_pos rfl, list, List.length_append]
    omega
  | false =>
    rw [item, if_neg Bool.false_ne_true]
    match payload with
    | [] => exact ⟨by decide, Nat.zero_le _⟩
    | [b] =>
      rw [string]
      split <;> simp
    | b :: c :: s =>
      rw [string_eq (by simp), List.length_append]
      omega

/-- Strings one after the other, to the end. The number bounds how many there may be. -/
def strings : Nat → List UInt8 → Option (List (List UInt8))
  | _, [] => some []
  | 0, _ :: _ => none
  | n + 1, b :: buf => do
    let (s, rest) ← decodeBytes false (b :: buf)
    let ss ← strings n rest
    return s :: ss

variable {ss : List (List UInt8)}

theorem strings_eq_some {buf : List UInt8} (h : strings n buf = some ss) :
    buf = ss.flatMap string := by
  induction n generalizing buf ss with
  | zero =>
    cases buf with
    | nil =>
      cases h
      rfl
    | cons b buf => cases h
  | succ n ih =>
    cases buf with
    | nil =>
      cases h
      rfl
    | cons b buf =>
      simp only [strings, bind, Option.bind_eq_some_iff] at h
      obtain ⟨⟨s, rest⟩, hs, ss', hss, heq⟩ := h
      cases heq
      have hrest : rest = ss'.flatMap string := ih hss
      rw [(decodeBytes_eq_some hs).1, hrest]
      rfl

theorem strings_flatMap (hn : ss.length ≤ n) (hlt : ∀ s ∈ ss, s.length < 2 ^ 64) :
    strings n (ss.flatMap string) = some ss := by
  induction ss generalizing n with
  | nil => cases n <;> rfl
  | cons s ss ih =>
    obtain ⟨m, rfl⟩ : ∃ m, n = m + 1 := ⟨n - 1, by simp at hn; omega⟩
    have hdec : decodeBytes false (item false s ++ ss.flatMap string) = some (s, ss.flatMap string) :=
      decodeBytes_item (hlt s List.mem_cons_self) _
    have hpos := (length_item false s).1
    have htail := ih (n := m) (by simpa using hn) fun x hx => hlt x (List.mem_cons_of_mem _ hx)
    rw [List.flatMap_cons]
    change strings (m + 1) (item false s ++ ss.flatMap string) = _
    cases hx : item false s ++ ss.flatMap string with
    | nil => simp [List.append_eq_nil_iff] at hx; simp [hx.1] at hpos
    | cons b buf =>
      rw [hx] at hdec
      simp only [strings, hdec, Option.bind_eq_bind, Option.bind_some, htail]
      rfl

def encodeStrings (ss : List (List UInt8)) : List UInt8 := list (ss.flatMap string)

def decodeStrings (buf : List UInt8) : Option (List (List UInt8) × List UInt8) := do
  let (payload, rest) ← decodeBytes true buf
  let ss ← strings payload.length payload
  return (ss, rest)

theorem length_le_flatMap (ss : List (List UInt8)) : ss.length ≤ (ss.flatMap string).length ∧
    ∀ s ∈ ss, s.length ≤ (ss.flatMap string).length := by
  induction ss with
  | nil => simp
  | cons s ss ih =>
    obtain ⟨hpos, hle⟩ : 0 < (string s).length ∧ s.length ≤ (string s).length := length_item false s
    simp only [List.flatMap_cons, List.length_append, List.length_cons, List.forall_mem_cons]
    refine ⟨by omega, by omega, fun x hx => ?_⟩
    have hx := ih.2 x hx
    omega

theorem decodeStrings_encodeStrings (h : (ss.flatMap string).length < 2 ^ 64)
    (rest : List UInt8) : decodeStrings (encodeStrings ss ++ rest) = some (ss, rest) := by
  obtain ⟨hcount, hlong⟩ := length_le_flatMap ss
  have hdec : decodeBytes true (encodeStrings ss ++ rest) = some (ss.flatMap string, rest) := decodeBytes_item h rest
  simp only [decodeStrings, hdec, Option.bind_eq_bind, Option.bind_some,
    strings_flatMap hcount fun s hs => (hlong s hs).trans_lt h]
  rfl

theorem decodeStrings_eq_some
    (h : decodeStrings b = some (ss, rest)) :
    b = encodeStrings ss ++ rest ∧ (ss.flatMap string).length < 2 ^ 64 := by
  simp only [decodeStrings, bind, Option.bind_eq_some_iff] at h
  obtain ⟨⟨payload, rest'⟩, hdec, ss', hss, heq⟩ := h
  cases heq
  have hpayload : payload = ss.flatMap string := strings_eq_some hss
  obtain ⟨hb, hlt⟩ := decodeBytes_eq_some hdec
  rw [hb, ← hpayload]
  exact ⟨by rw [encodeStrings, ← hpayload]; rfl, hlt⟩

end Boltchain.Lib.Rlp
