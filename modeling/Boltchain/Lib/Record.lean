import Boltchain.Lib.Rlp

namespace Boltchain.Lib.Record

/-- Values of one type as strings: every value is read back, and a string is accepted only as the one that its
value is written as. -/
structure Field (α : Type) where
  write : α → List UInt8
  read : List UInt8 → Option α
  read_write : ∀ a, read (write a) = some a
  write_of_read : ∀ {b a}, read b = some a → b = write a

structure FixedBytes (n : Nat) where
  bytes : List UInt8
  length_eq : bytes.length = n
  deriving DecidableEq

@[ext]
theorem FixedBytes.ext_bytes {n : Nat} {w w' : FixedBytes n} (h : w.bytes = w'.bytes) : w = w' := by
  cases w
  cases w'
  cases h
  rfl

namespace Field

def fixed (n : Nat) : Field (FixedBytes n) where
  write w := w.bytes
  read b := if h : b.length = n then some ⟨b, h⟩ else none
  read_write w := dif_pos w.length_eq
  write_of_read {b w} h := by
    split at h
    case isTrue =>
      cases h
      rfl
    case isFalse => cases h

def raw : Field (List UInt8) where
  write := id
  read := some
  read_write _ := rfl
  write_of_read h := Option.some.inj h

def uint (w : Nat) : Field (Fin (256 ^ w)) where
  write x := Rlp.toBe x
  read b :=
    if b.head? = some 0 then none
    else if h : Rlp.ofBe b < 256 ^ w then some ⟨Rlp.ofBe b, h⟩ else none
  read_write x := by
    have hhead : (Rlp.toBe x).head? ≠ some 0 := by
      intro hzero
      rcases Nat.eq_zero_or_pos x.val with h0 | hpos
      · rw [h0] at hzero
        simp [Rlp.toBe] at hzero
      · have := Rlp.head_toBe hpos
        rw [hzero] at this
        simp at this
    rw [if_neg hhead]
    simp only [Rlp.ofBe_toBe, x.isLt, dif_pos]
  write_of_read {b x} h := by
    split at h
    case isTrue => cases h
    case isFalse hhead =>
      split at h
      case isTrue =>
        cases h
        cases b with
        | nil => simp [Rlp.toBe, Rlp.ofBe]
        | cons c b => exact (Rlp.toBe_ofBe (by simpa using hhead)).symm
      case isFalse => cases h

end Field

/-- Records as lists of strings, with the same two laws. -/
structure Schema (α : Type) where
  write : α → List (List UInt8)
  read : List (List UInt8) → Option α
  read_write : ∀ a, read (write a) = some a
  write_of_read : ∀ {ss a}, read ss = some a → ss = write a

namespace Schema

variable {α β : Type}

def done : Schema Unit where
  write _ := []
  read
    | [] => some ()
    | _ :: _ => none
  read_write _ := rfl
  write_of_read {ss a} h := by
    cases ss with
    | nil => rfl
    | cons => cases h

def field (f : Field α) (g : Schema β) : Schema (α × β) where
  write x := f.write x.1 :: g.write x.2
  read
    | [] => none
    | s :: ss => do
      let a ← f.read s
      let b ← g.read ss
      return (a, b)
  read_write x := by
    simp only [f.read_write, g.read_write, Option.bind_eq_bind, Option.bind_some]
    rfl
  write_of_read {ss x} h := by
    cases ss with
    | nil => cases h
    | cons s ss =>
      simp only [bind, Option.bind_eq_some_iff] at h
      obtain ⟨a, ha, b, hb, heq⟩ := h
      cases heq
      rw [f.write_of_read ha, g.write_of_read hb]

def optional (f : Field α) (g : Schema β) : Schema (Option (α × β)) where
  write
    | none => []
    | some x => (field f g).write x
  read
    | [] => some none
    | s :: ss => ((field f g).read (s :: ss)).map some
  read_write x := by
    cases x with
    | none => rfl
    | some x =>
      have hread := (field f g).read_write x
      rw [field] at hread ⊢
      simp only at hread ⊢
      rw [hread]
      rfl
  write_of_read {ss x} h := by
    cases ss with
    | nil =>
      cases h
      rfl
    | cons s ss =>
      obtain ⟨y, hy, rfl⟩ := Option.map_eq_some_iff.1 h
      exact (field f g).write_of_read hy

def iso (g : Schema α) (pack : α → β) (unpack : β → α) (pack_unpack : ∀ b, pack (unpack b) = b)
    (unpack_pack : ∀ a, unpack (pack a) = a) : Schema β where
  write b := g.write (unpack b)
  read ss := (g.read ss).map pack
  read_write b := by rw [g.read_write, Option.map_some, pack_unpack]
  write_of_read {ss b} h := by
    obtain ⟨a, ha, rfl⟩ := Option.map_eq_some_iff.1 h
    rw [unpack_pack]
    exact g.write_of_read ha

def encode (g : Schema α) (a : α) : List UInt8 := Rlp.encodeStrings (g.write a)

def decode (g : Schema α) (buf : List UInt8) : Option (α × List UInt8) := do
  let (ss, rest) ← Rlp.decodeStrings buf
  let a ← g.read ss
  return (a, rest)

variable {g : Schema α}

theorem decode_encode {a : α} (h : ((g.write a).flatMap Rlp.string).length < 2 ^ 64) (rest : List UInt8) :
    g.decode (g.encode a ++ rest) = some (a, rest) := by
  simp only [decode, encode, Rlp.decodeStrings_encodeStrings h, Option.bind_eq_bind, Option.bind_some, g.read_write]
  rfl

theorem decode_eq_some {b rest : List UInt8} {a : α} (h : g.decode b = some (a, rest)) :
    b = g.encode a ++ rest ∧ ((g.write a).flatMap Rlp.string).length < 2 ^ 64 := by
  simp only [decode, bind, Option.bind_eq_some_iff] at h
  obtain ⟨⟨ss, rest'⟩, hss, a', ha, heq⟩ := h
  cases heq
  have hwrite : ss = g.write a := g.write_of_read ha
  rw [encode, ← hwrite]
  exact Rlp.decodeStrings_eq_some hss

end Schema

end Boltchain.Lib.Record
