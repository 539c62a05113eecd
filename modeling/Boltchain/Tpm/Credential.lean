import Boltchain.Consensus.Evidence
import Boltchain.Lib.Action

namespace Boltchain.Tpm

open Consensus (Bytes toBeBytes ofBeBytes ofBeBytes_toBeBytes)

structure Primitives where
  hmac : (key msg : Bytes) → Bytes
  encryptBlock : (key block : Bytes) → Bytes
  length_hmac : ∀ key msg, (hmac key msg).length = 32
  length_encryptBlock : ∀ key block, (encryptBlock key block).length = 16

def tpm2b (b : Bytes) : Bytes := toBeBytes 2 b.length ++ b

def readTpm2b (d : Bytes) : Except String (Bytes × Bytes) :=
  let n := ofBeBytes (d.take 2)
  if 2 ≤ d.length ∧ 2 + n ≤ d.length then .ok ((d.drop 2).take n, d.drop (2 + n))
  else .error "truncated structure"

/-- The loop of `aes_cfb`: every chunk meets the encryption of the ciphertext chunk before it. -/
def cfb (encryptBlock : Bytes → Bytes) (decrypt : Bool) (iv data : Bytes) : Bytes :=
  if data = [] then []
  else
    let chunk := data.take 16
    let o := List.zipWith (· ^^^ ·) chunk (encryptBlock iv)
    let fb := if decrypt then chunk else o
    o ++ cfb encryptBlock decrypt (fb ++ iv.drop fb.length) (data.drop 16)
termination_by data.length
decreasing_by
  rename_i h
  have := List.length_pos_iff.2 h
  rw [List.length_drop]
  omega

variable (P : Primitives)

def kdfa (key : Bytes) (label : String) (contextU contextV : Bytes) (bits : Nat) : Bytes :=
  let bytes := (bits + 7) / 8
  ((List.range ((bytes + 31) / 32)).flatMap fun i => P.hmac key
    (toBeBytes 4 (i + 1) ++ label.toUTF8.toList ++ [0] ++ contextU ++ contextV ++ toBeBytes 4 bits)).take bytes

def aesCfb (key data : Bytes) (decrypt : Bool) : Bytes :=
  cfb (P.encryptBlock key) decrypt (List.replicate 16 0) data

def symKey (seed akName : Bytes) : Bytes := kdfa P seed "STORAGE" akName [] 128

def hmacKey (seed : Bytes) : Bytes := kdfa P seed "INTEGRITY" [] [] 256

def encIdentity (seed akName secret : Bytes) : Bytes := aesCfb P (symKey P seed akName) (tpm2b secret) false

def integrityOf (seed akName enc : Bytes) : Bytes := P.hmac (hmacKey P seed) (enc ++ akName)

def blob (integrity enc : Bytes) : Bytes := tpm2b (tpm2b integrity ++ enc)

def makeCredential (seed akName secret : Bytes) : Bytes :=
  let enc := encIdentity P seed akName secret
  blob (integrityOf P seed akName enc) enc

def openInner (seed akName inner : Bytes) : Except String Bytes := do
  let r ← readTpm2b inner
  if integrityOf P seed akName r.2 ≠ r.1 then .error "credential integrity"
  else (readTpm2b (aesCfb P (symKey P seed akName) r.2 true)).map Prod.fst

def openCredential (seed akName b : Bytes) : Except String Bytes := do
  let r ← readTpm2b b
  openInner P seed akName r.1

section Cfb

variable {f : Bytes → Bytes} (hf : ∀ b, (f b).length = 16) {iv data : Bytes}

theorem xor_xor_cancel {a k : Bytes} (h : a.length ≤ k.length) :
    List.zipWith (· ^^^ ·) (List.zipWith (· ^^^ ·) a k) k = a := by
  induction a generalizing k with
  | nil => simp
  | cons x a ih =>
    cases k with
    | nil => simp at h
    | cons y k => simp [ih (k := k) (by simpa using h)]

include hf

theorem length_cfb (decrypt : Bool) : (cfb f decrypt iv data).length = data.length := by
  fun_induction cfb f decrypt iv data with
  | case1 => rfl
  | case2 iv data _ chunk o fb ih =>
    simp only [List.length_append, ih, o, chunk, List.length_zipWith, List.length_take, hf, List.length_drop]
    omega

theorem cfb_decrypt : cfb f true iv (cfb f false iv data) = data := by
  fun_induction cfb f false iv data with
  | case1 => simp [cfb]
  | case2 iv data hdata chunk o fb ih =>
    have hchunk : chunk.length ≤ 16 := List.length_take_le _ _
    have ho : o.length = chunk.length := by simp [o, hf, hchunk]
    -- A chunk of fewer than 16 bytes is the last one.
    have htake : (o ++ cfb f false (fb ++ iv.drop fb.length) (data.drop 16)).take 16 = o ∧
        (o ++ cfb f false (fb ++ iv.drop fb.length) (data.drop 16)).drop 16 =
          cfb f false (fb ++ iv.drop fb.length) (data.drop 16) := by
      obtain hlt | hge := lt_or_ge data.length 16
      · rw [List.drop_eq_nil_of_le hlt.le, cfb, if_pos rfl, List.append_nil]
        exact ⟨List.take_of_length_le (by omega), List.drop_eq_nil_of_le (by omega)⟩
      · have h16 : o.length = 16 := by rw [ho, List.length_take]; omega
        exact ⟨by rw [List.take_left' h16], by rw [List.drop_left' h16]⟩
    have hne : o ++ cfb f false (fb ++ iv.drop fb.length) (data.drop 16) ≠ [] := by
      intro h
      have := congrArg List.length (List.append_eq_nil_iff.1 h).1
      rw [ho, List.length_take, List.length_nil] at this
      have := List.length_pos_iff.2 hdata
      omega
    rw [cfb, if_neg hne]
    simp only [htake, if_true]
    rw [xor_xor_cancel (by rw [hf]; exact hchunk)]
    calc _ = chunk ++ cfb f true (fb ++ iv.drop fb.length) (cfb f false (fb ++ iv.drop fb.length) (data.drop 16)) := rfl
      _ = data := by rw [ih, List.take_append_drop]

end Cfb

@[simp]
theorem length_tpm2b (b : Bytes) : (tpm2b b).length = 2 + b.length := by
  rw [tpm2b, List.length_append, Consensus.toBeBytes_length]

variable {b : Bytes}

theorem readTpm2b_append (rest : Bytes) (h : b.length < 65536) : readTpm2b (tpm2b b ++ rest) = .ok (b, rest) := by
  have hn : ofBeBytes ((tpm2b b ++ rest).take 2) = b.length := by
    rw [tpm2b, List.append_assoc, List.take_left' (Consensus.toBeBytes_length _ _), ofBeBytes_toBeBytes]
    omega
  have hlen : (tpm2b b ++ rest).length = 2 + b.length + rest.length := by simp
  rw [readTpm2b, hn, if_pos (by omega)]
  have hd : (tpm2b b ++ rest).drop 2 = b ++ rest := by
    rw [tpm2b, List.append_assoc, List.drop_left' (Consensus.toBeBytes_length _ _)]
  rw [← List.drop_drop, hd, List.take_left' rfl, List.drop_left' rfl]

theorem readTpm2b_cut (h : 65536 ≤ b.length) (h' : b.length < 65570) :
    ∃ rest, readTpm2b (tpm2b b) = .ok (b.take (b.length - 65536), rest) := by
  have hn : ofBeBytes ((tpm2b b).take 2) = b.length - 65536 := by
    rw [tpm2b, List.take_left' (Consensus.toBeBytes_length _ _), ofBeBytes_toBeBytes]
    omega
  have hlen := length_tpm2b b
  rw [readTpm2b, hn, if_pos (by omega), tpm2b, List.drop_left' (Consensus.toBeBytes_length _ _)]
  exact ⟨_, rfl⟩

theorem readTpm2b_short {n : Nat} (hb : b.length = 32) (rest : Bytes) (hn : n < 34) :
    readTpm2b ((tpm2b b ++ rest).take n) = .error "truncated structure" := by
  have hlen : (tpm2b b ++ rest).length = 34 + rest.length := by simp [hb]
  rw [readTpm2b, if_neg]
  rintro ⟨h2, h⟩
  rw [List.length_take] at h2 h
  rw [List.take_take, min_eq_left (by omega), tpm2b, List.append_assoc,
    List.take_left' (Consensus.toBeBytes_length _ _), ofBeBytes_toBeBytes, hb] at h
  omega

variable {P} {seed akName secret integrity enc : Bytes}

theorem openCredential_blob (hi : integrity.length = 32) (henc : enc.length < 65536) :
    openCredential P seed akName (blob integrity enc) =
      if enc.length < 65502 then
        if integrityOf P seed akName enc ≠ integrity then .error "credential integrity"
        else (readTpm2b (aesCfb P (symKey P seed akName) enc true)).map Prod.fst
      else .error "truncated structure" := by
  have hlen : (tpm2b integrity ++ enc).length = 34 + enc.length := by simp [hi]
  by_cases h : enc.length < 65502
  · have hinner := readTpm2b_append (b := tpm2b integrity ++ enc) [] (by omega)
    have hinteg := readTpm2b_append (b := integrity) enc (by omega)
    rw [List.append_nil] at hinner
    rw [openCredential, blob, hinner, Lib.Action.ok_bind, openInner, hinteg, Lib.Action.ok_bind, if_pos h]
  · obtain ⟨rest, hinner⟩ := readTpm2b_cut (b := tpm2b integrity ++ enc) (by omega) (by omega)
    have hinteg := readTpm2b_short hi enc (n := (tpm2b integrity ++ enc).length - 65536) (by omega)
    rw [openCredential, blob, hinner, Lib.Action.ok_bind, openInner, hinteg, Lib.Action.error_bind, if_neg h]

theorem length_integrityOf : (integrityOf P seed akName enc).length = 32 := P.length_hmac _ _

theorem length_encIdentity (P : Primitives) (seed akName secret : Bytes) :
    (encIdentity P seed akName secret).length = 2 + secret.length := by
  rw [encIdentity, aesCfb, length_cfb (P.length_encryptBlock _), tpm2b, List.length_append, Consensus.toBeBytes_length]

theorem openCredential_make (hs : secret.length ≤ 65533) :
    openCredential P seed akName (makeCredential P seed akName secret) =
      if secret.length ≤ 65499 then .ok secret else .error "truncated structure" := by
  have hlen := length_encIdentity P seed akName secret
  rw [makeCredential, openCredential_blob length_integrityOf (by omega), hlen]
  by_cases h : secret.length ≤ 65499
  · have hplain : aesCfb P (symKey P seed akName) (encIdentity P seed akName secret) true = tpm2b secret ++ [] := by
      rw [encIdentity, aesCfb, aesCfb, cfb_decrypt (P.length_encryptBlock _), List.append_nil]
    rw [if_pos (by omega), if_neg (by simp), hplain, readTpm2b_append [] (by omega), if_pos h]
    rfl
  · rw [if_neg (by omega), if_neg h]

theorem openCredential_ne (hi : integrity.length = 32) (henc : enc.length < 65536)
    (h : integrityOf P seed akName enc ≠ integrity) :
    ∃ e, openCredential P seed akName (blob integrity enc) = .error e := by
  rw [openCredential_blob hi henc, if_pos h]
  split <;> exact ⟨_, rfl⟩

/-- Challenges come back for secrets of up to 65499 bytes; longer ones overflow the length of the blob. -/
theorem credential_round_trip_iff (P : Primitives) (seed akName secret : Bytes) (hs : secret.length ≤ 65533) :
    (openCredential P seed akName (makeCredential P seed akName secret) = .ok secret ↔ secret.length ≤ 65499) ∧
    (∀ key data, aesCfb P key (aesCfb P key data false) true = data) ∧
    let enc := encIdentity P seed akName secret
    let integrity := integrityOf P seed akName enc
    -- Another name or another encrypted identity, where the HMAC does not collide.
    (∀ akName' enc', enc'.length = enc.length → enc' ++ akName' ≠ enc ++ akName →
      (P.hmac (hmacKey P seed) (enc' ++ akName') = P.hmac (hmacKey P seed) (enc ++ akName) →
        enc' ++ akName' = enc ++ akName) →
      ∃ e, openCredential P seed akName' (blob integrity enc') = .error e) ∧
    -- Another integrity.
    (∀ integrity', integrity'.length = 32 → integrity' ≠ integrity →
      ∃ e, openCredential P seed akName (blob integrity' enc) = .error e) := by
  have hlen := length_encIdentity P seed akName secret
  refine ⟨?_, fun key data => cfb_decrypt (P.length_encryptBlock key), ?_, ?_⟩
  · rw [openCredential_make hs]
    by_cases h : secret.length ≤ 65499 <;> simp [h]
  · intro akName' enc' hl hne hinj
    exact openCredential_ne length_integrityOf (by omega) fun h => hne (hinj h)
  · intro integrity' hi hne
    exact openCredential_ne hi (by omega) fun h => hne h.symm

def lastByte : Primitives where
  hmac _ msg := msg.getLastD 0 :: List.replicate 31 0
  encryptBlock _ _ := List.replicate 16 0
  length_hmac := by simp
  length_encryptBlock := by simp

theorem credential_round_trip_iff_lastByte :
    openCredential lastByte [0] [1] (makeCredential lastByte [0] [1] [7]) = .ok [7] ∧
    ∃ e, openCredential lastByte [0] [2] (makeCredential lastByte [0] [1] [7]) = .error e := by
  have h := credential_round_trip_iff lastByte [0] [1] [7] (by decide)
  refine ⟨h.1.2 (by decide), h.2.2.1 [2] _ rfl (by simp) ?_⟩
  simp [lastByte]

/-- The challenge of a secret of 65500 bytes cannot be opened. -/
theorem long_secret_lost :
    openCredential lastByte [0] [1] (makeCredential lastByte [0] [1] (List.replicate 65500 0)) =
      .error "truncated structure" := by
  have hlen : (List.replicate 65500 (0 : UInt8)).length = 65500 := List.length_replicate
  rw [openCredential_make (by omega), if_neg (by omega)]

end Boltchain.Tpm
