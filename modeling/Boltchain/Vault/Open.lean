import Boltchain.Lib.Outcome

namespace Boltchain.Vault

open Lib Lib.Outcome

abbrev Bytes := List UInt8

inductive Error where
  | corrupt (why : String)
  | params (why : String)
  | tooFewShards (stripe have_ need : Nat)

def MIN_CHUNK : Nat := 4 * 1024

def MAX_CHUNK : Nat := 256 * 1024

def TAG : Nat := 16

structure Envelope (Cid : Type) where
  manifest : Cid
  nonce : Bytes

/-- The fields of a manifest that opening a file reads, as they decode. -/
structure Manifest (Cid : Type) where
  v : Nat
  size : Nat
  chunk : Nat
  chunks : Nat
  k : Nat
  m : Nat
  noncePrefix : Bytes
  shards : List Cid
  size_lt : size < 2 ^ 64
  k_lt : k < 2 ^ 8
  m_lt : m < 2 ^ 8

/-- Hashes, encryption with the content key, JSON and the erasure code. -/
structure Crypto (Cid : Type) where
  matches_ : Cid → Bytes → Bool
  decrypt : (nonce msg aad : Bytes) → Option Bytes
  fromSlice : Bytes → Option (Manifest Cid)
  /-- Fills in the missing shards of a stripe of `k + m`. -/
  reconstructData : (k m : Nat) → List (Option Bytes) → Option (List (Option Bytes))
  reconstructed : ∀ k m group group', reconstructData k m group = some group' → ∀ ct ∈ group'.take k, ct.isSome

/-- The loop of `layout`; from 4 KiB it takes at most three steps to 256 KiB. -/
def grow (size k : Nat) : Nat → Nat → Nat
  | 0, chunk => chunk
  | n + 1, chunk => if chunk < MAX_CHUNK ∧ chunk * k ≤ size then grow size k n (chunk * 4) else chunk

def layout (size k : Nat) : Outcome Error (Nat × Nat) := do
  let chunk := grow size k 3 MIN_CHUNK
  let stripes ← udiv (size + chunk * k - 1) (chunk * k)
  let chunks ← umul (max stripes 1) k
  return (chunk, chunks)

section

variable {Cid : Type} (C : Crypto Cid)

def openManifest (envelope : Envelope Cid) (block : Bytes) : Outcome Error (Manifest Cid) := do
  ensure (C.matches_ envelope.manifest block) (.corrupt "manifest block does not match its CID")
  ensure (envelope.nonce.length = 24) (.corrupt "envelope nonce")
  let plain ← okOr (C.decrypt envelope.nonce block "bolt-vault/v1/manifest".toUTF8.toList)
    (.corrupt "manifest fails authentication")
  let m ← okOr (C.fromSlice plain) (.corrupt "manifest")
  let (chunk, expected) ← layout m.size m.k
  ensure (m.v = 1 ∧ m.k ≠ 0 ∧ m.noncePrefix.length = 16 ∧ m.chunk = chunk ∧ m.chunks = expected ∧
    m.shards.length = m.chunks / m.k * (m.k + m.m)) (.corrupt "inconsistent manifest")
  return m

variable (m : Manifest Cid) (shards : List (Option Bytes))

def group : Nat → Nat → Outcome Error (List (Option Bytes))
  | 0, _ => ok []
  | n + 1, i => do
    let d ← index shards i
    let cid ← index m.shards i
    let rest ← group n (i + 1)
    return (d.filter fun d => d.length = m.chunk + TAG && C.matches_ cid d) :: rest

def chunkNonce (i : Nat) : Outcome Error Bytes := do
  let n ← copyInto (List.replicate 24 0) 0 16 m.noncePrefix
  copyInto n 16 24 ((List.range 8).map fun j => UInt8.ofNat (i / 256 ^ (7 - j)))

def chunkAad : Bytes := "bolt-vault/v1/chunk".toUTF8.toList ++ (List.range 4).map fun j => UInt8.ofNat (m.chunks / 256 ^ (3 - j))

def openChunks : List (Option Bytes) → Nat → Bytes → Outcome Error Bytes
  | [], _, out => ok out
  | none :: _, _, _ => panic
  | some ct :: cts, i, out => do
    let nonce ← chunkNonce m i
    let plain ← okOr (C.decrypt nonce ct (chunkAad m)) (.corrupt "chunk fails authentication")
    openChunks cts (i + 1) (out ++ plain)

def complete (stripe : Nat) (g : List (Option Bytes)) : Outcome Error (List (Option Bytes)) := do
  let data ← slice g 0 m.k
  if data.all Option.isSome then return g
  else do
    let have_ := (g.filter Option.isSome).length
    ensure (m.k ≤ have_) (.tooFewShards stripe have_ m.k)
    if m.m = 0 then panic else okOr (C.reconstructData m.k m.m g) (.corrupt "erasure code")

def recoverLoop : Nat → Nat → Bytes → Outcome Error Bytes
  | 0, _, out => ok out
  | n + 1, stripe, out => do
    let g ← group C m shards (m.k + m.m) (stripe * (m.k + m.m))
    let g ← complete C m stripe g
    let out ← openChunks C m (g.take m.k) (stripe * m.k) out
    recoverLoop n (stripe + 1) out

def capacity : Nat := m.chunks * m.chunk

def recover : Outcome Error Bytes := do
  ensure (shards.length = m.shards.length) (.params "one entry per shard expected")
  ensure (m.m = 0 ∨ 1 ≤ m.k ∧ m.k + m.m ≤ 256) (.params "erasure code")
  let stripes ← udiv m.chunks m.k
  let out ← recoverLoop C m shards stripes 0 []
  return out.take m.size

end

section Layout

theorem grow_mem (size k n chunk : Nat) (h : MIN_CHUNK ≤ chunk) (h' : chunk * 4 ^ n ≤ MAX_CHUNK) :
    MIN_CHUNK ≤ grow size k n chunk ∧ grow size k n chunk ≤ MAX_CHUNK := by
  induction n generalizing chunk with
  | zero => exact ⟨h, by simpa [grow] using h'⟩
  | succ n ih =>
    rw [grow]
    split
    · exact ih (chunk * 4) (by omega) (by rw [Nat.mul_assoc, ← pow_succ']; exact h')
    · exact ⟨h, (Nat.le_mul_of_pos_right _ (by positivity)).trans h'⟩

theorem layout_zero (size : Nat) : layout size 0 = panic := rfl

theorem safe_layout {size k : Nat} (hsize : size < 2 ^ 64) (hk : k < 2 ^ 8) (hpos : k ≠ 0) :
    Safe (fun r => k ∣ r.2) (layout size k) := by
  obtain ⟨hmin, hmax⟩ := grow_mem size k 3 MIN_CHUNK le_rfl (by decide)
  unfold layout
  generalize grow size k 3 MIN_CHUNK = chunk at *
  unfold MIN_CHUNK at hmin
  unfold MAX_CHUNK at hmax
  simp only [safe_bind, safe_udiv, safe_umul, safe_pure]
  have hstripe : chunk * k ≤ 2 ^ 18 * 2 ^ 8 := Nat.mul_le_mul (by omega) hk.le
  refine ⟨Nat.mul_ne_zero (by omega) hpos, ?_, dvd_mul_left _ _⟩
  have hdiv := Nat.div_mul_le_self (size + chunk * k - 1) (chunk * k)
  generalize (size + chunk * k - 1) / (chunk * k) = stripes at *
  have hchunks : stripes * k * 4096 ≤ stripes * (chunk * k) := by
    rw [Nat.mul_comm chunk, ← Nat.mul_assoc]
    exact Nat.mul_le_mul_left _ (by omega)
  rcases max_cases stripes 1 with h | h
  · rw [h.1]
    omega
  · rw [h.1]
    omega

end Layout

section Recover

variable {Cid : Type} (C : Crypto Cid) {m : Manifest Cid} {shards : List (Option Bytes)}

variable {i n : Nat}

theorem safe_group (hlen : shards.length = m.shards.length) (hi : i + n ≤ m.shards.length) :
    Safe (fun g => g.length = n) (group C m shards n i) := by
  induction n generalizing i with
  | zero => exact .ok rfl
  | succ n ih =>
    unfold group
    simp only [safe_bind, safe_pure]
    refine safe_index (by omega) fun d => safe_index (by omega) fun cid => ?_
    exact (ih (by omega)).mono fun g hg => by rw [List.length_cons, hg]

variable {out : Bytes}

theorem safe_openChunks (hnonce16 : m.noncePrefix.length = 16) {cts : List (Option Bytes)}
    (hcts : ∀ ct ∈ cts, ct.isSome) : Safe (fun _ => True) (openChunks C m cts i out) := by
  induction cts generalizing i out with
  | nil => exact .ok trivial
  | cons ct cts ih =>
    obtain ⟨ct, rfl⟩ := Option.isSome_iff_exists.1 (hcts ct List.mem_cons_self)
    unfold openChunks chunkNonce
    simp only [safe_bind, safe_okOr]
    refine safe_copyInto (Nat.zero_le _) (by simp) hnonce16 fun n hn => ?_
    rw [List.length_replicate] at hn
    refine safe_copyInto (by norm_num) hn.ge (by simp) fun n _ plain _ => ?_
    exact ih fun ct hct => hcts ct (List.mem_cons_of_mem _ hct)

variable {stripe : Nat}

theorem safe_complete {g : List (Option Bytes)} (hg : g.length = m.k + m.m) :
    Safe (fun g => ∀ ct ∈ g.take m.k, ct.isSome) (complete C m stripe g) := by
  unfold complete
  rw [safe_bind, slice_of_le (Nat.zero_le _) (by omega), safe_ok, List.drop_zero, Nat.sub_zero]
  split
  case isTrue hall => exact .ok (List.all_eq_true.1 hall)
  case isFalse hmissing =>
    simp only [safe_bind, safe_ensure]
    intro hhave
    split
    case isTrue hm =>
      refine absurd (List.all_eq_true.2 fun ct hct => ?_) hmissing
      rw [hm, Nat.add_zero] at hg
      have hfull : g.filter Option.isSome = g := List.filter_sublist.eq_of_length_le (by omega)
      exact List.filter_eq_self.1 hfull ct (List.mem_of_mem_take hct)
    case isFalse =>
      rw [safe_okOr]
      exact fun g' hg' => C.reconstructed _ _ _ _ hg'

theorem safe_recoverLoop (hlen : shards.length = m.shards.length) (hnonce16 : m.noncePrefix.length = 16)
    (hn : (stripe + n) * (m.k + m.m) ≤ m.shards.length) :
    Safe (fun _ => True) (recoverLoop C m shards n stripe out) := by
  induction n generalizing stripe out with
  | zero => exact .ok trivial
  | succ n ih =>
    unfold recoverLoop
    simp only [safe_bind]
    have hnext : stripe * (m.k + m.m) + (m.k + m.m) ≤ m.shards.length := by
      rw [← Nat.succ_mul]
      exact (Nat.mul_le_mul_right _ (by omega)).trans hn
    refine (safe_group C hlen hnext).mono fun g hg => ?_
    refine (safe_complete C hg).mono fun g hdata => ?_
    refine (safe_openChunks C hnonce16 hdata).mono fun out _ => ih ?_
    rwa [Nat.add_assoc, Nat.add_comm 1]

structure Consistent (m : Manifest Cid) : Prop where
  k_ne_zero : m.k ≠ 0
  noncePrefix : m.noncePrefix.length = 16
  whole : m.k ∣ m.chunks
  shards : m.shards.length = m.chunks / m.k * (m.k + m.m)

theorem Consistent.recover_ne_panic (h : Consistent m) : recover C m shards ≠ panic := by
  refine Safe.ne_panic (p := fun _ => True) ?_
  unfold recover
  simp only [safe_bind, safe_ensure, safe_udiv, safe_pure]
  intro hlen _
  refine ⟨h.k_ne_zero, (safe_recoverLoop C hlen h.noncePrefix ?_).mono fun _ _ => trivial⟩
  rw [Nat.zero_add, h.shards]

theorem Consistent.capacity_le (h : Consistent m) : capacity m ≤ m.shards.length * m.chunk := by
  refine Nat.mul_le_mul_right _ ?_
  rw [h.shards]
  calc m.chunks = m.chunks / m.k * m.k := (Nat.div_mul_cancel h.whole).symm
    _ ≤ m.chunks / m.k * (m.k + m.m) := Nat.mul_le_mul_left _ (Nat.le_add_right _ _)

end Recover

section Open

variable {Cid : Type} (C : Crypto Cid)

/-- The block is the envelope's, and its content decodes to this manifest. -/
def Encrypts (envelope : Envelope Cid) (block : Bytes) (m : Manifest Cid) : Prop :=
  C.matches_ envelope.manifest block ∧ envelope.nonce.length = 24 ∧ ∃ plain,
    C.decrypt envelope.nonce block "bolt-vault/v1/manifest".toUTF8.toList = some plain ∧ C.fromSlice plain = some m

/-- Opening a file does not panic, and `recover` stays within the shard list, unless the manifest that the key holder
encrypted has no data shards. -/
theorem open_never_panics_iff (envelope : Envelope Cid) (block : Bytes) :
    (openManifest C envelope block ≠ panic ∧ ∀ m, openManifest C envelope block = ok m → ∀ shards,
        recover C m shards ≠ panic ∧ capacity m ≤ m.shards.length * m.chunk) ↔
      ∀ m, Encrypts C envelope block m → m.k ≠ 0 := by
  constructor
  · rintro ⟨hopen, -⟩ m ⟨hcid, hnonce, plain, hplain, hm⟩ hk
    refine hopen ?_
    rw [openManifest, ensure, if_pos hcid, bind_ok_eq, ensure, if_pos hnonce, bind_ok_eq, hplain, okOr, bind_ok_eq, hm,
      okOr, bind_ok_eq, hk, layout_zero]
    rfl
  · intro hk
    have hsafe : Safe Consistent (openManifest C envelope block) := by
      unfold openManifest
      simp only [safe_bind, safe_ensure, safe_okOr, safe_pure]
      intro hcid hnonce plain hplain m hm
      refine (safe_layout m.size_lt m.k_lt (hk m ⟨hcid, hnonce, plain, hplain, hm⟩)).mono fun r hr hcheck => ?_
      obtain ⟨-, hpos, hnonce16, -, hchunks, hshards⟩ := hcheck
      exact ⟨hpos, hnonce16, hchunks ▸ hr, hshards⟩
    refine ⟨hsafe.ne_panic, fun m hm shards => ?_⟩
    rw [hm, safe_ok] at hsafe
    exact ⟨hsafe.recover_ne_panic C, hsafe.capacity_le⟩

def noData : Manifest Unit := ⟨1, 0, 0, 0, 0, 0, [], [], by norm_num, by norm_num, by norm_num⟩

def noDataKey : Crypto Unit where
  matches_ _ _ := true
  decrypt _ msg _ := some msg
  fromSlice _ := some noData
  reconstructData _ _ _ := none
  reconstructed _ _ _ _ h := nomatch h

theorem no_data_shards_panics : openManifest noDataKey ⟨(), List.replicate 24 0⟩ [] = panic := rfl

end Open

end Boltchain.Vault
