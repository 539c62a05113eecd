import Boltchain.Ipld.Header
import Boltchain.Lib.Chunks

namespace Boltchain.Ipld

open Lib.Record (FixedBytes)

def ethBlock : Nat := 0x90

def raw : Nat := 0x55

def dagCbor : Nat := 0x71

def dagPb : Nat := 0x70

def keccak256Code : Nat := 0x1b

def sha2256Code : Nat := 0x12

def envelopeVersion : Nat := 1

def maxIpldBlockBytes : Nat := 2 ^ 20

structure Multihash where
  code : Nat
  digest : Bytes
  deriving DecidableEq

inductive Version where
  | v0
  | v1
  deriving DecidableEq

structure Cid where
  version : Version
  codec : Nat
  hash : Multihash
  dagPb_of_v0 : version = .v0 → codec = dagPb
  deriving DecidableEq

def Cid.newV1 (codec : Nat) (hash : Multihash) : Cid := ⟨.v1, codec, hash, by simp⟩

inductive IpldError where
  | hashMismatch (cid : Cid)
  | unsupported (cid : Cid)
  | malformed (what : String)
  | missing (cid : Cid)
  deriving DecidableEq

/-- The dag-cbor node that links the parts of a block and its parent. -/
structure Envelope where
  v : Nat
  height : U64
  header : Cid
  parent : Option Cid
  chunks : List Cid
  qc : Bytes
  audits : List Bytes
  deriving DecidableEq

/-- The hashes and codecs of the libraries. Transactions are read back from what they are written as. -/
structure Libraries (Tx : Type) where
  keccak256 : Bytes → B256
  sha256 : Bytes → B256
  encoded2718 : Tx → Bytes
  decode2718 : Bytes → Option (Tx × Bytes)
  decode2718_encoded : ∀ tx, decode2718 (encoded2718 tx) = some (tx, [])
  encodeEnvelope : Envelope → Bytes

structure BlockBundle where
  root : Cid
  envelope : Envelope
  blocks : List (Cid × Bytes)

structure DecodedBlock (Tx : Type) where
  envelope : Envelope
  header : Header
  transactions : List Tx

def headerCid (blockHash : B256) : Cid := .newV1 ethBlock ⟨keccak256Code, blockHash.bytes⟩

def okOr {α : Type} (o : Option α) (err : IpldError) : Except IpldError α :=
  match o with
  | some a => .ok a
  | none => .error err

section

variable {Tx : Type} (lib : Libraries Tx)

def hashSlow (header : Header) : B256 := lib.keccak256 header.encode

def sha256Cid (codec : Nat) (data : Bytes) : Cid := .newV1 codec ⟨sha2256Code, (lib.sha256 data).bytes⟩

def verify (cid : Cid) (data : Bytes) : Except IpldError Unit :=
  if maxIpldBlockBytes < data.length then .error (.malformed "oversized block")
  else if cid.codec = ethBlock ∧ cid.hash.code = keccak256Code then
    if cid.hash.digest = (lib.keccak256 data).bytes then .ok () else .error (.hashMismatch cid)
  else if (cid.codec = raw ∨ cid.codec = dagCbor) ∧ cid.hash.code = sha2256Code then
    if cid.hash.digest = (lib.sha256 data).bytes then .ok () else .error (.hashMismatch cid)
  else .error (.unsupported cid)

def encodeBody (txs : List Tx) : Bytes := Lib.Rlp.encodeStrings (txs.map lib.encoded2718)

def decodeTx (b : Bytes) : Except IpldError Tx := do
  let (tx, s) ← okOr (lib.decode2718 b) (.malformed "transaction")
  if s.isEmpty then .ok tx else .error (.malformed "trailing tx bytes")

def decodeBody (body : Bytes) : Except IpldError (List Tx) :=
  if body.isEmpty then .ok []
  else do
    let (items, buf) ← okOr (Lib.Rlp.decodeStrings body) (.malformed "body")
    if buf.isEmpty then items.mapM (decodeTx lib) else .error (.malformed "trailing body bytes")

def pieces (txs : List Tx) : List Bytes :=
  if txs.isEmpty then [] else Lib.Chunks.chunks maxIpldBlockBytes (encodeBody lib txs)

def bundleWithAudits (header : Header) (txs : List Tx) (parent : Option Cid) (qc : Bytes) (audits : List Bytes) :
    BlockBundle :=
  let hcid := headerCid (lib.keccak256 header.encode)
  let parts := (pieces lib txs).map fun piece => (sha256Cid lib raw piece, piece)
  let envelope : Envelope := ⟨envelopeVersion, header.number, hcid, parent, parts.map (·.1), qc, audits⟩
  let bytes := lib.encodeEnvelope envelope
  let root := sha256Cid lib dagCbor bytes
  ⟨root, envelope, (hcid, header.encode) :: parts ++ [(root, bytes)]⟩

/-- The loop over the chunks. The lookup may change its state at every call. -/
def readChunks {σ : Type} (get : σ → Cid → Option Bytes × σ) : List Cid → Bytes → σ → Except IpldError Bytes
  | [], body, _ => .ok body
  | c :: cs, body, s =>
    if c.codec ≠ raw then .error (.unsupported c)
    else do
      let piece ← okOr (get s c).1 (.missing c)
      verify lib c piece
      readChunks get cs (body ++ piece) (get s c).2

def decodeBlock {σ : Type} (envelope : Envelope) (get : σ → Cid → Option Bytes × σ) (s : σ) :
    Except IpldError (DecodedBlock Tx) := do
  let hbytes ← okOr (get s envelope.header).1 (.missing envelope.header)
  verify lib envelope.header hbytes
  let (header, _) ← okOr (Header.decode hbytes) (.malformed "header")
  if header.number ≠ envelope.height then .error (.malformed "height mismatch")
  else do
    let body ← readChunks lib get envelope.chunks [] (get s envelope.header).2
    let transactions ← decodeBody lib body
    return ⟨envelope, header, transactions⟩

end

def fetch (blocks : List (Cid × Bytes)) (s : Unit) (c : Cid) : Option Bytes × Unit :=
  ((blocks.find? fun b => b.1 == c).map (·.2), s)

def IsWholeList (b : Bytes) : Prop := ∃ n rest, Lib.Rlp.decodeHeader b = some ((true, n), rest) ∧ rest.length = n

section

variable {Tx σ : Type} {lib : Libraries Tx} {envelope : Envelope} {get : σ → Cid → Option Bytes × σ} {s : σ}
  {d : DecodedBlock Tx} {cid : Cid} {data : Bytes}

variable {α : Type}

theorem bind_eq_ok {ε β : Type} {x : Except ε α} {f : α → Except ε β} {b : β} :
    x >>= f = .ok b ↔ ∃ a, x = .ok a ∧ f a = .ok b := by
  cases x with
  | error e => simp [bind, Except.bind]
  | ok a => simp [bind, Except.bind]

theorem okOr_eq_ok {o : Option α} {err : IpldError} {a : α} : okOr o err = .ok a ↔ o = some a := by
  cases o with
  | none => simp [okOr]
  | some b => simp [okOr]

theorem verify_eq_ok (h : verify lib cid data = .ok ()) : data.length ≤ maxIpldBlockBytes ∧
    (cid.codec = ethBlock → cid = headerCid (lib.keccak256 data)) := by
  rw [verify] at h
  split at h
  case isTrue => cases h
  case isFalse hsize =>
    refine ⟨by omega, fun hcodec => ?_⟩
    have hnot : ¬((cid.codec = raw ∨ cid.codec = dagCbor) ∧ cid.hash.code = sha2256Code) := by
      rw [hcodec]
      exact fun hor => absurd hor.1 (by decide)
    rw [if_neg hnot] at h
    split at h
    case isTrue hcode =>
      split at h
      case isTrue hdigest =>
        obtain ⟨version, codec, ⟨code, digest⟩, hv0⟩ := cid
        simp only at hcode hdigest hcodec
        cases version with
        | v0 => exact absurd ((hv0 rfl).symm.trans hcodec) (by decide)
        | v1 =>
          obtain ⟨rfl, rfl⟩ := hcode
          rw [hdigest]
          rfl
      case isFalse => cases h
    case isFalse => cases h

theorem verify_headerCid : verify lib (headerCid (lib.keccak256 data)) data = .ok () ↔
    data.length ≤ maxIpldBlockBytes := by
  rw [verify]
  split
  case isTrue hlt => simp [hlt]
  case isFalse hle =>
    have hdigest : (headerCid (lib.keccak256 data)).hash.digest = (lib.keccak256 data).bytes := rfl
    rw [if_pos ⟨rfl, rfl⟩, if_pos hdigest]
    simpa using hle

theorem verify_sha256Cid (h : data.length ≤ maxIpldBlockBytes) : verify lib (sha256Cid lib raw data) data = .ok () := by
  have hcodec : (sha256Cid lib raw data).codec ≠ ethBlock := (by decide : raw ≠ ethBlock)
  have hdigest : (sha256Cid lib raw data).hash.digest = (lib.sha256 data).bytes := rfl
  rw [verify, if_neg (by omega), if_neg fun heth => hcodec heth.1, if_pos ⟨.inl rfl, rfl⟩, if_pos hdigest]

theorem decodeBlock_eq_ok (h : decodeBlock lib envelope get s = .ok d) : ∃ hbytes rest,
    (get s envelope.header).1 = some hbytes ∧ verify lib envelope.header hbytes = .ok () ∧
      Header.decode hbytes = some (d.header, rest) := by
  simp only [decodeBlock, bind_eq_ok, okOr_eq_ok] at h
  obtain ⟨hbytes, hget, _, hverify, ⟨header, rest⟩, hdecode, h⟩ := h
  refine ⟨hbytes, rest, hget, hverify, ?_⟩
  split at h
  case isTrue => cases h
  case isFalse =>
    simp only [bind_eq_ok] at h
    obtain ⟨body, hbody, txs, htxs, heq⟩ := h
    cases heq
    exact hdecode

variable {header : Header}

theorem isWholeList_iff {b rest : Bytes} (h : Header.decode b = some (header, rest)) :
    IsWholeList b ↔ rest = [] := by
  obtain ⟨hb, hlt⟩ := Lib.Record.Schema.decode_eq_some h
  have hdec := (Lib.Rlp.isItem_list hlt).decode rest
  rw [hb, IsWholeList, Lib.Record.Schema.encode, Lib.Rlp.encodeStrings, hdec]
  simp

theorem decoded_header_named_iff {hbytes : Bytes} (h : decodeBlock lib envelope get s = .ok d)
    (hget : (get s envelope.header).1 = some hbytes)
    (hfree : Set.InjOn lib.keccak256 {hbytes, d.header.encode}) :
    (hashSlow lib d.header).bytes = envelope.header.hash.digest ∧
      (bundleWithAudits lib d.header d.transactions envelope.parent envelope.qc envelope.audits).envelope.header =
        envelope.header ↔ envelope.header.codec = ethBlock ∧ IsWholeList hbytes := by
  obtain ⟨hbytes', rest, hget', hverify, hdecode⟩ := decodeBlock_eq_ok h
  obtain rfl : hbytes' = hbytes := Option.some.inj (hget'.symm.trans hget)
  obtain ⟨-, hcid⟩ := verify_eq_ok hverify
  have hbytes : hbytes' = d.header.encode ++ rest := (Lib.Record.Schema.decode_eq_some hdecode).1
  rw [isWholeList_iff hdecode]
  constructor
  · rintro ⟨hdigest, hsame⟩
    have hcodec : envelope.header.codec = ethBlock := by
      rw [← hsame]
      rfl
    refine ⟨hcodec, ?_⟩
    rw [hcid hcodec] at hdigest
    have hkeccak : lib.keccak256 d.header.encode = lib.keccak256 hbytes' := FixedBytes.ext_bytes hdigest
    have heq := hfree (by simp) (by simp) hkeccak
    rw [hbytes] at heq
    simpa using heq
  · rintro ⟨hcodec, rfl⟩
    rw [List.append_nil] at hbytes
    rw [hcid hcodec, hbytes]
    exact ⟨rfl, rfl⟩

theorem mapM_decodeTx (txs : List Tx) : (txs.map lib.encoded2718).mapM (decodeTx lib) = .ok txs := by
  induction txs with
  | nil => rfl
  | cons tx txs ih =>
    have htx : decodeTx lib (lib.encoded2718 tx) = .ok tx := by
      rw [decodeTx, lib.decode2718_encoded]
      rfl
    rw [List.map_cons, List.mapM_cons, htx, ih]
    rfl

variable {txs : List Tx}

theorem decodeBody_encodeBody (h : (encodeBody lib txs).length < 2 ^ 64) :
    decodeBody lib (encodeBody lib txs) = .ok txs := by
  obtain ⟨hpos, hle⟩ := Lib.Rlp.length_item true ((txs.map lib.encoded2718).flatMap Lib.Rlp.string)
  have hdec := Lib.Rlp.decodeStrings_encodeStrings (hle.trans_lt h) []
  rw [List.append_nil] at hdec
  have hne : (encodeBody lib txs).isEmpty = false := by
    rw [List.isEmpty_eq_false_iff]
    exact List.length_pos_iff.1 hpos
  rw [decodeBody, hne, if_neg Bool.false_ne_true, encodeBody, hdec]
  exact mapM_decodeTx txs

variable {ps : List Bytes}

theorem readChunks_pieces (hsize : ∀ p ∈ ps, p.length ≤ maxIpldBlockBytes)
    (hget : ∀ p ∈ ps, ∀ s, (get s (sha256Cid lib raw p)).1 = some p) (body : Bytes) (s : σ) :
    readChunks lib get (ps.map (sha256Cid lib raw)) body s = .ok (body ++ ps.flatten) := by
  induction ps generalizing body s with
  | nil => simp [readChunks]
  | cons p ps ih =>
    have hcodec : (sha256Cid lib raw p).codec = raw := rfl
    rw [List.map_cons, readChunks, if_neg (not_not.2 hcodec), hget p List.mem_cons_self, okOr, List.flatten_cons,
      ← List.append_assoc]
    simp only [bind, Except.bind]
    rw [verify_sha256Cid (hsize p List.mem_cons_self)]
    exact ih (fun q hq => hsize q (List.mem_cons_of_mem p hq)) (fun q hq => hget q (List.mem_cons_of_mem p hq)) _ _

variable {p : Bytes}

theorem find_piece (hp : p ∈ ps) (hfree : Set.InjOn lib.sha256 {q | q ∈ ps})
    (tail : List (Cid × Bytes)) : ((ps.map (fun q => (sha256Cid lib raw q, q)) ++ tail).find?
      fun b => b.1 == sha256Cid lib raw p).map (·.2) = some p := by
  induction ps with
  | nil => cases hp
  | cons q ps ih =>
    rw [List.map_cons, List.cons_append, List.find?_cons]
    by_cases hq : sha256Cid lib raw q = sha256Cid lib raw p
    · have hhash : lib.sha256 q = lib.sha256 p := by
        have hdigest := congrArg (fun c => c.hash.digest) hq
        exact FixedBytes.ext_bytes hdigest
      have heq : q = p := hfree List.mem_cons_self hp hhash
      simp [heq]
    · have hmem : p ∈ ps := by
        refine (List.mem_cons.1 hp).resolve_left fun heq => hq ?_
        rw [heq]
      simp only [beq_eq_false_iff_ne.2 hq]
      exact ih hmem (hfree.mono fun x hx => List.mem_cons_of_mem q hx)

theorem pieces_flatten (txs : List Tx) :
    (pieces lib txs).flatten = if txs.isEmpty then [] else encodeBody lib txs := by
  rw [pieces]
  split
  · rfl
  · exact Lib.Chunks.flatten_chunks _ _

theorem length_piece (h : p ∈ pieces lib txs) : p.length ≤ maxIpldBlockBytes := by
  rw [pieces] at h
  split at h
  · cases h
  · exact Lib.Chunks.length_le_of_mem_chunks (by decide) h

theorem decodeBody_pieces (h : (encodeBody lib txs).length < 2 ^ 64) :
    decodeBody lib (pieces lib txs).flatten = .ok txs := by
  rw [pieces_flatten]
  cases txs with
  | nil => rfl
  | cons tx txs => exact decodeBody_encodeBody h

theorem Header.decode_encode (h : header.encode.length ≤ maxIpldBlockBytes) :
    Header.decode header.encode = some (header, []) := by
  have hle := (Lib.Rlp.length_item true ((Header.schema.write header).flatMap Lib.Rlp.string)).2
  have hlt : ((Header.schema.write header).flatMap Lib.Rlp.string).length < 2 ^ 64 :=
    (hle.trans h).trans_lt (by decide)
  have hdec := Lib.Record.Schema.decode_encode hlt []
  rwa [List.append_nil] at hdec

/-- A block is read back from its bundle exactly when its header is not too long for a block of IPFS. -/
theorem decode_bundle_iff {parent : Option Cid} {qc : Bytes} {audits : List Bytes}
    (hlen : (encodeBody lib txs).length < 2 ^ 64) (hfree : Set.InjOn lib.sha256 {p | p ∈ pieces lib txs}) :
    decodeBlock lib (bundleWithAudits lib header txs parent qc audits).envelope
      (fetch (bundleWithAudits lib header txs parent qc audits).blocks) () =
        .ok ⟨(bundleWithAudits lib header txs parent qc audits).envelope, header, txs⟩ ↔
      header.encode.length ≤ maxIpldBlockBytes := by
  have hheader : (fetch (bundleWithAudits lib header txs parent qc audits).blocks ()
      (headerCid (lib.keccak256 header.encode))).1 = some header.encode := by
    simp [fetch, bundleWithAudits]
  have hpiece : ∀ p ∈ pieces lib txs, ∀ s, (fetch (bundleWithAudits lib header txs parent qc audits).blocks s
      (sha256Cid lib raw p)).1 = some p := by
    intro p hp s
    have hne : (headerCid (lib.keccak256 header.encode) == sha256Cid lib raw p) = false := by
      refine beq_eq_false_iff_ne.2 fun heq => ?_
      exact absurd (congrArg Cid.codec heq) (by decide : ethBlock ≠ raw)
    simp only [fetch, bundleWithAudits, List.cons_append, List.find?_cons, hne]
    exact find_piece hp hfree _
  have hchunks : (bundleWithAudits lib header txs parent qc audits).envelope.chunks =
      (pieces lib txs).map (sha256Cid lib raw) := by
    simp [bundleWithAudits, Function.comp_def]
  constructor
  · intro hok
    obtain ⟨hbytes, rest, hget, hverify, -⟩ := decodeBlock_eq_ok hok
    obtain rfl := Option.some.inj (hheader.symm.trans hget)
    exact (verify_eq_ok hverify).1
  · intro hle
    have hnumber : (bundleWithAudits lib header txs parent qc audits).envelope.height = header.number := rfl
    have hcid : (bundleWithAudits lib header txs parent qc audits).envelope.header =
        headerCid (lib.keccak256 header.encode) := rfl
    rw [decodeBlock, hcid, hheader, hchunks, hnumber, okOr]
    simp only [bind, Except.bind]
    rw [verify_headerCid.2 hle, Header.decode_encode hle, okOr]
    simp only [ne_eq, not_true_eq_false, if_false]
    rw [readChunks_pieces (fun p hp => length_piece hp) hpiece, List.nil_append]
    simp only
    rw [decodeBody_pieces hlen]
    rfl

/-- Blocks decode to what their CID names exactly where the CID is one of a header with nothing after it; and
every block is read back from its bundle, whatever the size of its body, exactly where its header fits in a block
of IPFS. -/
theorem decoded_blocks_are_named_iff (lib : Libraries Tx) :
    (∀ (envelope : Envelope) (get : σ → Cid → Option Bytes × σ) (s : σ) (d : DecodedBlock Tx) (hbytes : Bytes),
      decodeBlock lib envelope get s = .ok d → (get s envelope.header).1 = some hbytes →
      Set.InjOn lib.keccak256 {hbytes, d.header.encode} →
      ((hashSlow lib d.header).bytes = envelope.header.hash.digest ∧
        (bundleWithAudits lib d.header d.transactions envelope.parent envelope.qc envelope.audits).envelope.header =
          envelope.header ↔ envelope.header.codec = ethBlock ∧ IsWholeList hbytes)) ∧
    (∀ (header : Header) (txs : List Tx) (parent : Option Cid) (qc : Bytes) (audits : List Bytes),
      (encodeBody lib txs).length < 2 ^ 64 → Set.InjOn lib.sha256 {p | p ∈ pieces lib txs} →
      (decodeBlock lib (bundleWithAudits lib header txs parent qc audits).envelope
        (fetch (bundleWithAudits lib header txs parent qc audits).blocks) () =
          .ok ⟨(bundleWithAudits lib header txs parent qc audits).envelope, header, txs⟩ ↔
        header.encode.length ≤ maxIpldBlockBytes)) :=
  ⟨fun _ _ _ _ _ h hget hfree => decoded_header_named_iff h hget hfree,
    fun _ _ _ _ _ hlen hfree => decode_bundle_iff hlen hfree⟩

end

def sumHash (b : Bytes) : B256 :=
  let digits := Lib.Rlp.toBe (b.foldl (fun acc x => (acc * 257 + x.toNat + 1) % 2 ^ 200) b.length)
  ⟨(digits ++ List.replicate 32 0).take 32, by simp⟩

def byteLibraries : Libraries UInt8 where
  keccak256 := sumHash
  sha256 := sumHash
  encoded2718 tx := [tx]
  decode2718
    | [] => none
    | tx :: rest => some (tx, rest)
  decode2718_encoded _ := rfl
  encodeEnvelope _ := []

def zeroBytes (n : Nat) : FixedBytes n := ⟨List.replicate n 0, by simp⟩

theorem u64_pos : 0 < 256 ^ 8 := by decide

theorem u256_pos : 0 < 256 ^ 32 := by decide

def zeroHeader : Header :=
  ⟨zeroBytes 32, zeroBytes 32, zeroBytes 20, zeroBytes 32, zeroBytes 32, zeroBytes 32, zeroBytes 256, ⟨0, u256_pos⟩,
    ⟨0, u64_pos⟩, ⟨0, u64_pos⟩, ⟨0, u64_pos⟩, ⟨0, u64_pos⟩, [], zeroBytes 32, zeroBytes 8, none⟩

def zeroBundle : BlockBundle := bundleWithAudits byteLibraries zeroHeader [7] none [] []

theorem decoded_blocks_are_named_iff_zero :
    (hashSlow byteLibraries zeroHeader).bytes = zeroBundle.envelope.header.hash.digest ∧
      decodeBlock byteLibraries zeroBundle.envelope (fetch zeroBundle.blocks) () =
        .ok ⟨zeroBundle.envelope, zeroHeader, [7]⟩ := by
  have hfree : Set.InjOn sumHash {p | p ∈ pieces byteLibraries [7]} := by
    have hone : pieces byteLibraries [7] = [encodeBody byteLibraries [7]] := by decide +kernel
    rw [hone]
    intro p hp q hq _
    rw [List.mem_singleton.1 hp, List.mem_singleton.1 hq]
  have hread := ((decoded_blocks_are_named_iff (σ := Unit) byteLibraries).2 zeroHeader [7] none [] []
    (by decide +kernel) hfree).2 (by decide +kernel)
  have hwhole : IsWholeList zeroHeader.encode := (isWholeList_iff (Header.decode_encode (by decide +kernel))).2 rfl
  refine ⟨?_, hread⟩
  exact (((decoded_blocks_are_named_iff byteLibraries).1 zeroBundle.envelope (fetch zeroBundle.blocks) () _
    zeroHeader.encode hread (by decide +kernel) (by simp)).2 ⟨rfl, hwhole⟩).1

/-- The envelope of a block whose header is followed by one more byte. -/
def paddedEnvelope : Envelope :=
  ⟨envelopeVersion, ⟨0, u64_pos⟩, headerCid (sumHash (zeroHeader.encode ++ [0])), none, [], [], []⟩

/-- A block is decoded whose header does not have the hash that its CID names. -/
theorem padded_header_is_decoded : ∃ d, decodeBlock byteLibraries paddedEnvelope
    (fun (s : Unit) _ => (some (zeroHeader.encode ++ [0]), s)) () = .ok d ∧
      (hashSlow byteLibraries d.header).bytes ≠ paddedEnvelope.header.hash.digest := by
  have hrun : (decodeBlock byteLibraries paddedEnvelope (fun (s : Unit) _ => (some (zeroHeader.encode ++ [0]), s))
      ()).toOption.any (fun d => (hashSlow byteLibraries d.header).bytes ≠ paddedEnvelope.header.hash.digest) := by
    decide +kernel
  cases hd : decodeBlock byteLibraries paddedEnvelope (fun (s : Unit) _ => (some (zeroHeader.encode ++ [0]), s)) () with
  | error e =>
    rw [hd] at hrun
    cases hrun
  | ok d =>
    rw [hd] at hrun
    exact ⟨d, rfl, by simpa [Except.toOption] using hrun⟩

end Boltchain.Ipld
