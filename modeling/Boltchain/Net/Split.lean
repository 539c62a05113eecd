import Mathlib

namespace Boltchain.Net.Bitswap

abbrev Bytes := List UInt8

def MAX_MESSAGE : Nat := 4 * 2 ^ 20

structure Entry where
  block : Bytes
  cancel : Bool
  wantType : Nat
  sendDontHave : Bool

/-- A block with its CID prefix (version, codec, multihash code, digest length). -/
structure Block where
  cidPrefix : Bytes
  data : Bytes

structure BlockPresence where
  cid : Bytes
  type : Nat

structure Message where
  payload : List Block
  blockPresences : List BlockPresence

/-- How a node reads CIDs and what its blockstore holds: blocks of at most 1 MiB. The four varints of a prefix have at
most 23 bytes. -/
structure Store where
  Cid : Type
  tryFrom : Bytes → Option Cid
  cidPrefix : Cid → Bytes
  source : Cid → Option Bytes
  length_prefix : ∀ c, (cidPrefix c).length ≤ 23
  length_source : ∀ c data, source c = some data → data.length ≤ 2 ^ 20

section Reply

variable (S : Store)

def answer (reply : Message) (e : Entry) : Message :=
  match S.tryFrom e.block with
  | none => reply
  | some cid =>
    match S.source cid with
    | some data =>
      if e.wantType = 0 then { reply with payload := reply.payload ++ [⟨S.cidPrefix cid, data⟩] }
      else if e.wantType = 1 then { reply with blockPresences := reply.blockPresences ++ [⟨e.block, 0⟩] }
      else reply
    | none => if e.sendDontHave then { reply with blockPresences := reply.blockPresences ++ [⟨e.block, 1⟩] } else reply

def reply (entries : List Entry) : Message := (entries.filter fun e => !e.cancel).foldl (answer S) ⟨[], []⟩

end Reply

def Block.counted (b : Block) : Nat := b.data.length + b.cidPrefix.length + 16

def countedSize (bs : List Block) : Nat := (bs.map Block.counted).sum

/-- The loop over the blocks: parts that are done, the current part and its counted size. -/
def splitLoop (limit : Nat) : List Block → List Message → Message → Nat → List Message
  | [], parts, cur, _ => parts ++ [cur]
  | b :: bs, parts, cur, size =>
    if limit < size + b.counted ∧ cur.payload ≠ [] then splitLoop limit bs (parts ++ [cur]) ⟨[b], []⟩ b.counted
    else splitLoop limit bs parts { cur with payload := cur.payload ++ [b] } (size + b.counted)

def split (msg : Message) : List Message := splitLoop (MAX_MESSAGE - 1024) msg.payload [] ⟨[], msg.blockPresences⟩ 0

section Encoding

def varintLen (n : Nat) : Nat := if n < 128 then 1 else varintLen (n / 128) + 1
decreasing_by omega

def bytesField (b : Bytes) : Nat := if b.length = 0 then 0 else 1 + varintLen b.length + b.length

def messageField (n : Nat) : Nat := 1 + varintLen n + n

def Block.encodedLen (b : Block) : Nat := messageField (bytesField b.cidPrefix + bytesField b.data)

def BlockPresence.encodedLen (p : BlockPresence) : Nat :=
  messageField (bytesField p.cid + if p.type = 0 then 0 else 1 + varintLen p.type)

def payloadLen (bs : List Block) : Nat := (bs.map Block.encodedLen).sum

def presencesLen (ps : List BlockPresence) : Nat := (ps.map BlockPresence.encodedLen).sum

def Message.encodedLen (m : Message) : Nat := payloadLen m.payload + presencesLen m.blockPresences

theorem varintLen_le {n : Nat} (h : n < 2 ^ 21) : varintLen n ≤ 3 := by
  unfold varintLen
  split
  · omega
  unfold varintLen
  split
  · omega
  unfold varintLen
  rw [if_pos (by omega)]

theorem encodedLen_le_counted {b : Block} (hp : b.cidPrefix.length ≤ 23) (hd : b.data.length ≤ 2 ^ 20) :
    b.encodedLen ≤ b.counted := by
  have hbytes : ∀ l : Bytes, l.length ≤ 2 ^ 20 → bytesField l ≤ 4 + l.length := by
    intro l hl
    have := varintLen_le (n := l.length) (by omega)
    unfold bytesField
    split <;> omega
  have hprefix := hbytes b.cidPrefix (by omega)
  have hdata := hbytes b.data hd
  have hlen := varintLen_le (n := bytesField b.cidPrefix + bytesField b.data) (by omega)
  unfold Block.encodedLen Block.counted messageField
  omega

end Encoding

section Parts

variable (limit : Nat)

/-- The blocks of a part: one, or as many as are counted within the limit. -/
def Fits (limit : Nat) (bs : List Block) : Prop := bs.length ≤ 1 ∨ countedSize bs ≤ limit

theorem countedSize_append (bs cs : List Block) : countedSize (bs ++ cs) = countedSize bs + countedSize cs := by
  simp [countedSize]

/-- The loop puts the first blocks that fit, and no fewer, into the current part, and the others into parts without
presences. -/
theorem splitLoop_spec (bs : List Block) (parts : List Message) (cur : Message) (size : Nat) (hsize : size = countedSize cur.payload)
    (hfits : Fits limit cur.payload) : ∃ k rest, splitLoop limit bs parts cur size = parts ++ ⟨cur.payload ++ bs.take k, cur.blockPresences⟩ :: rest ∧
      Fits limit (cur.payload ++ bs.take k) ∧ (∀ m ∈ rest, m.blockPresences = [] ∧ Fits limit m.payload) ∧
      rest.flatMap Message.payload = bs.drop k ∧
      (∀ j, Fits limit (cur.payload ++ bs.take j) → bs.take j = (bs.take k).take j) := by
  induction bs generalizing parts cur size with
  | nil => exact ⟨0, [], by simp [splitLoop], by simpa using hfits, nofun, rfl, fun j _ => by simp⟩
  | cons b bs ih =>
    rw [splitLoop]
    split
    case isTrue hcut =>
      obtain ⟨k, rest, heq, hfirst, hrest, hblocks, -⟩ := ih (parts ++ [cur]) ⟨[b], []⟩ b.counted
        (by simp [countedSize]) (.inl le_rfl)
      refine ⟨0, ⟨[b] ++ bs.take k, []⟩ :: rest, by simpa using heq, by simpa using hfits, ?_, ?_, fun j hj => ?_⟩
      · rintro m (_ | ⟨_, hm⟩)
        · exact ⟨rfl, hfirst⟩
        · exact hrest m hm
      · simp [hblocks]
      · -- with one more block the current part is over the limit
        cases j with
        | zero => rfl
        | succ j =>
          have hpos := List.length_pos_iff.2 hcut.2
          obtain hone | hmax := hj
          · simp at hone
            omega
          · rw [List.take_succ_cons, countedSize_append, ← hsize] at hmax
            simp [countedSize] at hmax
            omega
    case isFalse hcut =>
      have hfits' : Fits limit (cur.payload ++ [b]) := by
        rw [not_and_or, not_lt, not_not] at hcut
        obtain hle | hnil := hcut
        · right
          rw [countedSize_append, ← hsize]
          simpa [countedSize] using hle
        · left
          simp [hnil]
      obtain ⟨k, rest, heq, hfirst, hrest, hblocks, hmax⟩ := ih parts { cur with payload := cur.payload ++ [b] }
        (size + b.counted) (by rw [countedSize_append, ← hsize]; simp [countedSize]) hfits'
      refine ⟨k + 1, rest, by simpa using heq, by simpa using hfirst, hrest, by simpa using hblocks, fun j hj => ?_⟩
      cases j with
      | zero => rfl
      | succ j =>
        rw [List.take_succ_cons, List.take_succ_cons, List.take_succ_cons, hmax j (by simpa using hj)]

end Parts

section Limit

def Small (bs : List Block) : Prop := ∀ b ∈ bs, b.cidPrefix.length ≤ 23 ∧ b.data.length ≤ 2 ^ 20

theorem small_reply (S : Store) (entries : List Entry) : Small (reply S entries).payload := by
  unfold reply
  generalize entries.filter (fun e => !e.cancel) = es
  induction es using List.reverseRecOn with
  | nil => nofun
  | append_singleton es e ih =>
    rw [List.foldl_append, List.foldl_cons, List.foldl_nil]
    generalize es.foldl (answer S) ⟨[], []⟩ = r at ih
    unfold answer
    split
    · exact ih
    split
    case h_2 => split <;> exact ih
    case h_1 cid data hdata =>
      split_ifs
      · rintro b hb
        obtain hb | hb := List.mem_append.1 hb
        · exact ih b hb
        · obtain rfl := List.mem_singleton.1 hb
          exact ⟨S.length_prefix _, S.length_source _ _ hdata⟩
      · exact ih
      · exact ih

variable {bs : List Block}

theorem payloadLen_le (h : Small bs) : payloadLen bs ≤ countedSize bs :=
  List.sum_le_sum fun b hb => encodedLen_le_counted (h b hb).1 (h b hb).2

theorem payloadLen_of_fits (h : Small bs) (hfits : Fits (MAX_MESSAGE - 1024) bs) : payloadLen bs ≤ MAX_MESSAGE := by
  have hle := payloadLen_le h
  unfold MAX_MESSAGE at hfits ⊢
  obtain hone | hmax := hfits
  · match bs with
    | [] => exact Nat.zero_le _
    | [b] =>
      have hb := h b List.mem_cons_self
      simp [countedSize, Block.counted] at hle
      omega
  · omega

theorem payloadLen_take_le (bs : List Block) (j : Nat) : payloadLen (bs.take j) ≤ payloadLen bs :=
  List.Sublist.sum_le_sum ((List.take_sublist j bs).map _) fun _ _ => Nat.zero_le _

/-- The parts of a reply carry its blocks and presences in order, each once. They are within the limit exactly when the
presences fit in one message with whatever blocks share the first part. -/
theorem parts_within_limit_iff (S : Store) (entries : List Entry) :
    let r := reply S entries
    ((∀ m ∈ split r, m.encodedLen ≤ MAX_MESSAGE) ∧ (split r).flatMap Message.payload = r.payload ∧
        (split r).flatMap Message.blockPresences = r.blockPresences) ↔
      ∀ j, Fits (MAX_MESSAGE - 1024) (r.payload.take j) →
        payloadLen (r.payload.take j) + presencesLen r.blockPresences ≤ MAX_MESSAGE := by
  intro r
  have hsmall := small_reply S entries
  obtain ⟨k, rest, heq, hfirst, hrest, hblocks, hmax⟩ := splitLoop_spec (MAX_MESSAGE - 1024) r.payload []
    ⟨[], r.blockPresences⟩ 0 rfl (.inl (Nat.zero_le _))
  rw [List.nil_append] at hfirst
  have hsplit : split r = ⟨r.payload.take k, r.blockPresences⟩ :: rest := heq
  have hsub : ∀ m ∈ rest, Small m.payload := by
    intro m hm b hb
    have hmem : b ∈ rest.flatMap Message.payload := List.mem_flatMap.2 ⟨m, hm, hb⟩
    rw [hblocks] at hmem
    exact hsmall b (List.mem_of_mem_drop hmem)
  have hothers : ∀ m ∈ rest, m.encodedLen ≤ MAX_MESSAGE := by
    intro m hm
    rw [Message.encodedLen, (hrest m hm).1]
    exact payloadLen_of_fits (hsub m hm) (hrest m hm).2
  have hcarry : (split r).flatMap Message.payload = r.payload ∧ (split r).flatMap Message.blockPresences = r.blockPresences := by
    have hnone : rest.flatMap Message.blockPresences = [] := List.flatMap_eq_nil_iff.2 fun m hm => (hrest m hm).1
    rw [hsplit, List.flatMap_cons, List.flatMap_cons, hblocks, hnone, List.take_append_drop, List.append_nil]
    exact ⟨rfl, rfl⟩
  rw [and_iff_left hcarry, hsplit, List.forall_mem_cons, and_iff_left hothers]
  constructor
  · intro hle j hj
    rw [hmax j (by simpa using hj)]
    exact (Nat.add_le_add_right (payloadLen_take_le _ j) _).trans hle
  · exact fun h => h k hfirst

def oneBlock (data : Bytes) (h : data.length ≤ 2 ^ 20) : Store where
  Cid := Bool
  tryFrom b := some (b.head? = some 1)
  cidPrefix _ := [1, 0x55, 0x12, 32]
  source c := if c then some data else none
  length_prefix _ := by decide
  length_source c data' hdata := by
    split at hdata
    · cases hdata
      exact h
    · cases hdata

/-- Three wants of the block, and `n` of a block that the node does not have. -/
def wants (n : Nat) : List Entry := List.replicate 3 ⟨[1], false, 0, true⟩ ++ List.replicate n ⟨[0], false, 0, true⟩

variable {data : Bytes} {h : data.length ≤ 2 ^ 20}

theorem reply_wants (n : Nat) : reply (oneBlock data h) (wants n) =
    ⟨[⟨[1, 0x55, 0x12, 32], data⟩, ⟨[1, 0x55, 0x12, 32], data⟩, ⟨[1, 0x55, 0x12, 32], data⟩], List.replicate n ⟨[0], 1⟩⟩ := by
  have hwants : (wants n).filter (fun e => !e.cancel) = wants n := by
    refine List.filter_eq_self.2 fun e he => ?_
    simp only [wants, List.mem_append, List.mem_replicate] at he
    obtain ⟨-, rfl⟩ | ⟨-, rfl⟩ := he <;> rfl
  rw [reply, hwants]
  clear hwants
  induction n with
  | zero => rfl
  | succ n ih =>
    have hsucc : wants (n + 1) = wants n ++ [⟨[0], false, 0, true⟩] := by
      rw [wants, wants, List.append_assoc, ← List.replicate_succ']
    rw [hsucc, List.foldl_append, ih, List.replicate_succ']
    rfl

theorem le_bytesField (b : Bytes) : b.length ≤ bytesField b := by
  unfold bytesField
  split <;> omega

theorem presences_exceed_limit : ∃ S entries, ∃ m ∈ split (reply S entries), MAX_MESSAGE < m.encodedLen := by
  obtain ⟨data, hdata⟩ : ∃ data : Bytes, data.length = 2 ^ 20 := ⟨List.replicate _ 0, List.length_replicate⟩
  obtain ⟨b, hb⟩ : ∃ b : Block, b = ⟨[1, 0x55, 0x12, 32], data⟩ := ⟨_, rfl⟩
  have hcounted : b.counted = 1048596 := by
    rw [hb, Block.counted, hdata]
    norm_num
  have hlen : 2 ^ 20 ≤ b.encodedLen := by
    have := le_bytesField b.data
    rw [hb, hdata] at this
    unfold Block.encodedLen messageField
    rw [hb]
    omega
  have hpresence : 1 ≤ BlockPresence.encodedLen ⟨[0], 1⟩ := by
    unfold BlockPresence.encodedLen messageField
    omega
  refine ⟨oneBlock data hdata.le, wants (2 ^ 21), ⟨[b, b, b], List.replicate (2 ^ 21) ⟨[0], 1⟩⟩, ?_, ?_⟩
  · rw [reply_wants (2 ^ 21), ← hb, split, splitLoop, if_neg fun h => h.2 rfl, splitLoop,
      if_neg (by rw [hcounted]; norm_num [MAX_MESSAGE]), splitLoop, if_neg (by rw [hcounted]; norm_num [MAX_MESSAGE]),
      splitLoop]
    exact List.mem_singleton_self _
  · have hpresences : 2 ^ 21 ≤ presencesLen (List.replicate (2 ^ 21) ⟨[0], 1⟩) := by
      rw [presencesLen, List.map_replicate, List.sum_replicate, smul_eq_mul]
      exact Nat.le_mul_of_pos_right _ hpresence
    have hpayload : payloadLen [b, b, b] = b.encodedLen + (b.encodedLen + (b.encodedLen + 0)) := rfl
    rw [Message.encodedLen, hpayload, MAX_MESSAGE]
    dsimp only
    omega

end Limit

end Boltchain.Net.Bitswap
