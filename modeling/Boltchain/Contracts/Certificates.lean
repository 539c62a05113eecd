import Boltchain.Lib.HashTree
import Boltchain.Lib.Rlp

namespace Boltchain.Contracts.Certificates

open Lib.HashTree

abbrev Bytes := List UInt8

structure Word where
  bytes : Bytes
  length_eq : bytes.length = 32
  deriving DecidableEq

/-- `abi.encode` of values of static types: their words one after the other. -/
def abiEncode (words : List Word) : Bytes := words.flatMap Word.bytes

def bytes1 (b : UInt8) : Word := ⟨b :: List.replicate 31 0, by simp⟩

def uint64 (x : UInt64) : Word where
  bytes := List.replicate (32 - (Lib.Rlp.toBe x.toNat).length) 0 ++ Lib.Rlp.toBe x.toNat
  length_eq := by
    have hle := Lib.Rlp.length_toBe_le x.toNat_lt
    rw [List.length_append, List.length_replicate]
    omega

/-- A file of a certificate: its keccak-256, its sha-256 and its size. -/
structure File where
  k : Word
  s : Word
  size : UInt64
  deriving DecidableEq

def maxFiles : Nat := 256

/-- The array that `rootOf` works in, and the byte strings hashed so far. -/
structure Memory where
  layer : List Word
  hashed : List Bytes

section

variable (keccak256 : Bytes → Word)

def leafOf (k s : Word) (size : UInt64) : Word :=
  keccak256 (abiEncode [bytes1 0x00, keccak256 (abiEncode [k, s, uint64 size])])

def leafInputs (k s : Word) (size : UInt64) : List Bytes :=
  [abiEncode [k, s, uint64 size], abiEncode [bytes1 0x00, keccak256 (abiEncode [k, s, uint64 size])]]

def nodeOf (left right : Word) : Word := keccak256 (abiEncode [bytes1 0x01, left, right])

/-- The loop over the files, with `count` of them to go from `i` on. -/
def fillLayer (k s : List Word) (sizes : List UInt64) : Nat → Nat → Memory → Option Memory
  | 0, _, mem => some mem
  | count + 1, i, mem => do
    let ki ← k[i]?
    let si ← s[i]?
    let size ← sizes[i]?
    fillLayer k s sizes count (i + 1)
      ⟨mem.layer.set i (leafOf keccak256 ki si size), mem.hashed ++ leafInputs keccak256 ki si size⟩

/-- The loop over a layer of `n` nodes, in place, with `count` nodes of the next one to go from `i` on. -/
def pairLayer (n : Nat) : Nat → Nat → Memory → Option Memory
  | 0, _, mem => some mem
  | count + 1, i, mem => do
    let left ← mem.layer[2 * i]?
    if 2 * i + 1 < n then
      let right ← mem.layer[2 * i + 1]?
      pairLayer n count (i + 1)
        ⟨mem.layer.set i (nodeOf keccak256 left right), mem.hashed ++ [abiEncode [bytes1 0x01, left, right]]⟩
    else pairLayer n count (i + 1) ⟨mem.layer.set i left, mem.hashed⟩

def climb (n : Nat) (mem : Memory) : Option Memory :=
  if 1 < n then (pairLayer keccak256 n ((n + 1) / 2) 0 mem).bind (climb ((n + 1) / 2)) else some mem
termination_by n
decreasing_by omega

/-- `rootOf` with what it hashes; it reverts with `BadFiles` where the lists do not fit. -/
def runRoot (k s : List Word) (sizes : List UInt64) : Option (Word × List Bytes) :=
  if k.length = 0 ∨ maxFiles < k.length ∨ s.length ≠ k.length ∨ sizes.length ≠ k.length then none
  else do
    let zero : Word := ⟨List.replicate 32 0, by simp⟩
    let mem ← fillLayer keccak256 k s sizes k.length 0 ⟨List.replicate k.length zero, []⟩
    let mem ← climb keccak256 k.length mem
    let root ← mem.layer[0]?
    return (root, mem.hashed)

def rootOf (k s : List Word) (sizes : List UInt64) : Option Word := (runRoot keccak256 k s sizes).map (·.1)

end

@[simp]
theorem length_abiEncode (words : List Word) : (abiEncode words).length = 32 * words.length := by
  induction words with
  | nil => rfl
  | cons w words ih =>
    rw [abiEncode, List.flatMap_cons, List.length_append, w.length_eq, List.length_cons, Nat.mul_succ, Nat.add_comm]
    exact congrArg (· + 32) ih

theorem Word.ext_bytes {w w' : Word} (h : w.bytes = w'.bytes) : w = w' := by
  cases w
  cases w'
  cases h
  rfl

theorem abiEncode_injective {ws ws' : List Word} (h : abiEncode ws = abiEncode ws') : ws = ws' := by
  induction ws generalizing ws' with
  | nil =>
    have hlen := congrArg List.length h
    rw [length_abiEncode, length_abiEncode] at hlen
    exact (List.length_eq_zero_iff.1 (by simpa using hlen.symm)).symm
  | cons w ws ih =>
    cases ws' with
    | nil =>
      have hlen := congrArg List.length h
      simp at hlen
    | cons w' ws' =>
      obtain ⟨hw, hws⟩ := List.append_inj h (w.length_eq.trans w'.length_eq.symm)
      rw [Word.ext_bytes hw, ih hws]

theorem ofBe_padded (n : Nat) (bs : Bytes) : Lib.Rlp.ofBe (List.replicate n 0 ++ bs) = Lib.Rlp.ofBe bs := by
  rw [Lib.Rlp.ofBe, Lib.Rlp.ofBe, List.reverse_append, List.map_append, List.reverse_replicate, List.map_replicate]
  exact Nat.ofDigits_append_replicate_zero _

theorem uint64_injective {x y : UInt64} (h : uint64 x = uint64 y) : x = y := by
  have hbytes := congrArg (fun w => Lib.Rlp.ofBe (Word.bytes w)) h
  simp only [uint64, ofBe_padded, Lib.Rlp.ofBe_toBe] at hbytes
  exact UInt64.toNat_inj.1 hbytes

section

variable {keccak256 : Bytes → Word} {k s : List Word} {sizes : List UInt64} {mem : Memory} {n : Nat}
  {ts : List (BinTree File)}

def hashOf (keccak256 : Bytes → Word) : BinTree File → Word :=
  BinTree.value (fun f => leafOf keccak256 f.k f.s f.size) (nodeOf keccak256)

def Logged (keccak256 : Bytes → Word) (log : List Bytes) : BinTree File → Prop
  | .leaf f => ∀ b ∈ leafInputs keccak256 f.k f.s f.size, b ∈ log
  | .node l r => abiEncode [bytes1 0x01, hashOf keccak256 l, hashOf keccak256 r] ∈ log ∧
      Logged keccak256 log l ∧ Logged keccak256 log r

variable {log : List Bytes} {t : BinTree File}

theorem Logged.mono {log' : List Bytes} (hsub : ∀ b ∈ log, b ∈ log')
    (h : Logged keccak256 log t) : Logged keccak256 log' t := by
  induction t with
  | leaf f => exact fun b hb => hsub b (h b hb)
  | node l r ihl ihr => exact ⟨hsub _ h.1, ihl h.2.1, ihr h.2.2⟩

/-- The first `n` entries of the layer are the values of `ts`. -/
structure Holds (keccak256 : Bytes → Word) (mem : Memory) (n : Nat) (ts : List (BinTree File)) : Prop where
  length : ts.length = n
  layer : ∀ j < n, mem.layer[j]? = (ts[j]?).map (hashOf keccak256)
  logged : ∀ t ∈ ts, Logged keccak256 mem.hashed t

theorem Holds.bound (h : Holds keccak256 mem n ts) : n ≤ mem.layer.length := by
  by_contra hlt
  have hnone := h.layer mem.layer.length (by omega)
  rw [List.getElem?_eq_none (Nat.le_refl _), List.getElem?_eq_getElem (by rw [h.length]; omega)] at hnone
  cases hnone

def filesOf (k s : List Word) (sizes : List UInt64) : List File :=
  (k.zip (s.zip sizes)).map fun x => ⟨x.1, x.2.1, x.2.2⟩

theorem length_filesOf (hs : s.length = k.length) (hz : sizes.length = k.length) :
    (filesOf k s sizes).length = k.length := by
  simp [filesOf, hs, hz]

theorem zip_inj {α β : Type} {l l' : List α} {m m' : List β} (hlen : l.length = m.length)
    (hlen' : l'.length = m'.length) (h : l.zip m = l'.zip m') : l = l' ∧ m = m' := by
  constructor
  · have hfst := congrArg (List.map Prod.fst) h
    rwa [List.map_fst_zip hlen.le, List.map_fst_zip hlen'.le] at hfst
  · have hsnd := congrArg (List.map Prod.snd) h
    rwa [List.map_snd_zip hlen.ge, List.map_snd_zip hlen'.ge] at hsnd

theorem filesOf_injective {k' s' : List Word} {sizes' : List UInt64} (hs : s.length = k.length)
    (hz : sizes.length = k.length) (hs' : s'.length = k'.length) (hz' : sizes'.length = k'.length)
    (h : filesOf k s sizes = filesOf k' s' sizes') : k = k' ∧ s = s' ∧ sizes = sizes' := by
  have hinj : Function.Injective fun x : Word × Word × UInt64 => File.mk x.1 x.2.1 x.2.2 := by
    rintro ⟨a, b, c⟩ ⟨a', b', c'⟩ h
    cases h
    rfl
  have hzip := List.map_injective_iff.2 hinj h
  obtain ⟨hk, hrest⟩ := zip_inj (by simp [hs, hz]) (by simp [hs', hz']) hzip
  exact ⟨hk, zip_inj (hs.trans hz.symm) (hs'.trans hz'.symm) hrest⟩

variable {i : Nat}

/-- The loop over the files makes their leaves. -/
theorem fillLayer_holds {count : Nat} (hs : s.length = k.length) (hz : sizes.length = k.length)
    (hcount : i + count = k.length) (hlength : mem.layer.length = k.length)
    (hlayer : ∀ j < i, mem.layer[j]? = ((filesOf k s sizes)[j]?).map fun f => leafOf keccak256 f.k f.s f.size)
    (hlogged : ∀ j < i, ∀ f, (filesOf k s sizes)[j]? = some f → Logged keccak256 mem.hashed (.leaf f)) :
    ∃ mem', fillLayer keccak256 k s sizes count i mem = some mem' ∧
      Holds keccak256 mem' k.length ((filesOf k s sizes).map .leaf) := by
  induction count generalizing i mem with
  | zero =>
    obtain rfl : i = k.length := by omega
    refine ⟨mem, rfl, by rw [List.length_map, length_filesOf hs hz], fun j hj => ?_, fun t ht => ?_⟩
    · rw [hlayer j hj, List.getElem?_map, Option.map_map]
      rfl
    · obtain ⟨f, hf, rfl⟩ := List.mem_map.1 ht
      obtain ⟨j, hj, rfl⟩ := List.mem_iff_getElem.1 hf
      exact hlogged j (length_filesOf hs hz ▸ hj) _ (List.getElem?_eq_getElem hj)
  | succ count ih =>
    have hk : k[i]? = some k[i] := List.getElem?_eq_getElem (by omega)
    have hsi : s[i]? = some s[i] := List.getElem?_eq_getElem (by omega)
    have hzi : sizes[i]? = some sizes[i] := List.getElem?_eq_getElem (by omega)
    have hfile : (filesOf k s sizes)[i]? = some ⟨k[i], s[i], sizes[i]⟩ := by
      rw [filesOf, List.getElem?_map, List.getElem?_eq_getElem (by simp; omega)]
      simp
    simp only [fillLayer, hk, hsi, hzi, Option.bind_eq_bind, Option.bind_some]
    refine ih (by omega) (by simpa using hlength) (fun j hj => ?_) fun j hj f hf => ?_
    · rw [List.getElem?_set]
      by_cases hji : i = j
      · subst hji
        rw [if_pos rfl, if_pos (by omega), hfile]
        rfl
      · rw [if_neg hji, hlayer j (by omega)]
    · by_cases hji : i = j
      · subst hji
        rw [hfile] at hf
        cases hf
        exact fun b hb => List.mem_append_right _ hb
      · exact (hlogged j (by omega) f hf).mono fun b hb => List.mem_append_left _ hb

/-- In the loop over a layer the entries below `i` are done and those from `i` on are still the old ones. -/
structure Paired (keccak256 : Bytes → Word) (mem : Memory) (n i : Nat) (ts : List (BinTree File)) : Prop where
  bound : n ≤ mem.layer.length
  done : ∀ j < i, mem.layer[j]? = ((pairs .node ts)[j]?).map (hashOf keccak256)
  rest : ∀ j < n, i ≤ j → mem.layer[j]? = (ts[j]?).map (hashOf keccak256)
  logged : ∀ t ∈ ts, Logged keccak256 mem.hashed t
  paired : ∀ j < i, ∀ t, (pairs .node ts)[j]? = some t → Logged keccak256 mem.hashed t

theorem Paired.write (h : Paired keccak256 mem n i ts) (hi : i < n)
    (ht : (pairs .node ts)[i]? = some t) (hsub : ∀ b ∈ mem.hashed, b ∈ log) (hlog : Logged keccak256 log t) :
    Paired keccak256 ⟨mem.layer.set i (hashOf keccak256 t), log⟩ n (i + 1) ts where
  bound := by simpa using h.bound
  done j hj := by
    rw [List.getElem?_set]
    by_cases hji : i = j
    · have hb := h.bound
      subst hji
      rw [if_pos rfl, if_pos (by omega), ht]
      rfl
    · rw [if_neg hji, h.done j (by omega)]
  rest j hj hij := by rw [List.getElem?_set_ne (by omega), h.rest j hj (by omega)]
  logged t ht := (h.logged t ht).mono hsub
  paired j hj u hu := by
    by_cases hji : i = j
    · subst hji
      rw [ht] at hu
      cases hu
      exact hlog
    · exact (h.paired j (by omega) u hu).mono hsub

/-- The loop over a layer pairs its trees: it reads no entry that it has written, for `2 * i` is not behind `i`. -/
theorem pairLayer_holds {count : Nat} (hlen : ts.length = n) (hcount : i + count = (n + 1) / 2)
    (h : Paired keccak256 mem n i ts) : ∃ mem', pairLayer keccak256 n count i mem = some mem' ∧
      Holds keccak256 mem' ((n + 1) / 2) (pairs .node ts) := by
  induction count generalizing i mem with
  | zero =>
    obtain rfl : i = (n + 1) / 2 := by omega
    refine ⟨mem, rfl, by rw [length_pairs, hlen], h.done, fun t ht => ?_⟩
    obtain ⟨j, hj, rfl⟩ := List.mem_iff_getElem.1 ht
    exact h.paired j (by rwa [length_pairs, hlen] at hj) _ (List.getElem?_eq_getElem hj)
  | succ count ih =>
    have hleft : ts[2 * i]? = some ts[2 * i] := List.getElem?_eq_getElem (by omega)
    have hread : mem.layer[2 * i]? = some (hashOf keccak256 ts[2 * i]) := by
      rw [h.rest (2 * i) (by omega) (by omega), hleft]
      rfl
    by_cases hlt : 2 * i + 1 < n
    · have hright : ts[2 * i + 1]? = some ts[2 * i + 1] := List.getElem?_eq_getElem (by omega)
      have hread' : mem.layer[2 * i + 1]? = some (hashOf keccak256 ts[2 * i + 1]) := by
        rw [h.rest (2 * i + 1) hlt (by omega), hright]
        rfl
      have hpair : (pairs .node ts)[i]? = some (.node ts[2 * i] ts[2 * i + 1]) := by
        rw [getElem?_pairs, hleft, hright]
      have hsub : ∀ b ∈ mem.hashed, b ∈ mem.hashed ++
          [abiEncode [bytes1 0x01, hashOf keccak256 ts[2 * i], hashOf keccak256 ts[2 * i + 1]]] :=
        fun b hb => List.mem_append_left _ hb
      have hlog : Logged keccak256 (mem.hashed ++
          [abiEncode [bytes1 0x01, hashOf keccak256 ts[2 * i], hashOf keccak256 ts[2 * i + 1]]])
          (.node ts[2 * i] ts[2 * i + 1]) :=
        ⟨List.mem_append_right _ (List.mem_singleton_self _), (h.logged _ (List.getElem_mem _)).mono hsub,
          (h.logged _ (List.getElem_mem _)).mono hsub⟩
      simp only [pairLayer, hread, Option.bind_eq_bind, Option.bind_some, if_pos hlt, hread']
      exact ih (by omega) (h.write (by omega) hpair hsub hlog)
    · have hpair : (pairs .node ts)[i]? = some ts[2 * i] := by
        rw [getElem?_pairs, hleft, List.getElem?_eq_none (by omega)]
      simp only [pairLayer, hread, Option.bind_eq_bind, Option.bind_some, if_neg hlt]
      exact ih (by omega) (h.write (by omega) hpair (fun b hb => hb) (h.logged _ (List.getElem_mem _)))

theorem climb_holds (hn : 0 < n) (h : Holds keccak256 mem n ts) :
    ∃ mem' t, climb keccak256 n mem = some mem' ∧ Holds keccak256 mem' 1 [t] ∧
      t.leaves = ts.flatMap BinTree.leaves := by
  induction n using Nat.strong_induction_on generalizing mem ts with
  | h n ih =>
    rw [climb]
    by_cases hone : 1 < n
    · have hpaired : Paired keccak256 mem n 0 ts :=
        ⟨h.bound, fun j hj => absurd hj (Nat.not_lt_zero j), fun j hj _ => h.layer j hj, h.logged,
          fun j hj => absurd hj (Nat.not_lt_zero j)⟩
      obtain ⟨mem', hrun, hholds⟩ := pairLayer_holds h.length (Nat.zero_add _) hpaired
      rw [if_pos hone, hrun, Option.bind_some, ← leaves_pairs ts]
      exact ih ((n + 1) / 2) (by omega) (by omega) hholds
    · obtain rfl : n = 1 := by omega
      obtain ⟨t, rfl⟩ := List.length_eq_one_iff.1 h.length
      exact ⟨mem, t, if_neg hone, h, by simp⟩

def Accepted (k s : List Word) (sizes : List UInt64) : Prop :=
  0 < k.length ∧ k.length ≤ maxFiles ∧ s.length = k.length ∧ sizes.length = k.length

instance : Decidable (Accepted k s sizes) := inferInstanceAs (Decidable (_ ∧ _))

theorem runRoot_of_not_accepted (h : ¬Accepted k s sizes) : runRoot keccak256 k s sizes = none := by
  rw [runRoot, if_pos]
  simp only [Accepted] at h
  omega

theorem runRoot_of_accepted (keccak256 : Bytes → Word) (h : Accepted k s sizes) : ∃ t log,
    runRoot keccak256 k s sizes = some (hashOf keccak256 t, log) ∧ t.leaves = filesOf k s sizes ∧
      Logged keccak256 log t := by
  obtain ⟨hpos, hmax, hs, hz⟩ := h
  let zeros : Memory := ⟨List.replicate k.length ⟨List.replicate 32 0, by simp⟩, []⟩
  obtain ⟨mem, hfill, hleaves⟩ : ∃ mem, fillLayer keccak256 k s sizes k.length 0 zeros = some mem ∧
      Holds keccak256 mem k.length ((filesOf k s sizes).map .leaf) :=
    fillLayer_holds hs hz (Nat.zero_add _) (by simp [zeros]) (fun j hj => absurd hj (Nat.not_lt_zero j))
      fun j hj => absurd hj (Nat.not_lt_zero j)
  obtain ⟨mem', t, hclimb, hroot, hleaves'⟩ := climb_holds hpos hleaves
  refine ⟨t, mem'.hashed, ?_, ?_, hroot.logged t (List.mem_singleton_self t)⟩
  · rw [runRoot, if_neg (by omega)]
    simp only [Option.bind_eq_bind]
    rw [hfill, Option.bind_some, hclimb, Option.bind_some, hroot.layer 0 Nat.one_pos]
    rfl
  · rw [hleaves', List.flatMap_map]
    exact List.flatMap_singleton' _

def hashedBy (keccak256 : Bytes → Word) (k s : List Word) (sizes : List UInt64) : List Bytes :=
  ((runRoot keccak256 k s sizes).map (·.2)).getD []

theorem isSome_rootOf : (rootOf keccak256 k s sizes).isSome ↔ Accepted k s sizes := by
  constructor
  · intro hsome
    by_contra hnot
    rw [rootOf, runRoot_of_not_accepted hnot] at hsome
    cases hsome
  · intro h
    obtain ⟨t, log, hrun, -⟩ := runRoot_of_accepted keccak256 h
    rw [rootOf, hrun]
    rfl

theorem rootOf_eq_some {root : Word} (h : rootOf keccak256 k s sizes = some root) :
    Accepted k s sizes ∧ ∃ t, root = hashOf keccak256 t ∧ t.leaves = filesOf k s sizes ∧
      Logged keccak256 (hashedBy keccak256 k s sizes) t := by
  have hok : Accepted k s sizes := isSome_rootOf.1 (by rw [h]; rfl)
  obtain ⟨t, log, hrun, hleaves, hlog⟩ := runRoot_of_accepted keccak256 hok
  rw [rootOf, hrun] at h
  cases h
  refine ⟨hok, t, rfl, hleaves, ?_⟩
  rw [hashedBy, hrun]
  exact hlog

theorem hashOf_injective {u : BinTree File}
    (hfree : Set.InjOn keccak256 {b | b ∈ log}) (ht : Logged keccak256 log t) (hu : Logged keccak256 log u)
    (h : hashOf keccak256 t = hashOf keccak256 u) : t = u := by
  refine BinTree.eq_of_value_eq (P := fun f => Logged keccak256 log (.leaf f))
    (Q := fun a b => abiEncode [bytes1 0x01, a, b] ∈ log) ?_ ?_ ?_
    (fun f (hf : Logged keccak256 log (.leaf f)) => hf) (fun l r hlr => hlr) ht hu h
  · intro f g hf hg heq
    have houter := abiEncode_injective (hfree (hf _ (by simp [leafInputs])) (hg _ (by simp [leafInputs])) heq)
    simp only [List.cons.injEq, and_true, true_and] at houter
    have hinner := abiEncode_injective (hfree (hf _ (by simp [leafInputs])) (hg _ (by simp [leafInputs])) houter)
    simp only [List.cons.injEq, and_true] at hinner
    obtain ⟨hk, hs, hsize⟩ := hinner
    cases f
    cases g
    simp only at hk hs hsize
    rw [hk, hs, uint64_injective hsize]
  · intro a b c d hab hcd heq
    have hwords := abiEncode_injective (hfree hab hcd heq)
    simpa using hwords
  · intro f b c hf hbc heq
    have hlen := congrArg List.length (hfree (hf _ (by simp [leafInputs])) hbc heq)
    simp at hlen

/-- Lists of files with the same root are the same, whatever their accepted lengths, unless two of the byte
strings hashed for them collide. -/
theorem rootOf_binds_files {k' s' : List Word} {sizes' : List UInt64}
    (hfree : Set.InjOn keccak256 {b | b ∈ hashedBy keccak256 k s sizes ++ hashedBy keccak256 k' s' sizes'})
    (hok : Accepted k s sizes) (hok' : Accepted k' s' sizes')
    (h : rootOf keccak256 k s sizes = rootOf keccak256 k' s' sizes') : k = k' ∧ s = s' ∧ sizes = sizes' := by
  obtain ⟨root, hsome⟩ := Option.isSome_iff_exists.1 (isSome_rootOf.2 hok)
  obtain ⟨t, rfl, hleaves, hlog⟩ := (rootOf_eq_some hsome).2
  obtain ⟨u, hroot, hleaves', hlog'⟩ := (rootOf_eq_some (h.symm.trans hsome)).2
  have htu : t = u := hashOf_injective hfree (hlog.mono fun b hb => List.mem_append_left _ hb)
    (hlog'.mono fun b hb => List.mem_append_right _ hb) hroot
  subst htu
  exact filesOf_injective hok.2.2.1 hok.2.2.2 hok'.2.2.1 hok'.2.2.2 (hleaves.symm.trans hleaves')

end

def sumHash (b : Bytes) : Word :=
  uint64 (UInt64.ofNat (b.foldl (fun acc x => acc * 257 + x.toNat + 1) b.length))

def threeWords : List Word := [uint64 1, uint64 2, uint64 3]

theorem rootOf_binds_files_three : Accepted threeWords threeWords.reverse [7, 8, 9] ∧
    threeWords = threeWords ∧ threeWords.reverse = threeWords.reverse ∧ [7, 8, 9] = ([7, 8, 9] : List UInt64) := by
  have hok : Accepted threeWords threeWords.reverse [7, 8, 9] := by decide
  have hfree : ∀ b ∈ hashedBy sumHash threeWords threeWords.reverse [7, 8, 9] ++
      hashedBy sumHash threeWords threeWords.reverse [7, 8, 9],
      ∀ b' ∈ hashedBy sumHash threeWords threeWords.reverse [7, 8, 9] ++
        hashedBy sumHash threeWords threeWords.reverse [7, 8, 9], sumHash b = sumHash b' → b = b' := by
    decide +kernel
  exact ⟨hok, rootOf_binds_files (fun b hb b' hb' => hfree b hb b' hb') hok hok rfl⟩

end Boltchain.Contracts.Certificates
