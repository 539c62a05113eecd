import Boltchain.Consensus.World

namespace Boltchain.Consensus

/-- The simulator's scheme. Its keyed hashes do not collide, so a signature is what was hashed. -/
abbrev MockScheme : Scheme where
  Sig := Nat × SignMsg
  Agg := List (Nat × SignMsg)
  sign i m := (i, m)
  verify i m s := (i, m) == s
  aggregate l := some l
  verifyAggregate l m a := l.length == a.length && (l.zip a).all fun x => (x.1, m) == x.2

namespace MockScheme

theorem mem_of_verifyAggregate {l : List Nat} {m : SignMsg} {a : List (Nat × SignMsg)} {i : Nat}
    (h : MockScheme.verifyAggregate l m a = true) (hi : i ∈ l) : (i, m) ∈ a := by
  simp only [Bool.and_eq_true, beq_iff_eq, List.all_eq_true] at h
  obtain ⟨k, hk, rfl⟩ := List.mem_iff_getElem.1 hi
  have hka : k < a.length := h.1 ▸ hk
  have hmem : (l[k], a[k]) ∈ l.zip a := by
    rw [List.mem_iff_getElem]
    exact ⟨k, by rw [List.length_zip]; exact lt_min hk hka, List.getElem_zip⟩
  rw [h.2 _ hmem]
  exact List.getElem_mem hka

/-- Honest signatures cannot be forged: a value made of the ones in `K` has no other. -/
def unforgeable (honest : Nat → Prop) : Unforgeable MockScheme honest where
  sig K s := honest s.1 → s ∈ K
  agg K a := ∀ s ∈ a, honest s.1 → s ∈ K
  sig_mono hK h hh := hK (h hh)
  agg_mono hK h s hs hh := hK (h s hs hh)
  sign h _ := h
  aggregate h heq s hs := by
    cases heq
    exact h s hs
  of_verify h hv hh := by
    rw [← beq_iff_eq.1 hv] at h
    exact h hh
  of_verifyAggregate h hv hi hh := h _ (mem_of_verifyAggregate hv hi) hh

theorem complete : MockScheme.Complete where
  sign _ _ := beq_self_eq_true _
  aggregate := by
    intro l sigs m a h heq
    obtain rfl : sigs = a := Option.some.inj heq
    rw [Bool.and_eq_true, beq_iff_eq, List.all_eq_true]
    refine ⟨h.length_eq, fun x hx => ?_⟩
    exact (List.forall₂_iff_zip.1 h).2 hx

end MockScheme

/-- A concrete chain: the real blocks are listed under small numbers, a header is its block's
number, and every other number is the nil block it encodes. -/
structure Ledger where
  blocks : List BlockInfo
  fresh : ∀ b ∈ blocks, b.hash < 256 ∧ b.parent < 256 ∧ blocks.find? (·.hash = b.hash) = some b
  height : ∀ b ∈ blocks, b.height = ((blocks.find? (·.hash = b.parent)).elim 0 (·.height)) + 1

namespace Ledger

variable (L : Ledger)

def find (h : Hash) : Option BlockInfo := L.blocks.find? (·.hash = h)

def hasher : Hasher where
  keccak256 bs := (bs.headD 0).toNat
  decodeHeader bs := (L.find (bs.headD 0).toNat).map fun b => ⟨b.parent, b.height⟩
  nilHash _ p r := 256 + Nat.pair p r

def par (h : Hash) : Hash :=
  if h < 256 then (L.find h).elim 0 (·.parent) else (Nat.unpair (h - 256)).1

def rnd (h : Hash) : Nat :=
  if h < 256 then (L.find h).elim 0 (·.round) else (Nat.unpair (h - 256)).2

def hgt (h : Nat) : Nat :=
  if h < 256 then (L.find h).elim 0 (·.height) else hgt (Nat.unpair (h - 256)).1 + 1
termination_by h
decreasing_by
  have hle := Nat.unpair_left_le (h - 256)
  omega

variable {L}

variable {b : BlockInfo}

theorem par_of_mem (hb : b ∈ L.blocks) : L.par b.hash = b.parent := by
  obtain ⟨hlt, -, hfind⟩ := L.fresh b hb
  rw [par, if_pos hlt, find, hfind]
  rfl

theorem rnd_of_mem (hb : b ∈ L.blocks) : L.rnd b.hash = b.round := by
  obtain ⟨hlt, -, hfind⟩ := L.fresh b hb
  rw [rnd, if_pos hlt, find, hfind]
  rfl

theorem hgt_of_mem (hb : b ∈ L.blocks) : L.hgt b.hash = b.height := by
  obtain ⟨hlt, -, hfind⟩ := L.fresh b hb
  rw [hgt, if_pos hlt, find, hfind]
  rfl

theorem hgt_of_valid {ι : Type} (L : Ledger) (net : Net MockScheme ι) (hv : ∀ {b}, net.valid b → b ∈ L.blocks)
    {b : BlockInfo} (h : net.valid b) : L.hgt b.hash = b.height := hgt_of_mem (hv h)

theorem hgt_parent_of_mem (hb : b ∈ L.blocks) : L.hgt b.hash = L.hgt b.parent + 1 := by
  rw [hgt_of_mem hb, L.height b hb, hgt, if_pos (L.fresh b hb).2.1, find]

theorem par_nil (e p r : Nat) : L.par (L.hasher.nilHash e p r) = p := by
  simp [par, hasher]

theorem rnd_nil (e p r : Nat) : L.rnd (L.hasher.nilHash e p r) = r := by
  simp [rnd, hasher]

theorem hgt_nil (e p r : Nat) : L.hgt (L.hasher.nilHash e p r) = L.hgt p + 1 := by
  rw [hgt]
  simp [hasher]

theorem par_header {bs : Bytes} {hd : Header} (h : L.hasher.decodeHeader bs = some hd) :
    L.par (L.hasher.keccak256 bs) = hd.parentHash := by
  obtain ⟨b, hb, rfl⟩ := Option.map_eq_some_iff.1 h
  have hlt : (bs.headD 0).toNat < 256 := UInt8.toNat_lt _
  simp only [par, hasher, if_pos hlt, hb, Option.elim_some]

end Ledger

namespace Net

/-- Two nodes with a seat each. -/
theorem disjoint_pair {i : Nat} {ν μ : Bool} (h : i ∈ if ν then [1] else [0]) (h' : i ∈ if μ then [1] else [0]) :
    ν = μ := by
  cases ν <;> cases μ <;> simp_all

variable {ι : Type} (net : Net MockScheme ι)

instance [DecidablePred net.valid] [Decidable net.imports] (e : Engine MockScheme) :
    ∀ ev, Decidable (net.Promises e ev)
  | .validated h true => decidable_of_iff
      (∀ p ∈ e.pending.lookup h, net.base.endHeight < p.block.height ∨ net.valid p.block)
      ⟨fun hp _ => hp, fun hp => hp rfl⟩
  | .validated _ false => isTrue fun h => by cases h
  | .proposed b _ _ _ => inferInstanceAs (Decidable (_ ∨ _))
  | .block b => inferInstanceAs (Decidable (net.valid b))
  | .externalCommit _ _ => inferInstanceAs (Decidable net.imports)
  | .start => isTrue trivial
  | .message _ => isTrue trivial
  | .timeout _ => isTrue trivial

/-- The signatures an input may hold, when `nodes` are all the honest nodes. -/
def heard (nodes : List ι) (w : ι → Node MockScheme) (ν : ι) : Event MockScheme → List (Nat × SignMsg)
  | .message _ => nodes.flatMap fun μ => (w μ).durable
  | _ => (nodes.flatMap fun μ => (w μ).durable) ++ (w ν).signed

def isKnown (nodes : List ι) (l : List (Nat × SignMsg)) (s : Nat × SignMsg) : Bool :=
  !(nodes.any fun μ => (net.me μ).contains s.1) || l.contains s

def isMade (nodes : List ι) (l : List (Nat × SignMsg)) (qc : Qc MockScheme) : Bool :=
  (qc.sig.getD []).all (net.isKnown nodes l)

def delivers (nodes : List ι) (w : ι → Node MockScheme) (ν : ι) (ev : Event MockScheme) : Bool :=
  ev.qcs.all (net.isMade nodes (heard nodes w ν ev))
    && ev.sigs.all (net.isKnown nodes (heard nodes w ν ev))

variable {net} (nodes : List ι) (hall : ∀ μ, μ ∈ nodes)

variable {ev : Event MockScheme} {s : Nat × SignMsg} {w : ι → Node MockScheme} {ν : ι}

theorem heard_subset
    (h : s ∈ heard nodes w ν ev) :
    s ∈ known w ν ∧ ∀ m, ev = .message m → s ∈ durable w := by
  have hd : s ∈ (nodes.flatMap fun μ => (w μ).durable) → s ∈ durable w := by
    intro h
    obtain ⟨μ, -, hμ⟩ := List.mem_flatMap.1 h
    exact ⟨μ, hμ⟩
  cases ev with
  | message m => exact ⟨.inl (hd h), fun _ _ => hd h⟩
  | _ => exact ⟨(List.mem_append.1 h).imp hd id, by simp⟩

include hall

variable {l : List (Nat × SignMsg)}

theorem mem_of_isKnown
    (h : net.isKnown nodes l s = true) (hs : ∃ μ, s.1 ∈ net.me μ) : s ∈ l := by
  obtain ⟨μ, hμ⟩ := hs
  rw [isKnown, Bool.or_eq_true, Bool.not_eq_true', List.contains_iff_mem] at h
  refine h.resolve_left fun hnone => ?_
  rw [List.any_eq_false] at hnone
  exact hnone μ (hall μ) (List.contains_iff_mem.2 hμ)

theorem ofQc_of_isMade {qc : Qc MockScheme} {K : Knowledge}
    (hU : net.U = MockScheme.unforgeable _) (hl : ∀ s ∈ l, s ∈ K)
    (h : net.isMade nodes l qc = true) : net.U.ofQc K qc := by
  rw [hU]
  intro a ha s hs hh
  rw [isMade, ha, List.all_eq_true] at h
  exact hl s (mem_of_isKnown nodes hall (h s hs) hh)

theorem delivers_sound
    (hU : net.U = MockScheme.unforgeable _) (h : net.delivers nodes w ν ev = true) :
    net.Delivers w ν ev := by
  rw [delivers, Bool.and_eq_true, List.all_eq_true, List.all_eq_true] at h
  have hof : ∀ K : Knowledge, (∀ s ∈ heard nodes w ν ev, s ∈ K) → net.U.ofEvent K ev := by
    intro K hK
    refine ⟨fun qc hqc => ofQc_of_isMade nodes hall hU hK (h.1 qc hqc), fun s hs => ?_⟩
    rw [hU]
    exact fun hh => hK s (mem_of_isKnown nodes hall (h.2 s hs) hh)
  cases ev with
  | message m => exact hof _ fun s hs => (heard_subset nodes hs).2 m rfl
  | _ => exact hof _ fun s hs => (heard_subset nodes hs).1

omit hall

variable [DecidableEq ι]

variable (net) in
/-- The nodes after `ν` handled `ev` and wrote its state to disk. -/
def after (n : Nat) (w : ι → Node MockScheme) (x : ι × Event MockScheme) : ι → Node MockScheme :=
  match (w x.1).eng.on net.H n x.2 with
  | none => w
  | some (e, l) => Function.update w x.1 ((w x.1).after true e l)

variable (net) in
def replay (n : Nat) (w : ι → Node MockScheme) (evs : List (ι × Event MockScheme)) :
    ι → Node MockScheme :=
  evs.foldl (net.after n) w

section

variable [DecidablePred net.valid] [Decidable net.imports] (ok : Engine MockScheme → Event MockScheme → Prop)
  [∀ e ev, Decidable (ok e ev)]

variable (net) in
def plays (n : Nat) : (ι → Node MockScheme) → List (ι × Event MockScheme) → Bool
  | _, [] => true
  | w, x :: evs => net.delivers nodes w x.1 x.2 && decide (net.Promises (w x.1).eng x.2)
      && decide (ok (w x.1).eng x.2) && ((w x.1).eng.on net.H n x.2).isSome
      && plays n (net.after n w x) evs

variable {ok}

include hall in
theorem Run.replay {n : Nat} {w : ι → Node MockScheme} {evs : List (ι × Event MockScheme)}
    (hU : net.U = MockScheme.unforgeable _) (hw : net.Run ok w)
    (h : net.plays nodes ok n w evs = true) : net.Run ok (net.replay n w evs) := by
  induction evs generalizing w with
  | nil => exact hw
  | cons x evs ih =>
    simp only [plays, Bool.and_eq_true, decide_eq_true_eq] at h
    obtain ⟨⟨⟨⟨hdel, hpr⟩, hok⟩, hsome⟩, hrest⟩ := h
    refine ih (hw.tail ?_) hrest
    obtain ⟨⟨e, l⟩, hon⟩ := Option.isSome_iff_exists.1 hsome
    have hafter : net.after n w x = Function.update w x.1 ((w x.1).after true e l) := by
      rw [after, hon]
    rw [hafter]
    exact .handle x.1 n x.2 true (delivers_sound nodes hall hU hdel) hpr hok hon (by simp)

end

end Net

end Boltchain.Consensus
