import Boltchain.Consensus.Types
import Boltchain.Lib.Patricia
import Boltchain.Lib.Rlp

namespace Boltchain.Store

open Consensus (Bytes)
open Lib

structure B256 where
  bytes : Bytes
  length_eq : bytes.length = 32
  deriving DecidableEq

/-- A byte string a trie may hold: not empty, and not longer than a vector can be. -/
structure Value where
  bytes : Bytes
  ne_nil : bytes ≠ []
  length_lt : bytes.length < 2 ^ 63
  deriving DecidableEq

abbrev Nibble := Fin 16

abbrev Path := List Nibble

/-- A child as embedded in its parent: its RLP if shorter than 32 bytes, else its hash. `none` means
"modified, recompute at commit". -/
abbrev ChildRef := Option Bytes

inductive Node where
  | leaf (key : Path) (value : Bytes)
  | ext (key : Path) (child : ChildRef)
  | branch (children : Nibble → Option ChildRef)
  deriving DecidableEq

inductive TrieError where
  | corrupt (path : Path)
  deriving DecidableEq, Repr

def highNibble (b : UInt8) : Nibble := ⟨b.toNat / 16, by have := b.toNat_lt; omega⟩

def lowNibble (b : UInt8) : Nibble := ⟨b.toNat % 16, Nat.mod_lt _ (by omega)⟩

def toNibbles (key : B256) : Path := key.bytes.flatMap fun b => [highNibble b, lowNibble b]

def commonPrefix (a b : Path) : Nat := ((a.zip b).takeWhile fun x => x.1 == x.2).length

section Codec

def pairs : Path → Bytes
  | a :: b :: rest => UInt8.ofNat (a.val * 16 + b.val) :: pairs rest
  | _ => []

def hexPrefix (nibbles : Path) (leaf : Bool) : Bytes :=
  let flag := if leaf then 2 else 0
  if nibbles.length % 2 = 1 then UInt8.ofNat ((flag + 1) * 16 + (nibbles.head?.elim 0 Fin.val)) :: pairs nibbles.tail
  else UInt8.ofNat (flag * 16) :: pairs nibbles

def hexPrefixDecode : Bytes → Option (Path × Bool)
  | [] => none
  | first :: rest =>
    let flag := first.toNat / 16
    if 3 < flag then none
    else
      let out := rest.flatMap fun b => [highNibble b, lowNibble b]
      some (if flag % 2 = 1 then lowNibble first :: out else out, decide (2 ≤ flag))

/-- A child reference in its parent: raw RLP if inline, else a string of the hash. -/
def encodeRef (r : Bytes) : Bytes := if r.length = 32 then Rlp.string r else r

def emptyString : Bytes := [0x80]

def encodeChild (c : Option ChildRef) : Bytes := c.elim emptyString fun r => encodeRef (r.getD [])

def encodeNode : Node → Bytes
  | .leaf key value => Rlp.list (Rlp.string (hexPrefix key true) ++ Rlp.string value)
  | .ext key child => Rlp.list (Rlp.string (hexPrefix key false) ++ encodeRef (child.getD []))
  | .branch children =>
    Rlp.list (((List.finRange 16).map fun i => encodeChild (children i)).flatten ++ emptyString)

def stringPayload (item : Bytes) : Option Bytes := do
  let (h, b) ← Rlp.decodeHeader item
  if h.1 then none
  else if h.2 ≤ b.length then some (b.take h.2) else none

def decodeRef (item : Bytes) : Option Bytes := do
  let (h, b) ← Rlp.decodeHeader item
  if h.1 then some item
  else if h.2 = 32 then some (b.take 32) else none

def decodeChild (item : Bytes) : Option (Option ChildRef) :=
  if item = emptyString then some none else (decodeRef item).map fun r => some (some r)

/-- A node from the items of its list: two for a leaf or an extension, 17 for a branch. -/
def decodeItems : List Bytes → Option Node
  | [item, item'] => do
    let (key, leaf) ← (stringPayload item).bind hexPrefixDecode
    if leaf then (stringPayload item').map (.leaf key) else (decodeRef item').map fun r => .ext key (some r)
  | items =>
    if items.length = 17 then
      ((items.take 16).mapM decodeChild).map fun children => .branch fun i => children.getD i.val none
    else none

def decodeNode (rlp : Bytes) : Option Node := do
  let (h, b) ← Rlp.decodeHeader rlp
  if h.1 && decide (h.2 ≤ b.length) then
    let items ← Rlp.rawItems (b.take h.2).length (b.take h.2)
    decodeItems items
  else none

end Codec

abbrev NodeWrites := Path → Option (Option Bytes)

def applyWrites (source : Path → Option Bytes) (writes : NodeWrites) : Path → Option Bytes := fun p =>
  (writes p).getD (source p)

/-- A trie being modified: the stored nodes, and those changed in this session, where `none` stands
for a deleted one. -/
structure Trie where
  source : Path → Option Bytes
  dirty : Path → Option (Option Node)

namespace Trie

def new (source : Path → Option Bytes) : Trie := ⟨source, fun _ => none⟩

def get (t : Trie) (path : Path) : Except TrieError (Option Node) :=
  match t.dirty path with
  | some n => .ok n
  | none =>
    match t.source path with
    | none => .ok none
    | some rlp => (decodeNode rlp).elim (.error (.corrupt path)) fun n => .ok (some n)

def put (t : Trie) (path : Path) (node : Node) : Trie :=
  { t with dirty := Function.update t.dirty path (some (some node)) }

def remove (t : Trie) (path : Path) : Trie :=
  { t with dirty := Function.update t.dirty path (some none) }

def twoChildren (a b : Nibble) : Node :=
  .branch (Function.update (Function.update (fun _ => none) a (some none)) b (some none))

/-- Puts an extension above a new branch, unless the branch is at `path` itself. -/
def putExt (t : Trie) (path key : Path) : Trie :=
  if key = [] then t else t.put path (.ext key none)

/-- The leaf at `path`, with another key, and the new one get a branch where they part. -/
def splitLeaf (t : Trie) (path lkey : Path) (lval : Bytes) (rest : Path) (value : Bytes) : Except TrieError Trie :=
  let c := commonPrefix lkey rest
  match lkey.drop c, rest.drop c with
  | a :: lkey, b :: rest' =>
    let bpath := path ++ rest.take c
    let t := t.put (bpath ++ [a]) (.leaf lkey lval)
    let t := t.put (bpath ++ [b]) (.leaf rest' value)
    let t := t.put bpath (twoChildren a b)
    .ok (t.putExt path (rest.take c))
  | _, _ => .error (.corrupt path)

/-- The extension at `path` is cut where the new key parts from it. The old child keeps its path. -/
def splitExt (t : Trie) (path ekey rest : Path) (value : Bytes) : Except TrieError Trie :=
  let c := commonPrefix ekey rest
  match ekey.drop c, rest.drop c with
  | a :: ekey', b :: rest' =>
    let bpath := path ++ ekey.take c
    let t := t.putExt (bpath ++ [a]) ekey'
    let t := t.put (bpath ++ [b]) (.leaf rest' value)
    let t := t.put bpath (twoChildren a b)
    .ok (t.putExt path (ekey.take c))
  | _, _ => .error (.corrupt path)

/-- The walk of `insert` from the node at `path`. The number bounds the steps: a key has 64 nibbles. -/
def insertAt : Nat → Trie → Path → Path → Bytes → Except TrieError Trie
  | 0, _, path, _, _ => .error (.corrupt path)
  | fuel + 1, t, path, rest, value => do
    match ← t.get path with
    | none => .ok (t.put path (.leaf rest value))
    | some (.leaf lkey lval) =>
      if lkey = rest then .ok (t.put path (.leaf lkey value)) else t.splitLeaf path lkey lval rest value
    | some (.ext ekey _) =>
      if commonPrefix ekey rest = ekey.length then
        insertAt fuel (t.put path (.ext ekey none)) (path ++ ekey) (rest.drop ekey.length) value
      else t.splitExt path ekey rest value
    | some (.branch children) =>
      match rest with
      | [] => .error (.corrupt path)
      | i :: rest =>
        insertAt fuel (t.put path (.branch (Function.update children i (some none)))) (path ++ [i]) rest value

def insert (t : Trie) (key : B256) (value : Value) : Except TrieError Trie :=
  t.insertAt 65 [] (toNibbles key) value.bytes

/-- Walks down to the leaf of a key, collecting the nodes on the way; `none` if the key is missing. -/
def walk : Nat → Trie → Path → Path → List (Path × Node) → Except TrieError (Option (List (Path × Node)))
  | 0, _, path, _, _ => .error (.corrupt path)
  | fuel + 1, t, path, rest, stack => do
    match ← t.get path with
    | none => .ok none
    | some (.leaf key value) => .ok (if key = rest then some ((path, .leaf key value) :: stack) else none)
    | some (.ext key child) =>
      match Patricia.strip key rest with
      | none => .ok none
      | some rest => walk fuel t (path ++ key) rest ((path, .ext key child) :: stack)
    | some (.branch children) =>
      match rest with
      | [] => .error (.corrupt path)
      | i :: rest =>
        if (children i).isNone then .ok none
        else walk fuel t (path ++ [i]) rest ((path, .branch children) :: stack)

/-- The single child left at `path ++ [i]` takes the place of its branch. -/
def pullUp (t : Trie) (path : Path) (i : Nibble) : Node → Trie × Node
  | .leaf key value => (t.remove (path ++ [i]), .leaf (i :: key) value)
  | .ext key _ => (t.remove (path ++ [i]), .ext (i :: key) none)
  | .branch _ => (t, .ext [i] none)

def mergeExt (t : Trie) (path key childPath : Path) : Option Node → Except TrieError (Trie × Node)
  | some (.leaf key' value) => .ok (t.remove childPath, .leaf (key ++ key') value)
  | some (.ext key' _) => .ok (t.remove childPath, .ext (key ++ key') none)
  | some (.branch _) => .ok (t, .ext key none)
  | none => .error (.corrupt path)

def repairBranch (t : Trie) (path : Path) (children : Nibble → Option ChildRef) : Except TrieError (Trie × Node) :=
  let remaining := (List.finRange 16).filter fun i => (children i).isSome
  if 2 ≤ remaining.length then .ok (t, .branch children)
  else
    match remaining with
    | [] => .error (.corrupt path)
    | i :: _ => do
      match ← t.get (path ++ [i]) with
      | none => .error (.corrupt (path ++ [i]))
      | some c => .ok (t.pullUp path i c)

/-- Repairs the ancestors of a removed leaf, bottom-up. `replaced` is what now sits at `childPath`. -/
def repair : List (Path × Node) → Trie → Path → Option Node → Except TrieError Trie
  | [], t, _, _ => .ok t
  | (path, .branch children) :: stack, t, childPath, replaced => do
    match childPath.drop path.length with
    | [] => .error (.corrupt path)
    | slot :: _ =>
      let (t, node) ← t.repairBranch path (Function.update children slot (replaced.map fun _ => none))
      repair stack (t.put path node) path (some node)
  | (path, .ext key _) :: stack, t, childPath, replaced => do
    let (t, node) ← t.mergeExt path key childPath replaced
    repair stack (t.put path node) path (some node)
  | (path, .leaf ..) :: _, _, _, _ => .error (.corrupt path)

/-- Removes the value at a 32-byte key. Removing a missing key is a no-op. -/
def removeKey (t : Trie) (key : B256) : Except TrieError Trie := do
  match ← t.walk 65 [] (toNibbles key) [] with
  | some ((leafPath, _) :: stack) => repair stack (t.remove leafPath) leafPath none
  | _ => .ok t

section Commit

variable (keccak256 : Bytes → B256)

def childRef (rlp : Bytes) : Bytes := if rlp.length < 32 then rlp else (keccak256 rlp).bytes

def resolveChild (encode : Path → Trie × NodeWrites → Except TrieError (Bytes × Trie × NodeWrites)) (path : Path)
    (s : (Nibble → Option ChildRef) × Trie × NodeWrites) (i : Nibble) :
    Except TrieError ((Nibble → Option ChildRef) × Trie × NodeWrites) :=
  match s.1 i with
  | some none => do
    let (rlp, t) ← encode (path ++ [i]) s.2
    .ok (Function.update s.1 i (some (some (childRef keccak256 rlp))), t)
  | _ => .ok s

def resolve (encode : Path → Trie × NodeWrites → Except TrieError (Bytes × Trie × NodeWrites)) (path : Path)
    (node : Node) (s : Trie × NodeWrites) : Except TrieError (Node × Trie × NodeWrites) :=
  match node with
  | .ext key none => do
    let (rlp, s) ← encode (path ++ key) s
    .ok (.ext key (some (childRef keccak256 rlp)), s)
  | .branch children => do
    let (children, s) ← (List.finRange 16).foldlM (resolveChild keccak256 encode path) (children, s)
    .ok (.branch children, s)
  | node => .ok (node, s)

/-- The RLP of the node at `path`, recomputed, with its write recorded, if it was modified. -/
def encodeAt : Nat → Path → Trie × NodeWrites → Except TrieError (Bytes × Trie × NodeWrites)
  | 0, path, _ => .error (.corrupt path)
  | fuel + 1, path, s =>
    match s.1.dirty path with
    | some none => .error (.corrupt path)
    | none => (s.1.source path).elim (.error (.corrupt path)) fun rlp => .ok (rlp, s)
    | some (some node) => do
      let (node, s) ← resolve keccak256 (encodeAt fuel) path node s
      let rlp := encodeNode node
      .ok (rlp, s.1.put path node, Function.update s.2 path (some (some rlp)))

def emptyRootHash : B256 := keccak256 emptyString

def root (t : Trie) : Except TrieError (B256 × Trie × NodeWrites) := do
  match ← t.get [] with
  | none => .ok (emptyRootHash keccak256, t, fun _ => none)
  | some _ =>
    let (rlp, s) ← encodeAt keccak256 65 [] (t, fun _ => none)
    .ok (keccak256 rlp, s)

/-- Recomputes hashes along modified paths. Returns the root hash and the node writes. -/
def commit (t : Trie) : Except TrieError (B256 × NodeWrites) := do
  let (root, t, writes) ← t.root keccak256
  -- deleted paths that were not created again
  .ok (root, fun p => (writes p).or (if t.dirty p = some none then some none else none))

end Commit

end Trie

inductive TrieOp where
  | insert (key : B256) (value : Value)
  | remove (key : B256)

def TrieOp.run (t : Trie) : TrieOp → Except TrieError Trie
  | .insert key value => t.insert key value
  | .remove key => t.removeKey key

/-- Modifies a stored trie by a batch: the root and the nodes then stored. -/
def runBatch (keccak256 : Bytes → B256) (nodes : Path → Option Bytes) (batch : List TrieOp) :
    Except TrieError (B256 × (Path → Option Bytes)) := do
  let t ← batch.foldlM TrieOp.run (Trie.new nodes)
  let (root, writes) ← t.commit keccak256
  .ok (root, applyWrites nodes writes)

end Boltchain.Store
