import PxcCore.Lib.LinearProbing
import PxcCore.Lib.Result
import PxcCore.Utils.HashTableUtils

/-!
# `FlatHashTable`

The open-addressing table of `FlatHashTable.h` over `MapNode` (a `SetNode` is a node whose value
is trivial).  `nodes_` is a function from bucket numbers; a bucket that holds no key is `none`,
and taking a node out of its bucket by a move leaves `none` behind.  The counters are natural
numbers: the check on the allocation size keeps every product of the code below `2^32`
(`Inv.products_lt`).
-/

namespace PxcCore.FlatHashTable

open Lib LinearProbing

/-- The template parameters, with `sizeof(NodeT)`. -/
structure Traits (K : Type) extends HashTraits K where
  sizeofNode : ℕ

/-- How an operation ends other than by returning: a failed `CHECK`, an iterator that points to no
node, or, in the model only, a loop that is out of steps. -/
inductive Fault where
  | tooLarge
  | emptyKey
  | check
  | badIterator
  | fuel
deriving DecidableEq, Repr

/-- `FlatHashTable`; `allocated` is `nodes_ != nullptr`. -/
structure Table (K V : Type) where
  nodes : ℕ → Option (K × V) := fun _ ↦ none
  allocated : Bool := false
  usedNodeCount : ℕ := 0
  bucketCountMask : ℕ := 0
  bucketCount : ℕ := 0
  beginBucket : ℕ := 0

/-- `INVALID_BUCKET`. -/
def invalidBucket : ℕ := 0xFFFFFFFF

/-- `normalize_flat_hash_table_size`; `32 - count_leading_zeroes32(size)` is the number of binary
digits of `size`. -/
def normalizeFlatHashTableSize (size : ℕ) : ℕ := max (1 <<< (Nat.log2 size + 1)) 8

section

variable {K V : Type} (T : Traits K)

/-- `calc_bucket`. -/
def calcBucket (mask : ℕ) (key : K) : ℕ := (T.hash key).toNat &&& mask

/-- `next_bucket`. -/
def nextBucket (mask bucket : ℕ) : ℕ := (bucket + 1) &&& mask

namespace Table

/-- `allocate_nodes`, with its `CHECK` on the size. -/
def allocateNodes (t : Table K V) (size : ℕ) : Except Fault (Table K V) :=
  if size ≤ min (1 <<< 29) (0x7FFFFFFF / T.sizeofNode) then
    .ok { t with
      nodes := fun _ ↦ none, allocated := true, bucketCountMask := size - 1, bucketCount := size
      beginBucket := invalidBucket }
  else .error .tooLarge

/-- The body of the loop of `resize`: the node goes to the first empty bucket from its own on. -/
def placeNode (t : Table K V) (node : K × V) : Except Fault (Table K V) :=
  match probe (nextBucket t.bucketCountMask) (fun b ↦ (t.nodes b).isNone) t.bucketCount
      (calcBucket T t.bucketCountMask node.1) with
  | none => .error .fuel
  | some b => .ok { t with nodes := Function.update t.nodes b (some node) }

/-- `resize`. -/
def resize (t : Table K V) (newSize : ℕ) : Except Fault (Table K V) := do
  if !t.allocated then
    let t ← t.allocateNodes T newSize
    return { t with usedNodeCount := 0 }
  let oldNodes := t.nodes
  let oldBucketCount := t.bucketCount
  let t ← t.allocateNodes T newSize
  ((List.range oldBucketCount).filterMap oldNodes).foldlM (placeNode T) t

/-- `invalidate_iterators`. -/
def invalidateIterators (t : Table K V) : Table K V := { t with beginBucket := invalidBucket }

/-- `find_impl`: the bucket of the node that is found. -/
def findImpl (t : Table K V) (key : K) : Except Fault (Option ℕ) :=
  if !t.allocated || T.isHashTableKeyEmpty key then .ok none
  else
    match probe (nextBucket t.bucketCountMask)
        (fun b ↦ (t.nodes b).all fun node ↦ T.eq node.1 key) t.bucketCount
        (calcBucket T t.bucketCountMask key) with
    | none => .error .fuel
    | some b => .ok (if (t.nodes b).isSome then some b else none)

/-- `emplace` with the depth of its recursion: the bucket of the node, and whether it is new. -/
def emplaceRec : ℕ → Table K V → K → V → Except Fault ((ℕ × Bool) × Table K V)
  | 0, _, _, _ => .error .fuel
  | depth + 1, t, key, value => do
    if T.isHashTableKeyEmpty key then throw .emptyKey
    let t ←
      if t.bucketCountMask = 0 then
        if t.usedNodeCount ≠ 0 then throw .check
        t.resize T 8
      else pure t
    match probe (nextBucket t.bucketCountMask)
        (fun b ↦ (t.nodes b).all fun node ↦ T.eq node.1 key) t.bucketCount
        (calcBucket T t.bucketCountMask key) with
    | none => throw .fuel
    | some b =>
      if (t.nodes b).isSome then return ((b, false), t)
      if t.usedNodeCount * 5 ≥ t.bucketCountMask * 3 then
        let t ← t.resize T (2 * t.bucketCount)
        if ¬(t.usedNodeCount * 5 < t.bucketCountMask * 3) then throw .check
        emplaceRec depth t key value
      else
        let t := t.invalidateIterators
        return ((b, true), { t with
          nodes := Function.update t.nodes b (some (key, value))
          usedNodeCount := t.usedNodeCount + 1 })

/-- `emplace`.  It calls itself again only after it has made room. -/
def emplace (t : Table K V) (key : K) (value : V) : Except Fault ((ℕ × Bool) × Table K V) :=
  emplaceRec T 2 t key value

/-- The loop of `erase_node` up to the end of the array, with the number of nodes left to test.
On the left the nodes when the function returns, on the right the nodes and the hole. -/
def shiftToEnd (mask count : ℕ) : ℕ → (ℕ → Option (K × V)) → ℕ →
    (ℕ → Option (K × V)) ⊕ (ℕ → Option (K × V)) × ℕ
  | 0, nodes, it => .inr (nodes, it)
  | left + 1, nodes, it =>
    let testNode := count - (left + 1)
    match nodes testNode with
    | none => .inl nodes
    | some node =>
      let wantNode := calcBucket T mask node.1
      if wantNode ≤ it ∨ wantNode > testNode then
        shiftToEnd mask count left
          (Function.update (Function.update nodes it (some node)) testNode none) testNode
      else shiftToEnd mask count left nodes it

/-- The loop of `erase_node` from the start of the array on.  `emptyI` and `testI` run past the end
of the array; the buckets they stand for are `emptyBucket` and `testI - count`. -/
def shiftWrapped (mask count : ℕ) : ℕ → (ℕ → Option (K × V)) → ℕ → ℕ → ℕ →
    Option (ℕ → Option (K × V))
  | 0, _, _, _, _ => none
  | fuel + 1, nodes, emptyI, emptyBucket, testI =>
    let testBucket := testI - count
    match nodes testBucket with
    | none => some nodes
    | some node =>
      let wantI := calcBucket T mask node.1
      let wantI := if wantI < emptyI then wantI + count else wantI
      if wantI ≤ emptyI ∨ wantI > testI then
        shiftWrapped mask count fuel
          (Function.update (Function.update nodes emptyBucket (some node)) testBucket none)
          testI testBucket (testI + 1)
      else shiftWrapped mask count fuel nodes emptyI emptyBucket (testI + 1)

/-- `erase_node`. -/
def eraseNode (t : Table K V) (it : ℕ) : Except Fault (Table K V) :=
  let t := { t with
    nodes := Function.update t.nodes it none, usedNodeCount := t.usedNodeCount - 1 }
  match shiftToEnd T t.bucketCountMask t.bucketCount (t.bucketCount - (it + 1)) t.nodes it with
  | .inl nodes => .ok { t with nodes := nodes }
  | .inr (nodes, it) =>
    match shiftWrapped T t.bucketCountMask t.bucketCount t.bucketCount nodes it it
        t.bucketCount with
    | none => .error .fuel
    | some nodes => .ok { t with nodes := nodes }

/-- `try_shrink`. -/
def tryShrink (t : Table K V) : Except Fault (Table K V) := do
  let t ←
    if t.usedNodeCount * 10 < t.bucketCountMask ∧ t.bucketCountMask > 7 then
      t.resize T (normalizeFlatHashTableSize ((t.usedNodeCount + 1) * 5 / 3 + 1))
    else pure t
  return t.invalidateIterators

/-- `erase(Iterator)` and `erase(NodePointer)`, for an iterator that points to a node. -/
def eraseIterator (t : Table K V) (it : ℕ) : Except Fault (Table K V) := do
  if ¬(it < t.bucketCount ∧ (t.nodes it).isSome) then throw .badIterator
  let t ← t.eraseNode T it
  t.tryShrink T

/-- `erase(const KeyT &)`. -/
def erase (t : Table K V) (key : K) : Except Fault (ℕ × Table K V) := do
  match ← t.findImpl T key with
  | none => return (0, t)
  | some node =>
    let t ← t.eraseNode T node
    let t ← t.tryShrink T
    return (1, t)

/-- `find`: the value of the node that is found. -/
def find (t : Table K V) (key : K) : Except Fault (Option V) := do
  let node ← t.findImpl T key
  return (node.bind t.nodes).map Prod.snd

/-- `count`. -/
def count (t : Table K V) (key : K) : Except Fault ℕ := do
  let node ← t.findImpl T key
  return if node.isSome then 1 else 0

/-- `size`. -/
def size (t : Table K V) : ℕ := t.usedNodeCount

/-- `clear`: `drop` puts every field back to its initial value. -/
def clear (t : Table K V) : Table K V := if t.allocated then {} else t

/-- `reserve`. -/
def reserve (t : Table K V) (size : ℕ) : Except Fault (Table K V) := do
  if size = 0 then return t
  if size > 1 <<< 29 then throw .tooLarge
  let wantSize := normalizeFlatHashTableSize (size * 5 / 3 + 1)
  if wantSize > t.bucketCount then t.resize T wantSize else return t

/-- `begin_impl`, with the bucket `random` that `get_random_flat_hash_table_bucket` starts from. -/
def beginImpl (t : Table K V) (random : UInt32) : Except Fault (Option ℕ × Table K V) :=
  if t.usedNodeCount = 0 then .ok (none, t)
  else if t.beginBucket = invalidBucket then
    match probe (nextBucket t.bucketCountMask) (fun b ↦ (t.nodes b).isSome) t.bucketCount
        (random.toNat &&& t.bucketCountMask) with
    | none => .error .fuel
    | some b => .ok (some b, { t with beginBucket := b })
  else .ok (some t.beginBucket, t)

end Table

end

end PxcCore.FlatHashTable
