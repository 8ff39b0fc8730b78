import PxcCore.Lib.Result
import PxcCore.Utils.HashTableUtils

/-!
# `FlatHashTableChunks`

The chunked table of `FlatHashMapChunks.h`.  `nodes_` and `chunks_` are functions from indices,
with their sizes beside them; an empty node is `none`.  A probe loop is given as many steps as
there are chunks, and runs out of them (`Fault.fuel`) where the loop of the code would go on: for
`find` that is for ever, as `findLoop_diverges` shows.
-/

namespace PxcCore.FlatHashMapChunks

/-- How an operation ends other than by returning: a failed `CHECK`, an iterator that points to no
node, or a probe loop that comes to no end. -/
inductive Fault where
  | emptyKey
  | check
  | badIterator
  | fuel
deriving DecidableEq, Repr

/-- `Chunk::CHUNK_SIZE`. -/
def chunkSize : ℕ := 14

/-- `Chunk`: the control bytes, 0 for an empty slot, and `skipped_cnt`. -/
structure Chunk where
  ctrl : ℕ → UInt8 := fun _ ↦ 0
  skippedCnt : ℕ := 0

/-- `FlatHashTableChunks`. -/
structure Table (K V : Type) where
  nodes : ℕ → Option (K × V) := fun _ ↦ none
  nodesSize : ℕ := 0
  chunks : ℕ → Chunk := fun _ ↦ {}
  chunksSize : ℕ := 0
  usedNodes : ℕ := 0

/-- `MaskHelper::equal_mask`, as the positions it iterates over. -/
def equalMask (bytes : ℕ → UInt8) (needle : UInt8) : List ℕ :=
  (List.range chunkSize).filter fun i ↦ bytes i = needle

/-- `normalize`; `64 - count_leading_zeroes64(x)` is the number of binary digits of `x`. -/
def normalize (size : ℕ) : ℕ :=
  let x := (size / chunkSize) ||| 1
  let y := 1 <<< (Nat.log2 x + 1)
  y * chunkSize

/-- `should_grow`. -/
def shouldGrow (usedCount bucketCount : ℕ) : Bool := usedCount * 14 > bucketCount * 12

/-- `should_shrink`. -/
def shouldShrink (usedCount bucketCount : ℕ) : Bool := usedCount * 10 < bucketCount

/-- `ChunkIt`. -/
structure ChunkIt where
  chunkI : ℕ
  chunkMask : ℕ
  shift : ℕ
deriving DecidableEq, Repr

/-- `ChunkIt::next`. -/
def ChunkIt.next (it : ChunkIt) : ChunkIt :=
  let shift := it.shift + 1
  { it with shift := shift, chunkI := (it.chunkI + shift) &&& it.chunkMask }

/-- `HashInfo`. -/
structure HashInfo where
  chunkI : ℕ
  smallHash : UInt8

section

variable {K V : Type} (T : HashTraits K)

/-- The small hash of `calc_hash`: the low eight bits with the top one set. -/
def smallHash (key : K) : UInt8 := (0x80 ||| T.hash key).toUInt8

/-- The chunk of `calc_hash`. -/
def homeChunk (chunksSize : ℕ) (key : K) : ℕ := (T.hash key >>> 8).toNat % chunksSize

namespace Table

/-- `calc_hash`. -/
def calcHash (t : Table K V) (key : K) : HashInfo where
  chunkI := homeChunk T t.chunksSize key
  smallHash := smallHash T key

/-- `get_chunk_it`. -/
def getChunkIt (t : Table K V) (chunkI : ℕ) : ChunkIt := ⟨chunkI, t.chunksSize - 1, 0⟩

/-- The loop of `find`, with the number of steps it may take. -/
def findLoop (t : Table K V) (key : K) (small : UInt8) : ℕ → ChunkIt → Except Fault (Option ℕ)
  | 0, _ => .error .fuel
  | fuel + 1, it =>
    let chunk := t.chunks it.chunkI
    let found := (equalMask chunk.ctrl small).find? fun pos ↦
      (t.nodes (it.chunkI * chunkSize + pos)).any fun node ↦ T.eq node.1 key
    match found with
    | some pos => .ok (some (it.chunkI * chunkSize + pos))
    | none => if chunk.skippedCnt = 0 then .ok none else findLoop t key small fuel it.next

/-- `find`: the index of the node that is found. -/
def find (t : Table K V) (key : K) : Except Fault (Option ℕ) :=
  if t.usedNodes = 0 || T.isHashTableKeyEmpty key then .ok none
  else
    let hash := t.calcHash T key
    t.findLoop T key hash.smallHash t.chunksSize (t.getChunkIt hash.chunkI)

/-- The loop that `emplace` and `emplace_node` put a node into the table with.  It returns the index
of the node. -/
def emplaceLoop (node : K × V) (small : UInt8) :
    ℕ → ChunkIt → Table K V → Except Fault (ℕ × Table K V)
  | 0, _, _ => .error .fuel
  | fuel + 1, it, t =>
    let chunk := t.chunks it.chunkI
    match (equalMask chunk.ctrl 0).head? with
    | some shift =>
      let nodeIt := shift + it.chunkI * chunkSize
      .ok (nodeIt, { t with
        nodes := Function.update t.nodes nodeIt (some node)
        chunks := Function.update t.chunks it.chunkI
          { chunk with ctrl := Function.update chunk.ctrl shift small }
        usedNodes := t.usedNodes + 1 })
    | none =>
      if chunk.skippedCnt = 0xFFFF then .error .check
      else
        emplaceLoop node small fuel it.next { t with
          chunks := Function.update t.chunks it.chunkI
            { chunk with skippedCnt := chunk.skippedCnt + 1 } }

/-- `emplace_node`, and the second half of `emplace`. -/
def emplaceNode (t : Table K V) (node : K × V) : Except Fault (ℕ × Table K V) :=
  let hash := t.calcHash T node.1
  emplaceLoop node hash.smallHash t.chunksSize (t.getChunkIt hash.chunkI) t

/-- The table with the array that `resize` allocates. -/
def newArray (newSize : ℕ) : Table K V :=
  { nodesSize := newSize, chunksSize := newSize / chunkSize }

/-- `resize`, with `CHECK(new_size >= CHUNK_SIZE)`. -/
def resize (t : Table K V) (newSize : ℕ) : Except Fault (Table K V) := do
  if newSize < chunkSize then throw .check
  ((List.range t.nodesSize).filterMap t.nodes).foldlM
    (fun t node ↦ do let (_, t) ← t.emplaceNode T node; return t) (newArray newSize)

/-- `grow`. -/
def grow (t : Table K V) : Except Fault (Table K V) :=
  t.resize T (normalize (2 * t.nodesSize - if t.nodesSize = 0 then 0 else 1))

/-- `try_grow`. -/
def tryGrow (t : Table K V) : Except Fault (Table K V) :=
  if shouldGrow (t.usedNodes + 1) t.nodesSize then t.grow T else .ok t

/-- `shrink`. -/
def shrink (t : Table K V) : Except Fault (Table K V) :=
  t.resize T (normalize ((t.usedNodes + 1) * 5 / 3 + 1))

/-- `try_shrink`. -/
def tryShrink (t : Table K V) : Except Fault (Table K V) :=
  if shouldShrink t.usedNodes t.nodesSize then t.shrink T else .ok t

/-- `emplace`: the index of the node, and whether it is new. -/
def emplace (t : Table K V) (key : K) (value : V) : Except Fault ((ℕ × Bool) × Table K V) := do
  if T.isHashTableKeyEmpty key then throw .emptyKey
  match ← t.find T key with
  | some it => return ((it, false), t)
  | none =>
    let t ← t.tryGrow T
    let (it, t) ← t.emplaceNode T (key, value)
    return ((it, true), t)

/-- The loop of `erase_node`. -/
def eraseLoop (emptyI : ℕ) : ℕ → ChunkIt → (ℕ → Chunk) → Except Fault (ℕ → Chunk)
  | 0, _, _ => .error .fuel
  | fuel + 1, it, chunks =>
    let emptyChunkI := emptyI / chunkSize
    let chunk := chunks it.chunkI
    if it.chunkI = emptyChunkI then
      .ok (Function.update chunks it.chunkI { chunk with
        ctrl := Function.update chunk.ctrl (emptyI - emptyChunkI * chunkSize) 0 })
    else
      -- `skipped_cnt` is a `uint16`
      eraseLoop emptyI fuel it.next (Function.update chunks it.chunkI
        { chunk with skippedCnt := (chunk.skippedCnt + 0xFFFF) % 0x10000 })

/-- `erase_node` for the node with key `key` at `emptyI`. -/
def eraseNode (t : Table K V) (emptyI : ℕ) (key : K) : Except Fault (Table K V) := do
  let hash := t.calcHash T key
  let chunks ← eraseLoop emptyI t.chunksSize (t.getChunkIt hash.chunkI) t.chunks
  return { t with
    nodes := Function.update t.nodes emptyI none, chunks := chunks
    usedNodes := t.usedNodes - 1 }

/-- `erase(Iterator)`, for an iterator that points to a node. -/
def eraseIterator (t : Table K V) (it : ℕ) : Except Fault (Table K V) :=
  if it < t.nodesSize then
    match t.nodes it with
    | some node => t.eraseNode T it node.1
    | none => .error .badIterator
  else .error .badIterator

/-- `erase(const KeyT &)`. -/
def erase (t : Table K V) (key : K) : Except Fault (ℕ × Table K V) := do
  match ← t.find T key with
  | none => return (0, t)
  | some it =>
    let t ← t.eraseIterator T it
    let t ← t.tryShrink T
    return (1, t)

/-- `clear`. -/
def clear (_ : Table K V) : Table K V := {}

/-- `reserve`. -/
def reserve (t : Table K V) (size : ℕ) : Except Fault (Table K V) :=
  let wantSize := normalize (size * 14 / 12 + 1)
  if wantSize > t.nodesSize then t.resize T wantSize else .ok t

end Table

end

end PxcCore.FlatHashMapChunks
