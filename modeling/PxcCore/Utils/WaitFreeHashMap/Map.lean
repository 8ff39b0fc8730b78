import PxcCore.Lib.KeyParts
import PxcCore.Utils.FlatHashTable.Iterate
import PxcCore.Utils.FlatHashTable.Reference

/-!
# `WaitFreeHashMap` and `WaitFreeHashSet`

The maps of `WaitFreeHashMap.h`: a flat hash map that is distributed over 256 nested maps when it
has grown to its threshold.  A `WaitFreeHashSet` is a map whose values are trivial; it has `insert`
and `get_random` in the place of `set`.

The recursion of `split_storage` need not end, so the operations that may split take the number of
splits that may be nested in one another.  Which bucket an iteration begins from is taken from a
parameter; the bucket that `begin_impl` writes down only says where the next iteration begins, so it
is not kept.
-/

namespace PxcCore.WaitFreeHashMap

open Lib FlatHashTable

/-- How a call ends other than by returning: in the table of a map, or with a split that is nested
too deep. -/
inductive Fault where
  | table (fault : FlatHashTable.Fault)
  | depth
deriving DecidableEq, Repr

/-- `MAX_STORAGE_COUNT`. -/
abbrev maxStorageCount : ℕ := 1 <<< 8

/-- `DEFAULT_STORAGE_SIZE`. -/
def defaultStorageSize : UInt32 := (1 : UInt32) <<< 12

/-- The members of a `WaitFreeHashMap` other than `wait_free_storage_`. -/
structure Fields (K V : Type) where
  defaultMap : Table K V := {}
  hashMult : UInt32 := 1
  maxStorageSize : UInt32 := defaultStorageSize

/-- `WaitFreeHashMap`, without and with a `wait_free_storage_`. -/
inductive Map (K V : Type) where
  | flat (m : Fields K V)
  | split (m : Fields K V) (maps : Fin maxStorageCount → Map K V)

/-- The random numbers that iterations begin with: one for each map, given by the way to it. -/
abbrev Random : Type := List (Fin maxStorageCount) → UInt32

section

variable {K V : Type} (T : Traits K)

/-- `get_wait_free_index`. -/
def getWaitFreeIndex (hashMult : UInt32) (key : K) : Fin maxStorageCount :=
  Fin.ofNat maxStorageCount (randomizeHash (T.hash key * hashMult) &&& 255).toNat

/-- `next_hash_mult` of `split_storage`. -/
def nextHashMult (hashMult : UInt32) : UInt32 := hashMult * 1000000007

/-- The nested map `i` as `split_storage` makes it. -/
def nestedFields (hashMult : UInt32) (i : Fin maxStorageCount) : Fields K V where
  hashMult := nextHashMult hashMult
  maxStorageSize :=
    defaultStorageSize + UInt32.ofNat i * nextHashMult hashMult % defaultStorageSize

namespace Map

/-! ## The way of a key -/

/-- `get_wait_free_storage`, up to a map that is not split. -/
def leaf (key : K) : Map K V → Fields K V
  | .flat m => m
  | .split m maps => leaf key (maps (getWaitFreeIndex T m.hashMult key))

/-- An operation that changes the map at the end of the way of a key. -/
def descend {α : Type} (key : K) (op : Fields K V → Except Fault (α × Map K V)) :
    Map K V → Except Fault (α × Map K V)
  | .flat m => op m
  | .split m maps => do
    let i := getWaitFreeIndex T m.hashMult key
    let (a, nested) ← descend key op (maps i)
    return (a, .split m (Function.update maps i nested))

/-! ## Changing the map -/

/-- The body of the loop of `split_storage`, with the `set` of the nested maps. -/
def moveNode (set : Random → K → V → Map K V → Except Fault (Bool × Map K V)) (random : Random)
    (hashMult : UInt32) (maps : Fin maxStorageCount → Map K V) (node : K × V) :
    Except Fault (Fin maxStorageCount → Map K V) := do
  let i := getWaitFreeIndex T hashMult node.1
  let (_, nested) ← set (fun path ↦ random (i :: path)) node.1 node.2 (maps i)
  return Function.update maps i nested

/-- `split_storage`. -/
def splitStorage (set : Random → K → V → Map K V → Except Fault (Bool × Map K V))
    (random : Random) (m : Fields K V) : Except Fault (Map K V) := do
  let nodes ← (m.defaultMap.elements (random [])).mapError .table
  let maps ← nodes.foldlM (moveNode T set random m.hashMult)
    fun i ↦ .flat (nestedFields m.hashMult i)
  return .split { m with defaultMap := m.defaultMap.clear } maps

variable [Inhabited V]

/-- `set` and `insert` on a map that is not split.  The answer of `insert` is whether the key is
new. -/
def setFlat : ℕ → Random → K → V → Fields K V → Except Fault (Bool × Map K V)
  | depth, random, key, value, m => do
    let ((b, inserted), t) ← (m.defaultMap.emplace T key default).mapError .table
    let (_, t) ← (t.modify b fun _ ↦ value).mapError .table
    let m := { m with defaultMap := t }
    if t.size = m.maxStorageSize.toNat then
      match depth with
      | 0 => throw .depth
      | depth + 1 => do
        let s ← splitStorage T (fun random key value s ↦
          s.descend T key (setFlat depth random key value)) random m
        return (inserted, s)
    else return (inserted, .flat m)

/-- `set` and `insert`. -/
def set (depth : ℕ) (random : Random) (key : K) (value : V) (s : Map K V) :
    Except Fault (Bool × Map K V) :=
  s.descend T key (setFlat T depth random key value)

/-- `operator[]` on a map that is not split; the value it refers to is read, and `f` is assigned to
it. -/
def subscriptFlat (random : Random) (key : K) (f : V → V) :
    ℕ → Fields K V → Except Fault (V × Map K V)
  | depth, m => do
    let ((b, _), t) ← (m.defaultMap.emplace T key default).mapError .table
    if t.size ≠ m.maxStorageSize.toNat then
      let (value, t) ← (t.modify b f).mapError .table
      return (value, .flat { m with defaultMap := t })
    match depth with
    | 0 => throw .depth
    | depth + 1 => do
      let s ← splitStorage T (set T depth) random { m with defaultMap := t }
      s.descend T key (subscriptFlat random key f depth)

/-- `operator[]`, with a use of what it returns. -/
def subscript (depth : ℕ) (random : Random) (key : K) (f : V → V) (s : Map K V) :
    Except Fault (V × Map K V) :=
  s.descend T key (subscriptFlat T random key f depth)

/-- `erase`. -/
def erase (key : K) (s : Map K V) : Except Fault (ℕ × Map K V) :=
  s.descend T key fun m ↦ do
    let (n, t) ← (m.defaultMap.erase T key).mapError .table
    return (n, .flat { m with defaultMap := t })

/-! ## Looking at it -/

/-- `get`. -/
def get (key : K) (s : Map K V) : Except Fault V := do
  let value ← ((s.leaf T key).defaultMap.find T key).mapError .table
  return value.getD default

/-- `count`. -/
def count (key : K) (s : Map K V) : Except Fault ℕ :=
  ((s.leaf T key).defaultMap.count T key).mapError .table

/-- `foreach`: the elements in the order in which the callback is called on them. -/
def foreach : Map K V → Random → Except Fault (List (K × V))
  | .flat m, random => (m.defaultMap.elements (random [])).mapError .table
  | .split _ maps, random =>
    (List.finRange maxStorageCount).foldlM (fun nodes i ↦ do
      let nested ← (maps i).foreach fun path ↦ random (i :: path)
      return nodes ++ nested) []

/-- `calc_size`. -/
def calcSize : Map K V → ℕ
  | .flat m => m.defaultMap.size
  | .split _ maps =>
    (List.finRange maxStorageCount).foldl (fun result i ↦ result + (maps i).calcSize) 0

/-- `empty`. -/
def empty : Map K V → Bool
  | .flat m => m.defaultMap.size == 0
  | .split _ maps => (List.finRange maxStorageCount).all fun i ↦ (maps i).empty

/-- `WaitFreeHashSet::get_random` on a set that is not split. -/
def getRandomFlat (random : UInt32) (m : Fields K V) : Except Fault K :=
  if m.defaultMap.size = 0 then .ok T.emptyKey
  else do
    let (b, t) ← (m.defaultMap.beginImpl random).mapError .table
    match b.bind t.nodes with
    | none => throw (.table .badIterator)
    | some node => return node.1

/-- `WaitFreeHashSet::get_random`. -/
def getRandom (random : UInt32) : Map K V → Except Fault K
  | .flat m => getRandomFlat T random m
  | .split m maps =>
    match (List.finRange maxStorageCount).find? fun i ↦ !(maps i).empty with
    | none => getRandomFlat T random m
    | some i => (maps i).getRandom random

end Map

end

end PxcCore.WaitFreeHashMap
