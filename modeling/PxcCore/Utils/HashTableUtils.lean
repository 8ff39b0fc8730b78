import PxcCore.Lib.KeyMap

/-!
# Hash table parameters

What the hash tables take as template parameters, and `is_hash_table_key_empty` and
`randomize_hash` of `HashTableUtils.h`.
-/

namespace PxcCore

open Lib

/-- `randomize_hash`. -/
def randomizeHash (h : UInt32) : UInt32 :=
  let h := h ^^^ (h >>> 16)
  let h := h * 0x85ebca6b
  let h := h ^^^ (h >>> 13)
  let h := h * 0xc2b2ae35
  h ^^^ (h >>> 16)

/-- `HashT` and `EqT`, with the key `KeyT()` of an empty bucket.  Equal keys have equal hashes. -/
structure HashTraits (K : Type) extends KeyEq K where
  hash : K → UInt32
  hash_eq : ∀ {a b}, eq a b = true → hash a = hash b
  emptyKey : K

namespace HashTraits

variable {K : Type} (T : HashTraits K)

/-- `is_hash_table_key_empty`. -/
def isHashTableKeyEmpty (key : K) : Bool := T.eq key T.emptyKey

/-- A key that can be stored. -/
def Key : Type := { key : K // T.isHashTableKeyEmpty key = false }

/-- The key, if it can be stored. -/
def toKey (key : K) : Option T.Key :=
  if h : T.isHashTableKeyEmpty key = false then some ⟨key, h⟩ else none

/-- Numbers that are their own hashes. -/
def identity : HashTraits UInt32 where
  eq a b := a == b
  refl := by simp
  symm := by simp
  trans := by simp
  hash := id
  hash_eq := by simp
  emptyKey := 0

/-- `Hash<uint64>` with `std::equal_to`. -/
def uint64 : HashTraits UInt64 where
  eq a b := a == b
  refl := by simp
  symm := by simp
  trans := by simp
  hash value := randomizeHash (value + (value >>> 32)).toUInt32
  hash_eq := by
    intro a b h
    rw [beq_iff_eq.1 h]
  emptyKey := 0

end HashTraits

end PxcCore
