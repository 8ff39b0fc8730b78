import PxcCore.Utils.FlatHashTable.Iterate
import PxcCore.Utils.Tl.Storer

/-!
# `store` and `parse`

`tl_helpers.h`.  The overloads of `store` and `parse` are chosen by the type of their argument, so
here they are functions on a type of types.  Only types whose values can be compared are keys of
sets; the index says which are.  (`Variant` has its alternatives in a pack of types, so their
number is an `int`.)
-/

namespace PxcCore.Tl

open Lib FlatHashTable

/-- The types that `store` and `parse` have overloads for; `TlType true` are the keys of sets.  A
`double` is its bits, an `enum` has an underlying type of `w` bits. -/
inductive TlType : Bool → Type → Type 1 where
  | bool {k : Bool} : TlType k Bool
  | int32 {k : Bool} : TlType k Int32
  | uint32 {k : Bool} : TlType k UInt32
  | int64 {k : Bool} : TlType k Int64
  | uint64 {k : Bool} : TlType k UInt64
  | enum {k : Bool} (w : ℕ) (signed : Bool) : TlType k (BitVec w)
  | double : TlType false UInt64
  | string {k : Bool} : TlType k (List UInt8)
  | vector {k : Bool} {α : Type} (t : TlType k α) : TlType k (List α)
  | pair {k : Bool} {α β : Type} (t : TlType k α) (u : TlType k β) : TlType k (α × β)
  | variant {k : Bool} {n : ℕ} {types : Fin n → Type} (hn : n < 2 ^ 31)
    (ts : ∀ i, TlType k (types i)) : TlType k (Option (Σ i, types i))
  | uniquePtr {α : Type} (t : TlType false α) : TlType false (Option α)
  | flatHashSet {α : Type} (T : Traits α) (t : TlType true α) : TlType false (Table α Unit)

namespace TlType

/-- `T()`. -/
def default : {k : Bool} → {α : Type} → TlType k α → α
  | _, _, .bool => false
  | _, _, .int32 => 0
  | _, _, .uint32 => 0
  | _, _, .int64 => 0
  | _, _, .uint64 => 0
  | _, _, .enum _ _ => 0
  | _, _, .double => 0
  | _, _, .string => []
  | _, _, .vector _ => []
  | _, _, .pair t u => (t.default, u.default)
  | _, _, .variant _ _ => none
  | _, _, .uniquePtr _ => none
  | _, _, .flatHashSet _ _ => {}

end TlType

/-! ## `store` -/

/-- The bytes of an `int32`. -/
def int32Bytes (x : Int32) : List UInt8 := leBytes 4 x.toUInt32.toNat

/-- The bytes of an `int64`. -/
def int64Bytes (x : Int64) : List UInt8 := leBytes 8 x.toUInt64.toNat

/-- `narrow_cast<int32>` of a `size_t`. -/
def narrowCast (size : ℕ) : Except Fault Int32 :=
  if size < 2 ^ 31 then .ok (Int32.ofNat size) else .error .check

/-- `static_cast<int32>` of an `enum`. -/
def enumToInt32 {w : ℕ} (signed : Bool) (x : BitVec w) : Int32 :=
  .ofBitVec (if signed then x.signExtend 32 else x.setWidth 32)

/-- `static_cast` of an `int32` to an `enum`. -/
def int32ToEnum (w : ℕ) (x : Int32) : BitVec w := x.toBitVec.signExtend w

section

variable {S : Type} [Storer S]

/-- The loop of the containers; `f` is told which element it stores. -/
def storeAll {α : Type} (f : ℕ → α → S → Except Fault S) : ℕ → List α → S → Except Fault S
  | _, [], s => .ok s
  | i, x :: xs, s => do
    let s ← f i x s
    storeAll f (i + 1) xs s

/-- `store`.  `random` are the buckets from which the sets in the object are visited, each named by
the way to it.  (A set keeps its `begin_bucket_`, so both storers visit it in the same order.) -/
def store : {k : Bool} → {α : Type} → TlType k α → (List ℕ → UInt32) → α → S → Except Fault S
  | _, _, .bool, _, x, s => Storer.storeBinary (int32Bytes (if x then 1 else 0)) s
  | _, _, .int32, _, x, s => Storer.storeBinary (int32Bytes x) s
  | _, _, .uint32, _, x, s => Storer.storeBinary (leBytes 4 x.toNat) s
  | _, _, .int64, _, x, s => Storer.storeBinary (int64Bytes x) s
  | _, _, .uint64, _, x, s => Storer.storeBinary (leBytes 8 x.toNat) s
  | _, _, .enum _ signed, _, x, s => Storer.storeBinary (int32Bytes (enumToInt32 signed x)) s
  | _, _, .double, _, x, s => Storer.storeBinary (leBytes 8 x.toNat) s
  | _, _, .string, _, x, s => Storer.storeString x s
  | _, _, .vector t, random, x, s => do
    let size ← narrowCast x.length
    let s ← Storer.storeBinary (int32Bytes size) s
    storeAll (fun i ↦ store t fun way ↦ random (i :: way)) 0 x s
  | _, _, .pair t u, random, x, s => do
    let s ← store t (fun way ↦ random (0 :: way)) x.1 s
    store u (fun way ↦ random (1 :: way)) x.2 s
  | _, _, .variant _ ts, random, x, s =>
    match x with
    | none => Storer.storeBinary (int32Bytes (-1)) s
    | some ⟨i, value⟩ => do
      let s ← Storer.storeBinary (int32Bytes (Int32.ofNat i)) s
      store (ts i) random value s
  | _, _, .uniquePtr t, random, x, s =>
    match x with
    | none => .error .check
    | some value => store t random value s
  | _, _, .flatHashSet _ t, random, x, s => do
    let size ← narrowCast x.size
    let s ← Storer.storeBinary (int32Bytes size) s
    let nodes ← (x.elements (random [])).mapError .table
    storeAll (fun i node ↦ store t (fun way ↦ random (i :: way)) node.1) 0 nodes s

end

/-! ## `parse` -/

/-- The loop of a vector. -/
def parseAll {α : Type} (parse : TlParser → Except Fault (α × TlParser)) :
    ℕ → TlParser → Except Fault (List α × TlParser)
  | 0, p => .ok ([], p)
  | n + 1, p => do
    let (val, p) ← parse p
    let (vals, p) ← parseAll parse n p
    return (val :: vals, p)

/-- The loop of a set. -/
def parseKeys {α : Type} (T : Traits α) (parse : TlParser → Except Fault (α × TlParser)) :
    ℕ → Table α Unit → TlParser → Except Fault (Table α Unit × TlParser)
  | 0, s, p => .ok (s, p)
  | n + 1, s, p => do
    let (val, p) ← parse p
    let (_, s) ← (s.emplace T val ()).mapError .table
    parseKeys T parse n s p

/-- The alternative of a variant with this offset. -/
def toOffset {n : ℕ} {i : ℤ} (h : 0 ≤ i ∧ i < n) : Fin n := ⟨i.toNat, by omega⟩

/-- `parse` of an object with its present value. -/
def parse : {k : Bool} → {α : Type} → TlType k α → α → TlParser → Except Fault (α × TlParser)
  | _, _, .bool, _, p => do
    let (result, p) ← p.fetchInt
    return (result != 0, p)
  | _, _, .int32, _, p => p.fetchInt
  | _, _, .uint32, _, p => do
    let (result, p) ← p.fetchInt
    return (result.toUInt32, p)
  | _, _, .int64, _, p => p.fetchLong
  | _, _, .uint64, _, p => do
    let (result, p) ← p.fetchLong
    return (result.toUInt64, p)
  | _, _, .enum w _, _, p => do
    let (result, p) ← p.fetchInt
    return (int32ToEnum w result, p)
  | _, _, .double, _, p => p.fetchDouble
  | _, _, .string, _, p => p.fetchString
  | _, _, .vector t, x, p => do
    let (size, p) ← p.fetchInt
    let size := size.toUInt32.toNat
    if p.leftLen < size then
      let p ← p.setError "Wrong vector length"
      return (x, p)
    parseAll (parse t t.default) size p
  | _, _, .pair t u, x, p => do
    let (first, p) ← parse t x.1 p
    let (second, p) ← parse u x.2 p
    return ((first, second), p)
  | _, _, @TlType.variant _ n _ _ ts, x, p => do
    let (typeOffset, p) ← p.fetchInt
    if h : 0 ≤ typeOffset.toInt ∧ typeOffset.toInt < n then
      let i : Fin n := toOffset h
      let (value, p) ← parse (ts i) (ts i).default p
      return (some ⟨i, value⟩, p)
    let p ← p.setError "Invalid type"
    return (x, p)
  | _, _, .uniquePtr t, x, p => do
    if x.isSome then throw .check
    let (value, p) ← parse t t.default p
    return (some value, p)
  | _, _, .flatHashSet T t, x, p => do
    let (size, p) ← p.fetchInt
    let size := size.toUInt32.toNat
    if p.leftLen < size then
      let p ← p.setError "Wrong set length"
      return (x, p)
    parseKeys T (parse t t.default) size x.clear p

/-! ## `serialize` and `unserialize` -/

/-- Where the characters of a `std::string` of each length lie: only the short ones, that are kept
within the object, may not be aligned. -/
structure StringStorage where
  isAligned : ℕ → Bool
  isAligned_of_large : ∀ length, 1024 * 1024 < length → isAligned length = true

/-- `StackAllocator::alloc`, with nothing allocated yet. -/
def stackAlloc (size : ℕ) : Except Fault ℕ :=
  if size > 1024 * 1024 then .error .abort else .ok size

/-- The buffer that is written to: that of the string, unless it is not aligned. -/
def StringStorage.buffer (storage : StringStorage) (length : ℕ) : Except Fault ℕ :=
  if !storage.isAligned length then stackAlloc length else .ok length

variable {k : Bool} {α : Type}

/-- `serialize`. -/
def serialize (storage : StringStorage) (t : TlType k α) (random : List ℕ → UInt32) (x : α) :
    Except Fault (List UInt8) := do
  let calcLength ← store t random x ({} : TlStorerCalcLength)
  let size ← storage.buffer calcLength.length.toNat
  let storer ← store t random x (TlStorerUnsafe.new size)
  if storer.written.length ≠ size then throw .check
  return storer.written

/-- `get_status`: the message of an error. -/
def TlParser.getStatus (p : TlParser) : Option String :=
  if p.error = "" then none
  else some (p.error ++ " at " ++ toString (p.errorPos.getD (2 ^ 64 - 1)))

/-- `unserialize`: the object and the status. -/
def unserialize (t : TlType k α) (x : α) (data : List UInt8) (aligned : Bool) :
    Except Fault (α × Option String) := do
  let p ← TlParser.new data aligned
  let (x, p) ← parse t x p
  let p ← p.fetchEnd
  return (x, p.getStatus)

end PxcCore.Tl
