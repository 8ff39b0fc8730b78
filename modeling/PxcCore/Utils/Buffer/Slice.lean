import PxcCore.Lib.Result

/-!
# Buffers and slices of them

The first half of `buffer.h`: `BufferRaw`, `BufferAllocator`, `BufferSlice` and `BufferWriter`.
Pointers are numbers, given out in the order of allocation, and nothing is freed: a reference count
only says when memory that nobody can reach is given back.  Sizes count bytes in memory and are
natural numbers.
-/

namespace PxcCore.Buffer

open Lib

/-- How an operation ends other than by returning. -/
inductive Fault where
  | check
  | fuel
  | noObject
deriving DecidableEq, Repr

/-- The `CHECK` macro. -/
def check (p : Bool) : Except Fault Unit :=
  if p then .ok () else .error .check

@[simp] theorem check_true : check true = .ok () := rfl

@[simp] theorem check_false : check false = .error .check := rfl

/-! ## Memory -/

/-- `BufferRaw`.  The bytes of `data_` before `end_` are `data`; what lies behind is not written
yet and nobody reads it. -/
structure BufferRaw where
  dataSize : ℕ := 0
  begin_ : ℕ := 0
  data : List UInt8 := []
deriving DecidableEq, Repr

namespace BufferRaw

/-- `end_` -/
def end_ (raw : BufferRaw) : ℕ := raw.data.length

end BufferRaw

/-- `BufferSlice` -/
structure BufferSlice where
  buffer : Option ℕ := none
  begin_ : ℕ := 0
  end_ : ℕ := 0
deriving DecidableEq, Repr

/-- `ChainBufferNode` -/
structure ChainBufferNode where
  slice : BufferSlice := {}
  syncFlag : Bool := false
  next : Option ℕ := none
  hasWriter : Bool := false
deriving DecidableEq, Repr

/-- All buffers and all nodes, and the buffer that small slices of this thread share
(`buffer_raw_tls`). -/
structure Memory where
  buffer : ℕ → BufferRaw := fun _ ↦ {}
  nextBuffer : ℕ := 0
  node : ℕ → ChainBufferNode := fun _ ↦ {}
  nextNode : ℕ := 0
  bufferRawTls : Option ℕ := none

namespace Memory

/-- One buffer replaced. -/
def setBuffer (m : Memory) (b : ℕ) (raw : BufferRaw) : Memory :=
  { m with buffer := Function.update m.buffer b raw }

/-- One node replaced. -/
def setNode (m : Memory) (n : ℕ) (node : ChainBufferNode) : Memory :=
  { m with node := Function.update m.node n node }

/-- A buffer behind all the others. -/
def pushBuffer (m : Memory) (raw : BufferRaw) : Memory :=
  { m with buffer := Function.update m.buffer m.nextBuffer raw, nextBuffer := m.nextBuffer + 1 }

/-- A node behind all the others. -/
def pushNode (m : Memory) (node : ChainBufferNode) : Memory :=
  { m with node := Function.update m.node m.nextNode node, nextNode := m.nextNode + 1 }

/-- The end of a buffer moved forward over these bytes. -/
def extendBuffer (m : Memory) (b : ℕ) (bytes : List UInt8) : Memory :=
  m.setBuffer b { m.buffer b with data := (m.buffer b).data ++ bytes }

end Memory

/-! ## Allocation -/

/-- `(size + 7) & -8` -/
def roundUp (size : ℕ) : ℕ := (size + 7) / 8 * 8

theorem le_roundUp (size : ℕ) : size ≤ roundUp size := by
  simp only [roundUp]
  omega

namespace BufferAllocator

/-- `create_buffer_raw` -/
def createBufferRaw (m : Memory) (size : ℕ) : ℕ × Memory :=
  (m.nextBuffer, m.pushBuffer { dataSize := roundUp size })

/-- `create_writer` -/
def createWriter (m : Memory) (size : ℕ) : ℕ × Memory :=
  createBufferRaw m (if size < 512 then 512 else size)

/-- `create_reader_fast` -/
def createReaderFast (m : Memory) (size : ℕ) : ℕ × Memory :=
  let size := roundUp size
  let (b, m) :=
    match m.bufferRawTls with
    | some b =>
      if (m.buffer b).dataSize - (m.buffer b).end_ < size then
        let (b, m) := createBufferRaw m (4096 * 4)
        (b, { m with bufferRawTls := some b })
      else (b, m)
    | none =>
      let (b, m) := createBufferRaw m (4096 * 4)
      (b, { m with bufferRawTls := some b })
  (b, m.extendBuffer b (List.replicate size 0))

/-- `create_reader` of a size.  Fresh memory is filled with zeros here. -/
def createReader (m : Memory) (size : ℕ) : ℕ × Memory :=
  if size < 512 then createReaderFast m size
  else
    let (b, m) := createBufferRaw m size
    (b, m.extendBuffer b (List.replicate (roundUp size) 0))

end BufferAllocator

/-! ## `BufferSlice` -/

namespace BufferSlice

/-- The slice of a whole buffer. -/
def ofBuffer (m : Memory) (b : ℕ) : BufferSlice where
  buffer := some b
  begin_ := (m.buffer b).begin_
  end_ := (m.buffer b).end_

/-- `BufferSlice(size_t size)` -/
def ofSize (m : Memory) (size : ℕ) : BufferSlice × Memory :=
  let (b, m) := BufferAllocator.createReader m size
  let begin_ := (m.buffer b).end_ - roundUp size
  ({ buffer := some b, begin_ := begin_, end_ := begin_ + size }, m)

/-- `is_null` -/
def isNull (s : BufferSlice) : Bool := s.buffer.isNone

/-- `size` -/
def size (s : BufferSlice) : ℕ := if s.isNull then 0 else s.end_ - s.begin_

/-- `as_slice` -/
def asSlice (m : Memory) (s : BufferSlice) : List UInt8 :=
  match s.buffer with
  | none => []
  | some b => ((m.buffer b).data.take s.end_).drop s.begin_

/-- `as_mutable_slice().copy_from`, of no more bytes than the slice has. -/
def copyFrom (m : Memory) (s : BufferSlice) (bytes : List UInt8) : Memory :=
  match s.buffer with
  | none => m
  | some b =>
    let data := (m.buffer b).data
    m.setBuffer b { m.buffer b with
      data := data.take s.begin_ ++ bytes ++ data.drop (s.begin_ + bytes.length) }

/-- `BufferSlice(Slice slice)` -/
def ofSlice (m : Memory) (slice : List UInt8) : BufferSlice × Memory :=
  let (s, m) := ofSize m slice.length
  (s, s.copyFrom m slice)

/-- `confirm_read` -/
def confirmRead (s : BufferSlice) (size : ℕ) : Except Fault BufferSlice := do
  check (s.begin_ + size ≤ s.end_)
  return { s with begin_ := s.begin_ + size }

/-- `truncate` -/
def truncate (s : BufferSlice) (limit : ℕ) : BufferSlice :=
  if limit < s.size then { s with end_ := s.begin_ + limit } else s

/-- `sync_with_writer` -/
def syncWithWriter (m : Memory) (s : BufferSlice) : Except Fault BufferSlice :=
  match s.buffer with
  | none => .error .check
  | some b => .ok { s with end_ := (m.buffer b).end_ }

/-- What `std::move` leaves of a slice. -/
def movedFrom (s : BufferSlice) : BufferSlice := { s with buffer := none }

end BufferSlice

/-! ## `BufferWriter`

A writer is the pointer to its buffer, which may be null.  A `MutableSlice` behind the end of the
buffer is the number of bytes that there is room for. -/

namespace BufferWriter

/-- `prepare_append` -/
def prepareAppend (m : Memory) : Option ℕ → ℕ
  | none => 0
  | some b => (m.buffer b).dataSize - (m.buffer b).end_

/-- `confirm_append`, after these bytes were copied behind the end. -/
def confirmAppend (m : Memory) (buffer : Option ℕ) (bytes : List UInt8) : Except Fault Memory :=
  match buffer with
  | none => do
    check (bytes.length = 0)
    return m
  | some b => do
    check ((m.buffer b).end_ + bytes.length ≤ (m.buffer b).dataSize)
    return m.extendBuffer b bytes

end BufferWriter

end PxcCore.Buffer
