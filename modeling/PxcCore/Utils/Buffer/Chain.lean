import PxcCore.Utils.Buffer.Slice

/-!
# Chains of buffers

The second half of `buffer.h`: `ChainBufferIterator`, `ChainBufferReader` and `ChainBufferWriter`.
A loop of the source is a recursion on a number of rounds that it may take; `Fault.fuel` would say
that this number was too small.
-/

namespace PxcCore.Buffer

open Lib

/-- The bytes that a node holds: its slice, which for a node with `sync_flag_` ends where its buffer
ends. -/
def content (m : Memory) (n : ℕ) : List UInt8 :=
  let slice := (m.node n).slice
  if (m.node n).syncFlag then
    match slice.buffer with
    | none => []
    | some b => (m.buffer b).data.drop slice.begin_
  else slice.asSlice m

/-- The number of all bytes in nodes. -/
def Memory.chainBytes (m : Memory) : ℕ :=
  ∑ n ∈ Finset.range m.nextNode, (content m n).length

/-! ## `ChainBufferIterator` -/

/-- `ChainBufferIterator` -/
structure ChainBufferIterator where
  head_ : Option ℕ := none
  reader : BufferSlice := {}
  needSync : Bool := false
  offset : ℕ := 0
deriving DecidableEq, Repr

namespace ChainBufferIterator

/-- `load_head` -/
def loadHead (m : Memory) (it : ChainBufferIterator) (n : ℕ) : ChainBufferIterator :=
  { it with head_ := some n, reader := (m.node n).slice, needSync := (m.node n).syncFlag }

/-- `ChainBufferIterator(head)` -/
def new (m : Memory) (head : ℕ) : ChainBufferIterator := loadHead m {} head

/-- The synchronization in the loop of `prepare_read`. -/
def sync (m : Memory) (it : ChainBufferIterator) : Except Fault ChainBufferIterator :=
  if it.needSync then do
    let reader ← it.reader.syncWithWriter m
    return { it with reader := reader }
  else return it

/-- The loop of `prepare_read`. -/
def prepareReadLoop (m : Memory) : ℕ → ChainBufferIterator →
    Except Fault (List UInt8 × ChainBufferIterator)
  | 0, _ => .error .fuel
  | fuel + 1, it =>
    match it.head_ with
    | none => return ([], it)
    | some head => do
      let res := it.reader.asSlice m
      if res ≠ [] then return (res, it)
      let it ← it.sync m
      let res := it.reader.asSlice m
      if res ≠ [] then return (res, it)
      if (m.node head).hasWriter then return ([], it)
      match (m.node head).next with
      | none => return ([], { it with head_ := none })
      | some next => prepareReadLoop m fuel (it.loadHead m next)

/-- `prepare_read` -/
def prepareRead (m : Memory) (it : ChainBufferIterator) :
    Except Fault (List UInt8 × ChainBufferIterator) :=
  prepareReadLoop m (m.nextNode + 1) it

/-- `confirm_read` -/
def confirmRead (it : ChainBufferIterator) (size : ℕ) : Except Fault ChainBufferIterator := do
  let reader ← it.reader.confirmRead size
  return { it with reader := reader, offset := it.offset + size }

/-- `read_as_buffer_slice` -/
def readAsBufferSlice (m : Memory) (it : ChainBufferIterator) (limit : ℕ) :
    Except Fault (BufferSlice × ChainBufferIterator) := do
  let (_, it) ← it.prepareRead m
  let res := it.reader.truncate limit
  let it ← it.confirmRead res.size
  return (res, it)

/-- The loop of `advance_till_end`. -/
def advanceTillEndLoop (m : Memory) : ℕ → ChainBufferIterator → Except Fault ChainBufferIterator
  | 0, _ => .error .fuel
  | fuel + 1, it => do
    let (ready, it) ← it.prepareRead m
    if ready = [] then return it
    let it ← it.confirmRead ready.length
    advanceTillEndLoop m fuel it

/-- `advance_till_end` -/
def advanceTillEnd (m : Memory) (it : ChainBufferIterator) : Except Fault ChainBufferIterator :=
  advanceTillEndLoop m (m.chainBytes + 1) it

/-- The loop of `advance`, with the room that is left in `dest`.  It gives the number of bytes
skipped and the bytes copied to `dest`. -/
def advanceLoop (m : Memory) : ℕ → ChainBufferIterator → ℕ → ℕ →
    Except Fault (ℕ × List UInt8 × ChainBufferIterator)
  | fuel, it, offset, dest =>
    if offset = 0 then return (0, [], it)
    else match fuel with
      | 0 => .error .fuel
      | fuel + 1 => do
        let (ready, it) ← it.prepareRead m
        if ready = [] then return (0, [], it)
        let ready := ready.take offset
        let copied := ready.take dest
        let it ← it.confirmRead ready.length
        let (skipped, rest, it) ←
          advanceLoop m fuel it (offset - ready.length) (dest - copied.length)
        return (ready.length + skipped, copied ++ rest, it)

/-- `advance` -/
def advance (m : Memory) (it : ChainBufferIterator) (offset dest : ℕ) :
    Except Fault (ℕ × List UInt8 × ChainBufferIterator) :=
  advanceLoop m offset it offset dest

end ChainBufferIterator

/-! ## `ChainBufferReader` -/

/-- `ChainBufferReader`; a clone is the same value. -/
structure ChainBufferReader where
  begin_ : ChainBufferIterator := {}
  end_ : ChainBufferIterator := {}
  syncFlag : Bool := true
deriving DecidableEq, Repr

namespace ChainBufferReader

/-- `ChainBufferReader(head)` -/
def new (m : Memory) (head : ℕ) : Except Fault ChainBufferReader := do
  let end_ ← (ChainBufferIterator.new m head).advanceTillEnd m
  return { begin_ := ChainBufferIterator.new m head, end_ := end_ }

/-- `size`.  The iterator `begin_` is never in front of `end_`. -/
def size (r : ChainBufferReader) : ℕ := r.end_.offset - r.begin_.offset

/-- `empty` -/
def empty (r : ChainBufferReader) : Bool := r.size = 0

/-- `prepare_read` -/
def prepareRead (m : Memory) (r : ChainBufferReader) :
    Except Fault (List UInt8 × ChainBufferReader) := do
  let (res, begin_) ← r.begin_.prepareRead m
  return (res.take r.size, { r with begin_ := begin_ })

/-- `confirm_read` -/
def confirmRead (r : ChainBufferReader) (size : ℕ) : Except Fault ChainBufferReader := do
  check (size ≤ r.size)
  let begin_ ← r.begin_.confirmRead size
  return { r with begin_ := begin_ }

/-- `advance` -/
def advance (m : Memory) (r : ChainBufferReader) (offset dest : ℕ) :
    Except Fault (ℕ × List UInt8 × ChainBufferReader) := do
  check (offset ≤ r.size)
  let (skipped, copied, begin_) ← r.begin_.advance m offset dest
  return (skipped, copied, { r with begin_ := begin_ })

/-- `sync_with_writer` -/
def syncWithWriter (m : Memory) (r : ChainBufferReader) : Except Fault ChainBufferReader :=
  if r.syncFlag then do
    let end_ ← r.end_.advanceTillEnd m
    return { r with end_ := end_ }
  else return r

/-- `cut_head(pos)`: the head and what is left of the reader. -/
def cutHeadAt (r : ChainBufferReader) (pos : ChainBufferIterator) :
    ChainBufferReader × ChainBufferReader :=
  ({ begin_ := r.begin_, end_ := pos, syncFlag := false }, { r with begin_ := pos })

/-- `cut_head(offset)` -/
def cutHead (m : Memory) (r : ChainBufferReader) (offset : ℕ) :
    Except Fault (ChainBufferReader × ChainBufferReader) := do
  check (offset ≤ r.size)
  let (_, _, it) ← r.begin_.advance m offset 0
  return r.cutHeadAt it

/-- `read_as_buffer_slice` -/
def readAsBufferSlice (m : Memory) (r : ChainBufferReader) (limit : ℕ) :
    Except Fault (BufferSlice × ChainBufferReader) := do
  let (res, begin_) ← r.begin_.readAsBufferSlice m (min limit r.size)
  return (res, { r with begin_ := begin_ })

/-- `read_as_buffer_slice()`, whose limit is the greatest `size_t`. -/
def readAllAsBufferSlice (m : Memory) (r : ChainBufferReader) :
    Except Fault (BufferSlice × ChainBufferReader) := do
  let (res, begin_) ← r.begin_.readAsBufferSlice m r.size
  return (res, { r with begin_ := begin_ })

/-- `move_as_buffer_slice`, which leaves an empty reader. -/
def moveAsBufferSlice (m : Memory) (r : ChainBufferReader) :
    Except Fault (BufferSlice × ChainBufferReader × Memory) := do
  if r.size ≤ r.begin_.reader.size then
    let (res, _) ← r.begin_.readAsBufferSlice m r.size
    return (res, {}, m)
  else
    let (res, m) := BufferSlice.ofSize m r.size
    let (_, copied, _) ← r.advance m r.size res.size
    return (res, {}, res.copyFrom m copied)

end ChainBufferReader

/-! ## `ChainBufferWriter` -/

/-- `ChainBufferWriter` -/
structure ChainBufferWriter where
  writer : Option ℕ := none
  tail : Option ℕ := none
  head_ : Option ℕ := none
deriving DecidableEq, Repr

namespace ChainBufferWriter

/-- `ChainBufferNodeAllocator::create` -/
def createNode (m : Memory) (slice : BufferSlice) (syncFlag : Bool) : ℕ × Memory :=
  (m.nextNode, m.pushNode { slice := slice, syncFlag := syncFlag, hasWriter := true })

/-- `tail_->next_` becomes the new tail, and the old tail is released. -/
def link (m : Memory) (tail newTail : ℕ) : Memory :=
  m.setNode tail { m.node tail with next := some newTail, hasWriter := false }

/-- `ChainBufferWriter()` -/
def new (m : Memory) : ChainBufferWriter × Memory :=
  let (writer, m) := BufferAllocator.createWriter m 0
  let (tail, m) := createNode m (BufferSlice.ofBuffer m writer) true
  ({ writer := some writer, tail := some tail, head_ := some tail }, m)

/-- The destructor, which releases `tail_`. -/
def destroy (m : Memory) (w : ChainBufferWriter) : ChainBufferWriter × Memory :=
  match w.tail with
  | none => (w, m)
  | some tail => ({}, m.setNode tail { m.node tail with hasWriter := false })

/-- `prepare_append_inplace` -/
def prepareAppendInplace (m : Memory) (w : ChainBufferWriter) : Except Fault ℕ := do
  check w.tail.isSome
  return BufferWriter.prepareAppend m w.writer

/-- `prepare_append_alloc` -/
def prepareAppendAlloc (m : Memory) (w : ChainBufferWriter) (hint : ℕ) :
    Except Fault (ℕ × ChainBufferWriter × Memory) :=
  match w.tail with
  | none => .error .check
  | some tail =>
    let hint := if hint < 1024 then 4096 else hint
    let (newWriter, m) := BufferAllocator.createWriter m hint
    let (newTail, m) := createNode m (BufferSlice.ofBuffer m newWriter) true
    let m := link m tail newTail
    .ok (BufferWriter.prepareAppend m (some newWriter),
      { w with writer := some newWriter, tail := some newTail }, m)

/-- `prepare_append` -/
def prepareAppend (m : Memory) (w : ChainBufferWriter) (hint : ℕ) :
    Except Fault (ℕ × ChainBufferWriter × Memory) := do
  let res ← w.prepareAppendInplace m
  if res = 0 then w.prepareAppendAlloc m hint else return (res, w, m)

/-- `confirm_append`, after these bytes were copied to what `prepare_append` gave. -/
def confirmAppend (m : Memory) (w : ChainBufferWriter) (bytes : List UInt8) :
    Except Fault Memory := do
  check w.tail.isSome
  BufferWriter.confirmAppend m w.writer bytes

/-- The loop of `append(Slice slice, size_t hint)`. -/
def appendLoop (hint : ℕ) : ℕ → Memory → ChainBufferWriter → List UInt8 →
    Except Fault (ChainBufferWriter × Memory)
  | fuel, m, w, slice =>
    if slice = [] then return (w, m)
    else match fuel with
      | 0 => .error .fuel
      | fuel + 1 => do
        let (ready, w, m) ← w.prepareAppend m (max slice.length hint)
        let shift := min ready slice.length
        let m ← w.confirmAppend m (slice.take shift)
        appendLoop hint fuel m w (slice.drop shift)

/-- `append(Slice slice, size_t hint)` -/
def append (m : Memory) (w : ChainBufferWriter) (slice : List UInt8) (hint : ℕ) :
    Except Fault (ChainBufferWriter × Memory) :=
  appendLoop hint slice.length m w slice

/-- `append(BufferSlice slice)` -/
def appendBufferSlice (m : Memory) (w : ChainBufferWriter) (slice : BufferSlice) :
    Except Fault (ChainBufferWriter × Memory) := do
  let ready ← w.prepareAppendInplace m
  if slice.size < 256 ∨ slice.size ≤ ready then w.append m (slice.asSlice m) 0
  else match w.tail with
    | none => .error .check
    | some tail =>
      let (newTail, m) := createNode m slice false
      let m := link m tail newTail
      return ({ w with writer := none, tail := some newTail }, m)

/-- The loop of `append(ChainBufferReader &reader)`. -/
def appendReaderLoop : ℕ → Memory → ChainBufferWriter → ChainBufferReader →
    Except Fault (ChainBufferWriter × ChainBufferReader × Memory)
  | fuel, m, w, reader =>
    if reader.empty then return (w, reader, m)
    else match fuel with
      | 0 => .error .fuel
      | fuel + 1 => do
        let (slice, reader) ← reader.readAllAsBufferSlice m
        let (w, m) ← w.appendBufferSlice m slice
        appendReaderLoop fuel m w reader

/-- `append(ChainBufferReader &reader)` -/
def appendReader (m : Memory) (w : ChainBufferWriter) (reader : ChainBufferReader) :
    Except Fault (ChainBufferWriter × ChainBufferReader × Memory) :=
  appendReaderLoop reader.size m w reader

/-- `extract_reader` -/
def extractReader (m : Memory) (w : ChainBufferWriter) :
    Except Fault (ChainBufferReader × ChainBufferWriter) :=
  match w.head_ with
  | none => .error .check
  | some head => do
    let reader ← ChainBufferReader.new m head
    return (reader, { w with head_ := none })

end ChainBufferWriter

end PxcCore.Buffer
